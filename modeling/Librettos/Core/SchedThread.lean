/-
# `Core.SchedThread` — the steps of a thread in its own code

A processor `p` executes its thread `t`.  Most of the steps are quiet (`Quiet`): what is
left is that the thread still fits its processor, and what happens to the mutex.
-/
import Librettos.Core.SchedInv

namespace Librettos.Sched

open Function (update update_of_ne update_self)
/-! ## Acquiring a mutex -/

section
variable {T M C : Type} {m : M} {k : After C} {c : C} {timed : Bool}

@[simp]
theorem After.got_waits (k : After C) : (k.got : Pc T M C).waits = k.waits := by cases k <;> rfl

@[simp]
theorem After.got_calls (k : After C) : (k.got : Pc T M C).calls = none := by cases k <;> rfl

@[simp]
theorem After.got_wants (k : After C) : (k.got : Pc T M C).wants = none := by cases k <;> rfl

@[simp]
theorem After.got_ne_asleep (k : After C) : (k.got : Pc T M C) ≠ .asleep c timed := by
  cases k <;> simp [After.got]

theorem After.got_onward {d : Pc T M C} (hw : d.wants = some (m, k)) :
    d.phase.Onward (k.got : Pc T M C).phase := by
  cases d <;> simp only [Pc.wants, Option.some.injEq, Prod.mk.injEq, reduceCtorEq] at hw <;>
    (obtain ⟨rfl, rfl⟩ := hw; rename_i k; cases k <;> simp [Pc.phase, After.waits, After.got, Phase.Onward])

theorem Pc.waits_of_wants {d : Pc T M C} (hw : d.wants = some (m, k)) : d.waits = k.waits := by
  cases d <;> simp only [Pc.wants, Option.some.injEq, Prod.mk.injEq, reduceCtorEq] at hw <;>
    (obtain ⟨rfl, rfl⟩ := hw; rfl)

theorem Pc.calls_of_wants {d : Pc T M C} (hw : d.wants = some (m, k)) : d.calls = none := by
  cases d <;> first | rfl | simp [Pc.wants] at hw

/-- Outside of any wait call, and not about to wake a waiter. -/
def Pc.Plain (d : Pc T M C) : Prop := d.waits = none ∧ d.phase = .out ∧ d.calls = none

end

/-! ## The mutex of a step -/

section
variable {P T M C : Type} {mtx : C → M} {spin : M → Bool} {s s' : State P T M C} {p : P} {t u : T}
variable {m : M} {k : After C} {c : C} {timed all : Bool} {a b : Agent P T}

attribute [local simp] State.setPc State.setMode State.setToken

theorem MutexOk.congr (h : MutexOk s m) (hcounter : s'.counter m = s.counter m)
    (hqueue : s'.queue m = s.queue m) (htoken : s'.token m = s.token m) : MutexOk s' m := by
  constructor
  · rw [hcounter, htoken]
    exact h.counter
  · rw [hqueue, htoken]
    exact h.banked

theorem MutexOk.counter_ne_zero (h : MutexOk s m) (hm : s.token m ≠ .free) : s.counter m ≠ 0 :=
  fun h0 => hm (h.counter.mp h0)

theorem MutexOk.pending_eq_zero (h : MutexOk s m) (hm : s.token m ≠ .banked) :
    (s.queue m).pending = 0 := by
  rcases h.banked with ⟨-, hb⟩ | ⟨h0, -⟩
  · exact absurd hb hm
  · exact h0

variable [DecidableEq M]

theorem mutexOk_held (h : ∀ n, MutexOk s n) (hm : s.token m ≠ .banked)
    (hcounter : s'.counter m ≠ 0) (hqueue : s'.queue = s.queue)
    (hother : ∀ n, n ≠ m → s'.counter n = s.counter n)
    (htoken : s'.token = update s.token m (.held a)) (n : M) : MutexOk s' n := by
  by_cases hn : n = m
  · subst hn
    refine ⟨by simp [hcounter, htoken], .inr ⟨?_, by simp [htoken]⟩⟩
    rw [hqueue]
    exact (h n).pending_eq_zero hm
  · exact (h n).congr (hother n hn) (by rw [hqueue]) (by simp [htoken, hn])

theorem mutexOk_sub (h : ∀ n, MutexOk s n) (hm : s.token m = .held b) (n : M) :
    MutexOk (s.sub m a) n := by
  by_cases hn : n = m
  · subst hn
    have h0 : s.counter n ≠ 0 := (h n).counter_ne_zero (by simp [hm])
    have hp : (s.queue n).pending = 0 := (h n).pending_eq_zero (by simp [hm])
    by_cases h1 : s.counter n = 1
    · refine ⟨by simp [State.sub, h1], .inr ⟨hp, by simp [State.sub, h1]⟩⟩
    · have h2 : s.counter n - 1 ≠ 0 := by omega
      exact ⟨by simp [State.sub, h1, h2], .inr ⟨hp, by simp [State.sub, h1]⟩⟩
  · exact (h n).congr (by simp [State.sub, hn]) rfl (by simp [State.sub, hn])

/-- The token of a mutex goes on from a state in which it belongs to `a`. -/
theorem token_update {x : Token P T} (hm : (s.token m).owner = none ∨ (s.token m).owner = some a)
    (n : M) : update s.token m x n = s.token n ∨ (s.token n).owner = none ∨
      (s.token n).owner = some a := by
  by_cases hn : n = m
  · subst hn
    exact .inr hm
  · exact .inl (update_of_ne hn _ _)

/-! ## Quiet steps of a thread -/

section
variable [DecidableEq T] (h : Inv mtx s) (hcur : s.cur p = some t) (hhand : s.hand p = none)
  (hmode : s.mode p = .user)
include h hcur hhand hmode

omit [DecidableEq M] in
theorem Inv.setPc {d : Pc T M C} (hcalls : (s.pc t).calls = none ∧ d.calls = none)
    (hwaits : d.waits = (s.pc t).waits) (hphase : (s.pc t).phase.Onward d.phase)
    (hrun : (s.setPc t d).Running t) (hclaim : ∀ m k, d.claim mtx t = some (m, k) → s.token m = k)
    (hwants : ∀ m c timed, d.wants = some (m, .cv c timed) → m = mtx c) :
    Inv mtx (s.setPc t d) := by
  have hasleep : ∀ c, d ≠ .asleep c false := by
    rintro c rfl
    simp [State.Running] at hrun
  refine Quiet.inv (p := p) (t := t) ?_ h hcur hhand (by simp [hmode]) ?_ ?_
    (fun n => (h.mutex n).congr rfl rfl rfl)
  · constructor <;> simp +contextual [hcalls, hwaits, hphase, hasleep, hmode]
  · simpa [Fits, hmode, Mode.data] using hrun
  · exact ⟨by simpa using hclaim, by simpa using hwants⟩

omit [DecidableEq M] in
theorem Inv.goto {d : Pc T M C} (hold : (s.pc t).Plain) (hnew : d.Plain)
    (hrun : (s.setPc t d).Running t) (hclaim : ∀ m k, d.claim mtx t = some (m, k) → s.token m = k)
    (hwants : ∀ m c timed, d.wants = some (m, .cv c timed) → m = mtx c) : Inv mtx (s.setPc t d) :=
  h.setPc hcur hhand hmode ⟨hold.2.2, hnew.2.2⟩ (by rw [hold.1, hnew.1]) (.inl (by rw [hold.2.1, hnew.2.1]))
    hrun hclaim hwants

theorem Inv.acquire {n : ℕ} (hw : (s.pc t).wants = some (m, k))
    (hm : s.token m = .free ∨ s.token m = .ready t) (hn : n ≠ 0) :
    Inv mtx { s.acquire t m k with counter := update s.counter m n } := by
  have howner : (s.token m).owner = none ∨ (s.token m).owner = some (.thread t) := by
    rcases hm with hm | hm <;> simp [hm, Token.owner]
  refine Quiet.inv (p := p) (t := t) ?_ h hcur hhand (by simp [hmode]) ?_ ?_
    (mutexOk_held (m := m) (a := .thread t) h.mutex ?_ ?_ rfl ?_ rfl)
  · constructor
    case token => exact token_update howner
    case phase => simpa [State.acquire] using After.got_onward hw
    case late =>
      intro _
      rfl
    all_goals simp +contextual [State.acquire, Pc.waits_of_wants hw, Pc.calls_of_wants hw, hmode]
  · cases k <;> simp [Fits, hmode, Mode.data, State.Running, State.acquire, After.got]
  · constructor
    · intro m' k' hk
      cases k with
      | user => simp [State.acquire, After.got, Pc.claim] at hk
      | cv c timed =>
        obtain rfl : m = mtx c := (h.owns t).wants m c timed hw
        simp only [State.acquire, State.setPc, State.setToken, update_self, After.got,
          Pc.claim, Option.some.injEq, Prod.mk.injEq] at hk
        obtain ⟨rfl, rfl⟩ := hk
        simp [State.acquire]
    · simp [State.acquire]
  · rcases hm with hm | hm <;> simp [hm]
  · simpa using hn
  · intro n hne
    simp [hne]

theorem Inv.enterSlow (hpc : s.pc t = .enter m k) (hm : s.counter m ≠ 0) :
    Inv mtx { s.setPc t (.slow m k) with counter := update s.counter m (s.counter m + 1) } := by
  refine Quiet.inv (p := p) (t := t) ?_ h hcur hhand (by simp [hmode]) ?_ ?_ fun n => ?_
  · constructor <;> simp +contextual [hpc, hmode, Pc.calls, Pc.waits, Pc.phase, Phase.Onward]
  · simp [Fits, hmode, Mode.data, State.Running]
  · exact ⟨by simp [Pc.claim], by simpa [hpc, Pc.wants] using (h.owns t).wants⟩
  · by_cases hn : n = m
    · subst hn
      have hfree : s.token n ≠ .free := fun hf => hm ((h.mutex n).counter.mpr hf)
      exact ⟨by simp [hfree], (h.mutex n).banked⟩
    · exact (h.mutex n).congr (by simp [hn]) rfl rfl

theorem Inv.exit (hpc : s.pc t = .exit m) :
    Inv mtx ((s.sub m (.thread t)).setPc t (if s.counter m = 1 then .run else .exitWake m)) := by
  have hheld : s.token m = .held (.thread t) := (h.owns t).claim m _ (by rw [hpc]; rfl)
  refine Quiet.inv (p := p) (t := t) ?_ h hcur hhand (by simp [hmode]) ?_ ?_
    fun n => (mutexOk_sub h.mutex hheld n).congr rfl rfl rfl
  · constructor
    case token => exact token_update (.inr (by simp [hheld, Token.owner]))
    all_goals
      split <;> simp +contextual [State.sub, hpc, hmode, Pc.calls, Pc.waits, Pc.phase, Phase.Onward]
  · split <;> simp [State.sub, Fits, hmode, Mode.data, State.Running]
  · by_cases h1 : s.counter m = 1
    · exact ⟨by simp [h1, Pc.claim], by simp [h1, Pc.wants]⟩
    · exact ⟨by simp +contextual [h1, Pc.claim, State.sub], by simp [h1, Pc.wants]⟩

omit [DecidableEq M] in
theorem Inv.schedule [DecidableEq P] {d : Pc T M C} {e : Data M C} (w : T → Int) (td : T → Bool)
    (htd : ∀ j, j ≠ t → td j = s.timedout j) (hcalls : (s.pc t).calls = none ∧ d.calls = none)
    (hwaits : d.waits = (s.pc t).waits) (hphase : (s.pc t).phase.Onward d.phase)
    (hlate : d.phase ≠ .late) (hsuits : e.Suits d (td t))
    (hclaim : ∀ m k, d.claim mtx t = some (m, k) → s.token m = k)
    (hwants : ∀ m c timed, d.wants = some (m, .cv c timed) → m = mtx c) :
    Inv mtx { (s.setPc t d).setMode p (.pick (some e)) with wakeup := w, timedout := td } := by
  have hasleep : ∀ c, d ≠ .asleep c false := by
    rintro c rfl
    cases e <;> simp [Data.Suits] at hsuits
  refine Quiet.inv (p := p) (t := t) ?_ h hcur hhand (by simp [hmode]) ?_ ?_
    (fun n => (h.mutex n).congr rfl rfl rfl)
  · constructor <;> simp +contextual [hcalls, hwaits, hphase, hasleep, hlate, htd]
  · simpa [Fits, Mode.data] using hsuits
  · exact ⟨by simpa using hclaim, by simpa using hwants⟩

omit [DecidableEq M] in
theorem Inv.relock (hpc : s.pc t = .awake c timed) :
    Inv mtx { s.setPc t (enterPc spin (mtx c) (.cv c timed)) with
      result := update s.result t (s.timedout t) } := by
  refine Quiet.inv (p := p) (t := t) ?_ h hcur hhand (by simp [hmode]) ?_ ?_
    (fun n => (h.mutex n).congr rfl rfl rfl)
  · cases hs : spin (mtx c) <;> constructor <;>
      simp +contextual [enterPc, hs, hpc, hmode, Pc.calls, Pc.waits, Pc.phase, After.waits, Phase.Onward]
  · cases hs : spin (mtx c) <;> simp [enterPc, hs, Fits, hmode, Mode.data, State.Running]
  · cases hs : spin (mtx c) <;>
      exact ⟨by simp [enterPc, hs, Pc.claim], by simp +contextual [enterPc, hs, Pc.wants]⟩

end

end

end Librettos.Sched
