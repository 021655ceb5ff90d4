/-
# `Core.SchedSwitch` — the steps of `schedule`, of the callbacks and of the reaper

The steps in which a processor moves slots about.  Each of them is one of the moves of
`Core.SchedPlace`; what is left is that the slot fits where it has come to.
-/
import Librettos.Core.SchedSignal

namespace Librettos.Sched

open Function (update update_of_ne update_self)
open Timeq

section
variable {P T M C : Type} {mtx : C → M} {s s' : State P T M C} {p : P} {t u : T}
variable {m : M} {c : C} {a : Agent P T} {A W : T → Prop}

/-! ## Fitting -/

/-- A slot has come to a new place, and all else stays where it is.  What `p` itself has may change only
with this slot. -/
theorem Frame.fit_callback (hf : Frame s s' p a A W) [DecidableEq T] (hA : ∀ j, A j → j = t)
    {loc : T → Place P M C} {q : Place P M C} (hloc : Located s loc) (hfits : ∀ j, Fits s j (loc j))
    (hloc' : Located s' (update loc t q)) (hnew : Fits s' t q)
    (hhand : (s.hand p).map Hand.thread = some t ∨ s.hand p = none ∨ s'.hand p = s.hand p)
    (hon : s.cur p = some t ∨ s.cur p = none ∨ (s'.mode p).data = (s.mode p).data)
    (hleaving : (s.mode p).leaves = some t ∨ (s.mode p).leaves = none ∨ s'.mode p = s.mode p) :
    ∃ loc, Located s' loc ∧ ∀ t, Fits s' t (loc t) := by
  refine hf.fit hloc hfits hloc' (· = t) (fun j hj => ⟨fun h => hj (hA j h), by simp [hj]⟩) ?_
    (fun j hj hne => ?_) (fun j hj hne => ?_) (fun j hj hne => ?_)
  · rintro j rfl
    rwa [update_self]
  · rcases hhand with hp | hp | hp
    · exact absurd (Option.some.inj (hj.symm.trans hp)) hne
    · simp [hp] at hj
    · exact hp
  · rcases hon with hp | hp | hp
    · exact absurd (Option.some.inj (hj.symm.trans hp)) hne
    · simp [hp] at hj
    · exact hp
  · rcases hleaving with hp | hp | hp
    · exact absurd (Option.some.inj (hj.symm.trans hp)) hne
    · simp [hp] at hj
    · exact hp

/-- A processor moves a slot, and no thread goes on. -/
theorem Inv.moved [DecidableEq T] (h : Inv mtx s) {loc : T → Place P M C} {q : Place P M C}
    (hloc : Located s loc) (hfits : ∀ j, Fits s j (loc j))
    (hf : Frame s s' p (.callback p) (fun _ => False) (fun _ => False))
    (hloc' : Located s' (update loc t q)) (hnew : Fits s' t q)
    (hhand : (s.hand p).map Hand.thread = some t ∨ s.hand p = none ∨ s'.hand p = s.hand p)
    (hon : s.cur p = some t ∨ s.cur p = none ∨ (s'.mode p).data = (s.mode p).data)
    (hleaving : (s.mode p).leaves = some t ∨ (s.mode p).leaves = none ∨ s'.mode p = s.mode p)
    (hcallback : CallbackOk mtx s' p) (hmutex : ∀ n, MutexOk s' n) (hwaiters : s'.waiters = s.waiters) :
    Inv mtx s' :=
  hf.inv h (hf.fit_callback (fun _ => False.elim) hloc hfits hloc' hnew hhand hon hleaving)
    (fun _ => False.elim) (fun _ => False.elim) hcallback hmutex (hwaiters ▸ h.waiters)

theorem Inv.leaving {x : Cb T M C} (h : Inv mtx s) (hmode : s.mode p = .callback x)
    (hx : x.leaves = some t) :
    ∃ loc, Located s loc ∧ (∀ j, Fits s j (loc j)) ∧ x.Suits (s.pc t) (s.timedout t) := by
  obtain ⟨loc, hloc, hfits⟩ := h.fit
  have ht : loc t = .leaving p := hloc.loc_eq (by rw [State.At, hmode]; exact hx)
  exact ⟨loc, hloc, hfits, by simpa [Fits, ht, hmode] using hfits t⟩

variable [DecidableEq P] [DecidableEq T]

attribute [local simp] State.setPc State.setMode State.setToken

omit [DecidableEq P] [DecidableEq T] in
theorem waiters_update [DecidableEq M] {b : BlockQueue T} (hb : b.waiters = (s.queue m).waiters) (n : M) :
    (update s.queue m b n).waiters = (s.queue n).waiters := by
  by_cases hn : n = m
  · subst hn
    rwa [update_self]
  · rw [update_of_ne hn]

/-! ## Slots in hand -/

theorem Inv.put (h : Inv mtx s) (hh : s.hand p = some (.run t)) :
    Inv mtx ({ s with hand := update s.hand p none }.enqueue t) := by
  obtain ⟨loc, hloc, hfits⟩ := h.fit
  have ht : loc t = .hand p := hloc.loc_eq (by simp [State.At, hh, Hand.thread])
  have hrun : s.Running t := by simpa [Fits, ht, hh] using hfits t
  exact h.moved hloc hfits (by constructor <;> simp +contextual [State.enqueue]) (hloc.put hh) hrun
    (.inl (by simp [hh, Hand.thread])) (.inr (.inr rfl)) (.inr (.inr rfl)) (h.callback p)
    (fun n => (h.mutex n).congr rfl rfl rfl) rfl

theorem Inv.putFree (h : Inv mtx s) (hh : s.hand p = some (.free t)) :
    Inv mtx { s with hand := update s.hand p none, freeq := s.freeq ++ [t] } := by
  obtain ⟨loc, hloc, hfits⟩ := h.fit
  have ht : loc t = .hand p := hloc.loc_eq (by simp [State.At, hh, Hand.thread])
  have hdead : s.pc t = .dead := by simpa [Fits, ht, hh] using hfits t
  exact h.moved hloc hfits (by constructor <;> simp +contextual) (hloc.putFree hh) hdead
    (.inl (by simp [hh, Hand.thread])) (.inr (.inr rfl)) (.inr (.inr rfl)) (h.callback p)
    (fun n => (h.mutex n).congr rfl rfl rfl) rfl

/-! ## `schedule` -/

omit [DecidableEq T] in
theorem Inv.setMode {d : Mode T M C} (h : Inv mtx s) (hold : (s.mode p).leaves = none)
    (hnew : ∀ c, d ≠ .callback c) (hdata : s.cur p = none ∨ d.data = (s.mode p).data) :
    Inv mtx (s.setMode p d) := by
  obtain ⟨loc, hloc, hfits⟩ := h.fit
  have hleaves : ∀ r, (update s.mode p d r).leaves = (s.mode r).leaves := by
    intro r
    by_cases hr : r = p
    · subst hr
      rw [update_self, hold, Mode.leaves_eq_none hnew]
    · rw [update_of_ne hr]
  have hf : Frame s (s.setMode p d) p (.callback p) (fun _ => False) (fun _ => False) := by
    constructor <;> simp +contextual
  refine hf.inv h ?_ (fun _ => False.elim) (fun _ => False.elim) ?_
    (fun n => (h.mutex n).congr rfl rfl rfl) h.waiters
  · refine hf.fit hloc hfits
      (hloc.still rfl rfl rfl rfl rfl rfl (fun _ => rfl) hleaves (fun _ _ => .rfl))
      (fun _ => False) (fun j _ => ⟨id, rfl⟩) (fun _ => False.elim) ?_ ?_ ?_
    · exact fun _ _ _ => rfl
    · intro j hj _
      rcases hdata with hcur | hdata
      · simp [hcur] at hj
      · simpa using hdata
    · simp [hold]
  · intro n k hk
    simp [Mode.claim_eq_none hnew] at hk

theorem Inv.take {x : Option P} {l : List T} (h : Inv mtx s) (hdata : (s.mode p).data = none)
    (hcur : s.cur p = none) (hx : s.runq x = t :: l) :
    Inv mtx { s with
      runq := update s.runq x l
      cur := update s.cur p (some t) } := by
  obtain ⟨loc, hloc, hfits⟩ := h.fit
  have ht : loc t = .queued x := hloc.loc_eq (by simp [State.At, hx])
  have hrun : s.Running t := by simpa [Fits, ht] using hfits t
  exact h.moved hloc hfits (by constructor <;> simp +contextual) (hloc.take hx hcur)
    (by simp only [Fits, hdata]; exact hrun) (.inr (.inr rfl)) (.inr (.inl hcur)) (.inr (.inr rfl)) (h.callback p)
    (fun n => (h.mutex n).congr rfl rfl rfl) rfl

section
variable (h : Inv mtx s) (hhand : s.hand p = none) (hmode : ∀ c, s.mode p ≠ .callback c)
  (hcur : s.cur p = some t)
variable {d : Option (Data M C)}
include h hhand hmode hcur

theorem Inv.park {x : Cb T M C} (hleaves : x.leaves = some t) (hsuits : x.Suits (s.pc t) (s.timedout t))
    (hclaim : (x.claim mtx p : Option (M × Token P T)) = none) :
    Inv mtx { s.setMode p (.callback x) with cur := update s.cur p none } := by
  obtain ⟨loc, hloc, hfits⟩ := h.fit
  have hnone := Mode.leaves_eq_none hmode
  exact h.moved hloc hfits (by constructor <;> simp +contextual)
    (hloc.park hcur hnone hleaves) (by simpa [Fits] using hsuits) (.inr (.inl hhand))
    (.inl hcur) (.inr (.inl hnone)) (by simp [CallbackOk, Mode.claim, hclaim])
    (fun n => (h.mutex n).congr rfl rfl rfl) rfl

/-- With a thread that waits on a condition variable it leaves the mutex to the callback. -/
theorem Inv.parkCv [DecidableEq M] {x : Cb T M C} {timed : Bool} (hpc : s.pc t = .leave c timed)
    (hleaves : x.leaves = some t) (hsuits : x.Suits (.left c timed : Pc T M C) (s.timedout t))
    (hclaim : x.claim mtx p = some (mtx c, (.held (.callback p) : Token P T))) :
    Inv mtx { ((s.setPc t (.left c timed)).setToken (mtx c) (.held (.callback p))).setMode p (.callback x) with
      cur := update s.cur p none } := by
  obtain ⟨loc, hloc, hfits⟩ := h.fit
  have hnone := Mode.leaves_eq_none hmode
  have hheld : s.token (mtx c) = .held (.thread t) := (h.owns t).claim _ _ (by rw [hpc]; rfl)
  have hf : Frame s { ((s.setPc t (.left c timed)).setToken (mtx c) (.held (.callback p))).setMode p (.callback x)
      with cur := update s.cur p none } p (.thread t) (· = t) (· = t) := by
    constructor
    case token => exact token_update (s := s) (.inr (by rw [hheld]; rfl))
    all_goals simp +contextual [hpc, Pc.calls]
  refine hf.inv h ?_ ?_ ?_ ?_ ?_ h.waiters
  · have hold := hloc.not_asleep (hloc.loc_eq (q := .on p) hcur) (by simp)
    refine hf.fit_callback (fun _ => id) hloc hfits
      ((hloc.park (d := .callback x) hcur hnone hleaves).still rfl rfl rfl rfl rfl rfl (fun _ => rfl)
        (fun _ => rfl) fun j c' => ?_) (by simpa [Fits] using hsuits) (.inr (.inl hhand)) (.inl hcur)
      (.inr (.inl hnone))
    by_cases hj : j = t
    · subst hj
      simpa using hold c'
    · simp [hj]
  · rintro j rfl
    exact ⟨by simp [Pc.claim], by simp [Pc.wants]⟩
  · rintro j rfl
    refine (h.waiter j).onward (by simp [hpc, Pc.waits]) (.inl (by simp [hpc, Pc.phase])) rfl
      (fun _ => rfl) (fun _ _ => .rfl) (State.called_iff hf.pc (by simp [hpc, Pc.calls]) (by simp [Pc.calls]))
  · simp +contextual [CallbackOk, Mode.claim, hclaim]
  · exact mutexOk_held h.mutex (by simp [hheld])
      ((h.mutex _).counter_ne_zero (by simp [hheld])) rfl (fun _ _ => rfl) rfl

end

section
variable (h : Inv mtx s)
include h

omit [DecidableEq P] [DecidableEq T] in
theorem Inv.suits (hcur : s.cur p = some t)
    (hmode : (s.mode p).data = some d) : ∃ e, d = some e ∧ e.Suits (s.pc t) (s.timedout t) := by
  obtain ⟨loc, hloc, hfits⟩ := h.fit
  simpa [Fits, hloc.loc_eq (q := .on p) hcur, hmode] using hfits t

theorem Inv.leave [DecidableEq M] {e : Data M C} (hcur : s.cur p = some t) (hhand : s.hand p = none)
    (hmode : (s.mode p).data = some (some e)) :
    Inv mtx { (s.leave mtx p t e).setMode p (.callback (e.callback t)) with
      cur := update s.cur p none } := by
  have hcb : ∀ c, s.mode p ≠ .callback c := by
    intro c hc
    simp [hc, Mode.data] at hmode
  have hsuits : e.Suits (s.pc t) (s.timedout t) := by simpa using h.suits hcur hmode
  cases e with
  | yield | mutex | exit => exact h.park hhand hcb hcur rfl hsuits rfl
  | cv c timed =>
    cases timed with
    | false => exact h.parkCv hhand hcb hcur hsuits.1 rfl rfl rfl
    | true => exact h.parkCv hhand hcb hcur hsuits.1 rfl ⟨rfl, hsuits.2⟩ rfl

theorem Inv.switch [DecidableEq M] {x : Option P} {rest : List T}
    (hhand : s.hand p = none) (hmode : (s.mode p).data = some d) (hx : s.runq x = u :: rest) :
    Inv mtx (State.switch { s with runq := update s.runq x rest } mtx p (some u) d) := by
  obtain ⟨loc, hloc, -⟩ := h.fit
  have hleaves : (s.mode p).leaves = none := by
    cases hm : s.mode p <;> simp_all [Mode.data, Mode.leaves]
  cases hcur : s.cur p with
  | none =>
    have htake := (h.setMode (d := .reap) hleaves (by simp) (.inl hcur)).take
      (by simp [State.setMode, Mode.data]) hcur hx
    simpa [State.switch, hcur, State.setMode] using htake
  | some t =>
    obtain ⟨e, rfl, -⟩ := h.suits hcur hmode
    have hut : u ≠ t := by
      rintro rfl
      have hq := hloc.loc_eq (q := .queued x) (t := u) (by simp [State.At, hx])
      simp [hloc.loc_eq (q := .on p) hcur] at hq
    have htake := (h.leave hcur hhand hmode).take (p := p) (x := x) (t := u) (l := rest) ?_ ?_ ?_
    · cases e <;> simpa [State.switch, hcur, hut, State.leave, State.setMode, State.setPc, State.setToken]
        using htake
    · cases e <;> simp [State.setMode, Mode.data]
    · simp
    · cases e <;> simpa [State.leave, State.setMode, State.setPc, State.setToken] using hx

theorem Inv.idle [DecidableEq M] (hhand : s.hand p = none)
    (hmode : (s.mode p).data = some d) (hcur : s.cur p = some t) : Inv mtx (s.switch mtx p none d) := by
  obtain ⟨e, rfl, -⟩ := h.suits hcur hmode
  simpa [State.switch, hcur] using h.leave hcur hhand hmode

theorem Inv.dequeue [DecidableEq M] {x : Option P} {miss : Mode T M C}
    (hhand : s.hand p = none) (hmode : (s.mode p).data = some d) (hmiss : miss.data = some d) :
    Inv mtx (s.dequeue mtx p x d miss) := by
  rw [State.dequeue]
  split
  · refine h.setMode ?_ ?_ (.inr (by rw [hmode, hmiss]))
    · cases hm : s.mode p <;> simp_all [Mode.data, Mode.leaves]
    · rintro c rfl
      cases hmiss
  · next u rest hx => exact h.switch hhand hmode hx

/-! ## Timeouts -/

omit [DecidableEq P] [DecidableEq T] in
theorem Inv.timed {x : Option P} (hx : t ∈ s.timeq x) :
    s.cpuidx t = x ∧ s.timedout t = false ∧ ∃ c, s.pc t = .asleep c true := by
  obtain ⟨loc, hloc, hfits⟩ := h.fit
  simpa [Fits, hloc.loc_eq (q := .timed x) hx] using hfits t

theorem Inv.expireOne (p : P) {x : Option P} (hx : t ∈ s.timeq x) : Inv mtx (s.expireOne x t) := by
  obtain ⟨loc, hloc, hfits⟩ := h.fit
  obtain ⟨-, -, c, hpc⟩ := h.timed hx
  have hf : Frame s (s.expireOne x t) p (.callback p) (· = t) (· = t) := by
    constructor <;> simp +contextual [State.expireOne, State.enqueue, hpc, Pc.woken, Pc.calls]
  have hpc' : (s.expireOne x t).pc t = .awake c true := by
    simp [State.expireOne, State.enqueue, hpc, Pc.woken]
  refine hf.inv h ?_ ?_ ?_ (h.callback p) (fun n => (h.mutex n).congr rfl rfl rfl) h.waiters
  · exact hf.fit_callback (fun _ => id) hloc hfits (hloc.expire hx (by simp [hpc, Pc.woken]))
      (by simp [Fits, State.Running, hpc']) (.inr (.inr rfl)) (.inr (.inr rfl)) (.inr (.inr rfl))
  · rintro j rfl
    exact ⟨by simp [hpc', Pc.claim], by simp [hpc', Pc.wants]⟩
  · rintro j rfl
    have hcalled := State.called_iff (u := j) hf.pc (by rw [hpc]; rfl) (by rw [hpc']; rfl)
    constructor
    case listed =>
      intro c' b
      have hold := (h.waiter j).listed c' b
      rw [hpc] at hold
      rw [hpc']
      exact hold
    case called =>
      intro c' b hb
      have hold := (h.waiter j).called c' b ((hcalled c' b).mp hb)
      rw [hpc] at hold
      rw [hpc']
      exact hold
    case timed =>
      simp [State.expireOne, State.enqueue]
    all_goals simp [hpc', Pc.phase, Pc.waits]

end

theorem Inv.foldl_expireOne (p : P) (x : Option P) (l : List T) : ∀ {s : State P T M C}, Inv mtx s →
    l.Nodup → (∀ t ∈ l, t ∈ s.timeq x) → Inv mtx (l.foldl (State.expireOne x) s) ∧
      (l.foldl (State.expireOne x) s).mode = s.mode ∧ (l.foldl (State.expireOne x) s).cur = s.cur ∧
      (l.foldl (State.expireOne x) s).hand = s.hand := by
  induction l with
  | nil => exact fun h _ _ => ⟨h, rfl, rfl, rfl⟩
  | cons t l ih =>
    intro s h hl hmem
    obtain ⟨ht, hl⟩ := List.nodup_cons.mp hl
    refine ih (h.expireOne p (hmem t (by simp))) hl fun u hu => ?_
    have hut : u ≠ t := fun hut => ht (hut ▸ hu)
    simpa [State.expireOne, State.enqueue, removeTimeq, List.mem_erase_of_ne hut] using
      hmem u (by simp [hu])

theorem Inv.expireQueue (h : Inv mtx s) (p : P) (x : Option P) (curtime : Int) :
    Inv mtx (s.expireQueue x curtime) ∧ (s.expireQueue x curtime).mode = s.mode ∧
      (s.expireQueue x curtime).cur = s.cur ∧ (s.expireQueue x curtime).hand = s.hand := by
  obtain ⟨loc, hloc, -⟩ := h.fit
  have hsub := List.takeWhile_sublist (fun t => decide (s.wakeup t ≤ curtime)) (l := s.timeq x)
  exact h.foldl_expireOne p x _ (hsub.nodup (hloc.timeq x)) fun t ht => hsub.subset ht

/-! ## Callbacks -/

section
variable (h : Inv mtx s) (hhand : s.hand p = none)
include h hhand

/-- `yield_callback`. -/
theorem Inv.callbackYield (hmode : s.mode p = .callback (.yield t)) :
    Inv mtx ((s.enqueue t).setMode p .reap) := by
  obtain ⟨loc, hloc, hfits, hpc⟩ := h.leaving hmode rfl
  have hleaves : (s.mode p).leaves = some t := by rw [hmode]; rfl
  exact h.moved hloc hfits (by constructor <;> simp +contextual [State.enqueue]) (hloc.requeue hleaves rfl)
    (by simp [Fits, State.Running, State.enqueue, show s.pc t = .yield from hpc]) (.inr (.inl hhand))
    (.inr (.inr (by simp [hmode, Mode.data]))) (.inl hleaves) (by simp [CallbackOk, Mode.claim])
    (fun n => (h.mutex n).congr rfl rfl rfl) rfl

/-- `exit_callback`. -/
theorem Inv.callbackZombie (hmode : s.mode p = .callback (.zombie t)) :
    Inv mtx ({ s with zombieq := s.zombieq ++ [t] }.setMode p .reap) := by
  obtain ⟨loc, hloc, hfits, hpc⟩ := h.leaving hmode rfl
  have hleaves : (s.mode p).leaves = some t := by rw [hmode]; rfl
  exact h.moved hloc hfits (by constructor <;> simp +contextual) (hloc.bury hleaves rfl) hpc
    (.inr (.inl hhand)) (.inr (.inr (by simp [hmode, Mode.data]))) (.inl hleaves)
    (by simp [CallbackOk, Mode.claim]) (fun n => (h.mutex n).congr rfl rfl rfl) rfl

/-- `cv_callback_timeout`, at `bmk_insert_timeq`. -/
theorem Inv.callbackTimeq (hmode : s.mode p = .callback (.timeq t c)) :
    Inv mtx { (s.setPc t (.asleep c true)).setMode p (.callback (.exitTimed (mtx c))) with
      timeq := update s.timeq (s.cpuidx t)
        (insertTimeq s.wakeup t (s.timeq (s.cpuidx t))) } := by
  obtain ⟨loc, hloc, hfits, hpc, htd⟩ := h.leaving hmode rfl
  have hleaves : (s.mode p).leaves = some t := by rw [hmode]; rfl
  have hf : Frame s { (s.setPc t (.asleep c true)).setMode p (.callback (.exitTimed (mtx c))) with
      timeq := update s.timeq (s.cpuidx t)
        (insertTimeq s.wakeup t (s.timeq (s.cpuidx t))) } p (.callback p) (· = t) (· = t) := by
    constructor <;> simp +contextual [hpc, Pc.calls]
  refine hf.inv h ?_ ?_ ?_ ?_ (fun n => (h.mutex n).congr rfl rfl rfl) h.waiters
  · exact hf.fit_callback (fun _ => id) hloc hfits (hloc.insertTimeq hleaves rfl) (by simp [Fits, htd])
      (.inr (.inl hhand)) (.inr (.inr (by simp [hmode, Mode.data]))) (.inl hleaves)
  · rintro j rfl
    exact ⟨by simp [Pc.claim], by simp [Pc.wants]⟩
  · rintro j rfl
    exact (h.waiter j).onward (by simp [hpc, Pc.waits]) (by simp [hpc, Pc.phase, Phase.Onward]) rfl
      (fun _ => rfl) (fun _ _ => .rfl) (State.called_iff hf.pc (by simp [hpc, Pc.calls]) (by simp [Pc.calls]))
  · have hheld := h.callback p (mtx c) (.held (.callback p)) (by rw [hmode]; rfl)
    simp [CallbackOk, Mode.claim, Cb.claim, hheld]

theorem Inv.reap {rest : List T} (hz : s.zombieq = t :: rest) :
    Inv mtx { s with zombieq := rest, hand := update s.hand p (some (.free t)) } := by
  obtain ⟨loc, hloc, hfits⟩ := h.fit
  have ht : loc t = .zombie := hloc.loc_eq (by simp [State.At, hz])
  have hpc : s.pc t = .dead := by simpa [Fits, ht] using hfits t
  exact h.moved hloc hfits (by constructor <;> simp +contextual) (hloc.grab hz hhand)
    (by simpa [Fits] using hpc) (.inr (.inl hhand)) (.inr (.inr rfl)) (.inr (.inr rfl)) (h.callback p)
    (fun n => (h.mutex n).congr rfl rfl rfl) rfl

/-! ## Mutexes in callbacks -/

variable [DecidableEq M]

/-- `cv_callback`, at the fetch-sub. -/
theorem Inv.callbackExit (hmode : s.mode p = .callback (.exit t c)) :
    Inv mtx (((s.setPc t (.asleep c false)).sub (mtx c) (.callback p)).setMode p
      (if s.counter (mtx c) = 1 then .reap else .callback (.exitWake (mtx c)))) := by
  obtain ⟨loc, hloc, hfits, hpc⟩ := h.leaving hmode rfl
  have hleaves : (s.mode p).leaves = some t := by rw [hmode]; rfl
  have hpc : s.pc t = .left c false := hpc
  have hheld : s.token (mtx c) = .held (.callback p) := h.callback p _ _ (by rw [hmode]; rfl)
  have hf : Frame s (((s.setPc t (.asleep c false)).sub (mtx c) (.callback p)).setMode p
      (if s.counter (mtx c) = 1 then .reap else .callback (.exitWake (mtx c)))) p (.callback p)
      (· = t) (· = t) := by
    constructor
    case token => exact token_update (s := s) (.inr (by rw [hheld]; rfl))
    all_goals simp +contextual [State.sub, hpc, Pc.calls]
  have hmutex : ∀ n, MutexOk (s.setPc t (.asleep c false)) n := fun n => (h.mutex n).congr rfl rfl rfl
  refine hf.inv h ?_ ?_ ?_ ?_ (fun n => (mutexOk_sub hmutex hheld n).congr rfl rfl rfl) h.waiters
  · refine hf.fit_callback (fun _ => id) hloc hfits
      ((hloc.sleep hleaves ?_).still rfl rfl rfl rfl rfl rfl (fun _ => rfl) (fun _ => rfl) (fun _ _ => .rfl))
      (by simp [Fits, State.sub]) (.inr (.inl hhand)) (.inr (.inr ?_)) (.inl hleaves)
    · split <;> rfl
    · split <;> simp [State.sub, hmode, Mode.data]
  · rintro j rfl
    exact ⟨by simp [State.sub, Pc.claim], by simp [State.sub, Pc.wants]⟩
  · rintro j rfl
    exact (h.waiter j).onward (by simp [State.sub, hpc, Pc.waits])
      (by simp [State.sub, hpc, Pc.phase, Phase.Onward]) rfl (fun _ => rfl) (fun _ _ => .rfl)
      (State.called_iff hf.pc (by simp [hpc, Pc.calls]) (by simp [State.sub, Pc.calls]))
  · by_cases h1 : s.counter (mtx c) = 1
    · simp [CallbackOk, h1, Mode.claim]
    · simp [CallbackOk, h1, Mode.claim, Cb.claim, State.sub]

omit [DecidableEq T] in
/-- `cv_callback_timeout`, at the fetch-sub. -/
theorem Inv.callbackExitTimed (hmode : s.mode p = .callback (.exitTimed m)) :
    Inv mtx ((s.sub m (.callback p)).setMode p
      (if s.counter m = 1 then .reap else .callback (.exitWake m))) := by
  obtain ⟨loc, hloc, hfits⟩ := h.fit
  have hheld : s.token m = .held (.callback p) := h.callback p _ _ (by rw [hmode]; rfl)
  have hf : Frame s ((s.sub m (.callback p)).setMode p
      (if s.counter m = 1 then .reap else .callback (.exitWake m))) p (.callback p)
      (fun _ => False) (fun _ => False) := by
    constructor
    case token => exact token_update (.inr (by rw [hheld]; rfl))
    all_goals simp +contextual [State.sub]
  have hleaves : ∀ r, (((s.sub m (.callback p)).setMode p
      (if s.counter m = 1 then .reap else .callback (.exitWake m))).mode r).leaves = (s.mode r).leaves := by
    intro r
    by_cases hr : r = p
    · subst hr
      split <;> simp [hmode, Mode.leaves, Cb.leaves]
    · simp [State.sub, hr]
  refine hf.inv h ?_ (fun _ => False.elim) (fun _ => False.elim) ?_
    (fun n => (mutexOk_sub h.mutex hheld n).congr rfl rfl rfl) h.waiters
  · refine hf.fit hloc hfits
      (hloc.still rfl rfl rfl rfl rfl rfl (fun _ => rfl) hleaves (fun _ _ => .rfl))
      (fun _ => False) (fun j hj => ⟨id, rfl⟩) (fun _ => False.elim) (fun _ _ _ => rfl) (fun _ _ _ => ?_) ?_
    · split <;> simp [hmode, Mode.data]
    · simp [hmode, Mode.leaves, Cb.leaves]
  · by_cases h1 : s.counter m = 1
    · simp [CallbackOk, h1, Mode.claim]
    · simp [CallbackOk, h1, Mode.claim, Cb.claim, State.sub]

section
variable (hmode : s.mode p = .callback (.queue t m))
include hmode

/-- `block_queue_callback` that puts the thread on the queue. -/
theorem Inv.callbackBlock {b : BlockQueue T}
    (hb : b.waiters = (s.queue m).waiters ++ [t]) (hp : b.pending = (s.queue m).pending) :
    Inv mtx ({ s with queue := update s.queue m b }.setMode p .reap) := by
  obtain ⟨loc, hloc, hfits, hpc⟩ := h.leaving hmode rfl
  have hleaves : (s.mode p).leaves = some t := by rw [hmode]; rfl
  refine h.moved hloc hfits (by constructor <;> simp +contextual) (hloc.block hleaves rfl hb) hpc
    (.inr (.inl hhand)) (.inr (.inr (by simp [hmode, Mode.data]))) (.inl hleaves)
    (by simp [CallbackOk, Mode.claim]) (fun n => ?_) rfl
  by_cases hn : n = m
  · subst hn
    exact ⟨(h.mutex n).counter, by simpa [hp] using (h.mutex n).banked⟩
  · exact (h.mutex n).congr rfl (by simp [hn]) rfl

/-- `block_queue_callback` that finds a wake. -/
theorem Inv.callbackReady {b : BlockQueue T}
    (hb : b.waiters = (s.queue m).waiters) (hp : b.pending + 1 = (s.queue m).pending) :
    Inv mtx { (State.setMode { s with queue := update s.queue m b } p .reap).setToken m (.ready t)
      with hand := update s.hand p (some (.run t)) } := by
  obtain ⟨loc, hloc, hfits, k, hpc⟩ := h.leaving hmode rfl
  have hleaves : (s.mode p).leaves = some t := by rw [hmode]; rfl
  obtain ⟨h1, hbanked⟩ : (s.queue m).pending = 1 ∧ s.token m = .banked :=
    (h.mutex m).banked.resolve_right fun h0 => by omega
  refine h.moved hloc hfits ?_ ((hloc.grasp hleaves rfl hhand).still rfl rfl rfl rfl rfl rfl
      (waiters_update hb) (fun _ => rfl) (fun _ _ => .rfl)) (by simp [Fits, State.Running, hpc])
    (.inr (.inl hhand)) (.inr (.inr (by simp [hmode, Mode.data]))) (.inl hleaves)
    (by simp [CallbackOk, Mode.claim]) (fun n => ?_) rfl
  · constructor
    case token => exact token_update (s := s) (.inl (by rw [hbanked]; rfl))
    all_goals simp +contextual
  · by_cases hn : n = m
    · subst hn
      have h0 : s.counter n ≠ 0 := (h.mutex n).counter_ne_zero (by simp [hbanked])
      exact ⟨by simp [h0], .inr ⟨by simp; omega, by simp⟩⟩
    · exact (h.mutex n).congr rfl (by simp [hn]) (by simp [hn])

theorem Inv.callbackQueue : Inv mtx (Sched.callback mtx s p (.queue t m)) := by
  rcases (s.queue m).block_cases t with ⟨h0, hb, hw, hp⟩ | ⟨h0, hb, hw, hw', hp⟩
  · simpa [Sched.callback, hb] using h.callbackBlock hhand hmode hw (by rw [hp, h0])
  · simpa [Sched.callback, hb] using h.callbackReady hhand hmode (by rw [hw', hw]) hp

end

end

/-! ## `bmk_block_queue_wake` -/

section
variable [DecidableEq M]

omit [DecidableEq T] in
theorem State.wakeQueue_cases (s : State P T M C) (p : P) (m : M) :
    (∃ b : BlockQueue T, b.waiters = (s.queue m).waiters ∧ b.pending = (s.queue m).pending + 1 ∧
      s.wakeQueue p m = State.setToken { s with queue := update s.queue m b } m .banked) ∨
    (∃ (u : T) (b : BlockQueue T), (s.queue m).waiters = u :: b.waiters ∧ b.pending = 0 ∧
      s.wakeQueue p m = { State.setToken { s with queue := update s.queue m b } m (.ready u) with
        hand := update s.hand p (some (.run u)) }) := by
  rcases (s.queue m).wake_cases with ⟨hw, hu, hw', hp⟩ | ⟨u, us, hw, hu, hw', hp, -⟩
  · exact .inl ⟨(s.queue m).wake.1, by rw [hw', hw], hp, by simp only [State.wakeQueue, hu]⟩
  · exact .inr ⟨u, (s.queue m).wake.1, by rw [hw', hw], hp, by simp only [State.wakeQueue, hu]⟩

omit [DecidableEq P] [DecidableEq T] [DecidableEq M] in
theorem waker_running (ha : a = .callback p ∨ ∃ t, a = .thread t ∧ s.cur p = some t ∧ s.pc t = .run)
    (j : T) (hj : a = .thread j) : s.cur p = some j ∧ s.pc j = .run := by
  subst hj
  rcases ha with ha | ⟨t, ht, hj⟩
  · cases ha
  · cases ht
    exact hj

section
variable (h : Inv mtx s) (hhand : s.hand p = none) (hmode : s.mode p = .user ∨ s.mode p = .reap)
  (hm : s.token m = .owes a)
  (ha : a = .callback p ∨ ∃ t, a = .thread t ∧ s.cur p = some t ∧ s.pc t = .run)
variable {b : BlockQueue T}
include h hhand hmode hm ha

omit [DecidableEq P] [DecidableEq T] hhand in
/-- What the wake does to the mutex; the slots are still to be looked at. -/
theorem Inv.woke {x : Token P T} {g : P → Option (Hand T)} (hother : ∀ r, r ≠ p → g r = s.hand r)
    (hx : b.pending = 1 ∧ x = .banked ∨ b.pending = 0 ∧ x ≠ .banked ∧ x ≠ .free)
    (hfit : ∀ s', s' = { State.setToken { s with queue := update s.queue m b } m x with hand := g } →
      Frame s s' p a (fun j => a = .thread j) (fun j => a = .thread j) →
      ∃ loc, Located s' loc ∧ ∀ t, Fits s' t (loc t)) :
    Inv mtx { State.setToken { s with queue := update s.queue m b } m x with hand := g } := by
  have hA := waker_running ha
  have hf : Frame s { State.setToken { s with queue := update s.queue m b } m x with hand := g }
      p a (fun j => a = .thread j) (fun j => a = .thread j) := by
    constructor
    case agent => exact ha.imp_right fun ⟨t, ht, _⟩ => ⟨t, ht, ht⟩
    case token => exact token_update (.inr (by rw [hm]; rfl))
    case calls =>
      intro v hv c' j timed hc
      simp [(hA v hv).2, Pc.calls] at hc
    case hand => exact hother
    all_goals simp
  refine hf.inv h (hfit _ rfl hf) (fun j hj => ?_) (fun j _ => ?_) ?_ (fun n => ?_) h.waiters
  · exact ⟨by simp [(hA j hj).2, Pc.claim], by simp [(hA j hj).2, Pc.wants]⟩
  · exact (h.waiter j).onward rfl (.inl rfl) rfl (fun _ => rfl) (fun _ _ => .rfl) (fun _ _ => .rfl)
  · rcases hmode with hmode | hmode <;> simp [CallbackOk, hmode, Mode.claim]
  · by_cases hn : n = m
    · subst hn
      have h0 : s.counter n ≠ 0 := (h.mutex n).counter_ne_zero (by simp [hm])
      rcases hx with ⟨hp, rfl⟩ | ⟨hp, hbanked, hfree⟩
      · exact ⟨by simp [h0], .inl (by simp [hp])⟩
      · exact ⟨by simp [h0, hfree], .inr (by simp [hp, hbanked])⟩
    · exact (h.mutex n).congr rfl (by simp [hn]) (by simp [hn])

omit [DecidableEq P] [DecidableEq T] hhand in
theorem Inv.wakeBanked (hw : b.waiters = (s.queue m).waiters)
    (hp : b.pending = (s.queue m).pending + 1) :
    Inv mtx (State.setToken { s with queue := update s.queue m b } m .banked) := by
  obtain ⟨loc, hloc, hfits⟩ := h.fit
  have hp0 := (h.mutex m).pending_eq_zero (by simp [hm])
  refine h.woke hmode hm ha (fun _ _ => rfl) (.inl ⟨by rw [hp, hp0], rfl⟩) ?_
  rintro s' rfl hf
  refine hf.fit hloc hfits
    (hloc.still rfl rfl rfl rfl rfl rfl (waiters_update hw) (fun _ => rfl) (fun _ _ => .rfl))
    (fun j => a = .thread j) (fun j hj => ⟨hj, rfl⟩) (fun j hj => ?_) (fun _ _ _ => rfl) (fun _ _ _ => rfl)
    (fun _ _ _ => rfl)
  obtain ⟨hcur, hpc⟩ := waker_running ha j hj
  rw [hloc.loc_eq (q := .on p) hcur]
  rcases hmode with hmode | hmode <;> simp [Fits, hmode, Mode.data, State.Running, hpc]

theorem Inv.wakeReady (hw : (s.queue m).waiters = u :: b.waiters) (hp : b.pending = 0) :
    Inv mtx { State.setToken { s with queue := update s.queue m b } m (.ready u) with
      hand := update s.hand p (some (.run u)) } := by
  obtain ⟨loc, hloc, hfits⟩ := h.fit
  have hu : loc u = .blocked m := hloc.loc_eq (by simp [State.At, hw])
  obtain ⟨k, hpc⟩ : ∃ k, s.pc u = .blocked m k := by simpa [Fits, hu] using hfits u
  refine h.woke hmode hm ha (fun r hr => update_of_ne hr _ _) (.inr ⟨hp, by simp, by simp⟩) ?_
  rintro s' rfl hf
  refine hf.fit hloc hfits
    ((hloc.release hw hhand).still rfl rfl rfl rfl rfl rfl (fun _ => rfl) (fun _ => rfl) (fun _ _ => .rfl))
    (fun j => a = .thread j ∨ j = u) (fun j hj => ⟨(not_or.mp hj).1, by simp [(not_or.mp hj).2]⟩)
    ?_ (by simp [hhand]) (fun _ _ _ => rfl) (fun _ _ _ => rfl)
  rintro j (hj | rfl)
  · obtain ⟨hcur, hpcj⟩ := waker_running ha j hj
    have hju : j ≠ u := by
      rintro rfl
      simp [hpcj] at hpc
    rw [update_of_ne hju, hloc.loc_eq (q := .on p) hcur]
    rcases hmode with hmode | hmode <;> simp [Fits, hmode, Mode.data, State.Running, hpcj]
  · rw [update_self]
    simp [Fits, State.Running, hpc]

theorem Inv.wakeQueue : Inv mtx (s.wakeQueue p m) := by
  rcases s.wakeQueue_cases p m with ⟨b, hw, hp, hs⟩ | ⟨u, b, hw, hp, hs⟩
  · rw [hs]
    exact h.wakeBanked hmode hm ha hw hp
  · rw [hs]
    exact h.wakeReady hhand hmode hm ha hw hp

end

theorem Inv.callbackExitWake (h : Inv mtx s) (hhand : s.hand p = none)
    (hmode : s.mode p = .callback (.exitWake m)) : Inv mtx ((s.wakeQueue p m).setMode p .reap) := by
  have hm : s.token m = .owes (.callback p) := h.callback p _ _ (by rw [hmode]; rfl)
  have hreap : Inv mtx (s.setMode p .reap) :=
    h.setMode (by simp [hmode, Mode.leaves, Cb.leaves]) (by simp) (.inr (by simp [hmode, Mode.data]))
  have hcomm : (s.wakeQueue p m).setMode p .reap = (s.setMode p .reap).wakeQueue p m := by
    cases hw : (s.queue m).wake.2 <;> simp [State.wakeQueue, hw]
  rw [hcomm]
  exact hreap.wakeQueue hhand (.inr (by simp)) hm (.inl rfl)

theorem Inv.exitWake (h : Inv mtx s) (hcur : s.cur p = some t) (hhand : s.hand p = none)
    (hmode : s.mode p = .user) (hpc : s.pc t = .exitWake m) :
    Inv mtx ((s.wakeQueue p m).setPc t .run) := by
  have hm : s.token m = .owes (.thread t) := (h.owns t).claim _ _ (by rw [hpc]; rfl)
  have hrun : Inv mtx (s.setPc t .run) :=
    h.goto hcur hhand hmode (by rw [hpc]; exact ⟨rfl, rfl, rfl⟩) ⟨rfl, rfl, rfl⟩ (by simp [State.Running])
      (by simp [Pc.claim]) (by simp [Pc.wants])
  have hcomm : (s.wakeQueue p m).setPc t .run = (s.setPc t .run).wakeQueue p m := by
    cases hw : (s.queue m).wake.2 <;> simp [State.wakeQueue, hw]
  rw [hcomm]
  exact hrun.wakeQueue hhand (.inl hmode) hm (.inr ⟨t, rfl, hcur, by simp⟩)

end

/-! ## `bmk_sched_create` -/

theorem Inv.create {rest : List T} (h : Inv mtx s) (hhand : s.hand p = none)
    (hfree : s.freeq = u :: rest) (x : Option P) :
    Inv mtx ({ s with freeq := rest }.create p u x) := by
  obtain ⟨loc, hloc, hfits⟩ := h.fit
  have hu : loc u = .free := hloc.loc_eq (by simp [State.At, hfree])
  have hpc : s.pc u = .dead := by simpa [Fits, hu] using hfits u
  have hf : Frame s ({ s with freeq := rest }.create p u x) p (.callback p) (· = u) (· = u) := by
    constructor <;> simp +contextual [State.create, hpc, Pc.calls]
  refine hf.inv h ?_ ?_ ?_ (h.callback p) (fun n => (h.mutex n).congr rfl rfl rfl) h.waiters
  · exact hf.fit_callback (fun _ => id) hloc hfits (hloc.create hfree hhand x)
      (by simp [Fits, State.create, State.Running]) (.inr (.inl hhand)) (.inr (.inr rfl)) (.inr (.inr rfl))
  · rintro j rfl
    exact ⟨by simp [State.create, Pc.claim], by simp [State.create, Pc.wants]⟩
  · rintro j rfl
    exact (h.waiter j).onward (by simp [State.create, hpc, Pc.waits])
      (.inl (by simp [State.create, hpc, Pc.phase])) rfl (by simp [State.create, Pc.phase]) (fun _ _ => .rfl)
      (State.called_iff hf.pc (by simp [hpc, Pc.calls]) (by simp [State.create, Pc.calls]))

end

end Librettos.Sched
