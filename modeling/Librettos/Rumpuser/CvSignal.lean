/-
# `Rumpuser.CvSignal` — which signals wake whom

The invariant of `Rumpuser.CvInv` holds in every run in which no signal takes a waiter
whose timeout has expired (`unexpired`).  Then a signal that finds a waiter makes one wait
call return 0, and a call that times out takes no signal (`signals_delivered`).  Without
the condition a signal can be lost: `signal_swallowed`.
-/
import Librettos.Rumpuser.CvStep

namespace Librettos.Cv

open Function State Trans

section
variable {T : Type} [DecidableEq T] {s s' : State T} {t : T}
variable {spin : Bool}

attribute [local simp] State.setPc Pc.holds Pc.queued Pc.plain Pc.waits Pc.early Pc.back

/-! ## One step -/

structure Inv (s : State T) : Prop where
  lock : Lock s
  waits : Waits s
  ledger : Ledger s

omit [DecidableEq T] in
theorem Inv.quiet (h : Inv s) (hq : Quiet s s' t) (hlock : Lock s') : Inv s' :=
  ⟨hlock, hq.inWaits h.waits, hq.inLedger h.ledger⟩

theorem Inv.release (hfree : Free s) (hwaits : Waits s) (hledger : Ledger s) : Inv s.release :=
  ⟨hfree.lock, hfree.waits hwaits, hfree.ledger hledger⟩

theorem Inv.call {c : Pc T} (h : Inv s)
    (hc : s.pc t = .out ∧ c = .enter ∨ s.pc t = .held ∧ ((∃ b, c = .insert b) ∨ ∃ b, c = .signal b)) :
    Inv (s.setPc t c) := by
  have hothers : ∀ j, j ≠ t → (s.setPc t c).pc j = s.pc j := fun j hj => by simp [hj]
  rcases hc with ⟨hpc, rfl⟩ | ⟨hpc, ⟨b, rfl⟩ | ⟨b, rfl⟩⟩ <;>
    refine h.quiet (t := t) ?_ (h.lock.move hothers rfl rfl ?_ ?_ ?_) <;>
    first
      | (constructor <;> simp +contextual [hpc])
      | simp [hpc]

theorem Inv.exit (h : Inv s) (hpc : s.pc t = .held) : Inv (s.setPc t .out).release := by
  have hq : Quiet s (s.setPc t .out) t := by
    constructor <;> simp +contextual [hpc]
  have hfree : Free (s.setPc t .out) :=
    h.lock.free (.inl ((h.lock.holds t).mp (by simp [hpc]))) hq.pc rfl (by simp)
      (by simp) (by simp [hpc])
  exact .release hfree (hq.inWaits h.waits) (hq.inLedger h.ledger)

/-- The points of an attempt at the mutex: before, with it, and on the way to its queue. -/
inductive Attempt : Pc T → Pc T → Pc T → Prop
  | enter : Attempt .enter .held .enterSlow
  | enterSlow : Attempt .enterSlow .held .enterQueued
  | relock (timed : Bool) : Attempt (.relock timed) (.relocked timed) (.relockSlow timed)
  | relockSlow (timed : Bool) : Attempt (.relockSlow timed) (.relocked timed) (.relockQueued timed)

section
variable (h : Inv s)
include h

theorem Inv.acquire {got slow : Pc T} (ha : Attempt (s.pc t) got slow)
    (hfree : s.holder = none) (f : T → Bool) (hf : ∀ j, j ≠ t → f j = s.timedout j) :
    Inv ({ s with timedout := f }.acquire t got) := by
  generalize hpc : s.pc t = c at ha
  have hothers : ∀ j, j ≠ t → (State.acquire { s with timedout := f } t got).pc j = s.pc j :=
    fun j hj => by simp [State.acquire, hj]
  cases ha <;>
    refine h.quiet (t := t) ?_ (h.lock.pass hothers rfl (.inl hfree) rfl ?_ (.inl ⟨rfl, ?_, ?_⟩)) <;>
    first
      | (constructor <;> simp +contextual [State.acquire, hpc, hf, State.value])
      | simp [State.acquire, hpc]

theorem Inv.attempt {got slow : Pc T} (spin : Bool) (ha : Attempt (s.pc t) got slow)
    (hslow : slow.queued = false) : Inv (s.attempt spin t got slow) := by
  unfold State.attempt
  split
  next hfree => exact h.acquire ha hfree s.timedout fun _ _ => rfl
  next =>
    split
    · exact h
    · generalize hpc : s.pc t = c at ha
      have hothers : ∀ j, j ≠ t → (s.setPc t slow).pc j = s.pc j := fun j hj => by simp [hj]
      cases ha <;> simp at hslow <;>
        refine h.quiet (t := t) ?_ (h.lock.move hothers rfl rfl ?_ ?_ ?_) <;>
        first
          | (constructor <;> simp +contextual [hpc, value])
          | simp [hpc]

theorem Inv.blockOn {got wait : Pc T} (ha : Attempt (s.pc t) got wait)
    (hwait : wait.queued = true) : Inv (s.blockOn t got wait) := by
  unfold State.blockOn
  simp only
  split
  next hfree => exact h.acquire ha hfree _ fun j hj => by simp [hj]
  next =>
    generalize hpc : s.pc t = c at ha
    cases ha <;> simp at hwait <;>
      refine h.quiet (t := t) ?_ (h.lock.enqueue (fun j hj => by simp [hj]) rfl rfl ?_ ?_ ?_ ?_) <;>
      first
        | (constructor <;> simp +contextual [hpc, value])
        | simp [hpc]

/-- `bmk_sched_block` in a wait call: the callback now holds the mutex. -/
theorem Inv.block {b : Bool} (hpc : s.pc t = .block b) :
    Inv { s.setPc t (.leaving b) with
      timedout := update s.timedout t false
      holder := some (.callback t) } := by
  refine h.quiet (t := t) ?_ (h.lock.pass (fun j hj => by simp [hj]) rfl
    (.inr ((h.lock.holds t).mp ?_)) rfl ?_ (.inr ⟨rfl, ?_⟩))
  · constructor <;> simp +contextual [hpc]
  · simp [hpc]
  · simp [hpc]
  · simp

theorem Inv.ready {b : Bool} (hpc : s.pc t = .ready b) :
    Inv { s.setPc t (.relock b) with result := update s.result t (s.timedout t) } := by
  refine h.quiet (t := t) ?_ (h.lock.move (t := t) (fun j hj => by simp [hj]) rfl rfl ?_ ?_ ?_)
  · constructor <;> simp +contextual [hpc, value]
  all_goals simp [hpc]

theorem Inv.insert {b : Bool} (hpc : s.pc t = .insert b) :
    Inv { s.setPc t (.block b) with
      waiters := s.waiters ++ [(t, b)]
      wthread := update s.wthread t true
      call := update s.call t s.calls
      calls := s.calls + 1 } := by
  refine ⟨h.lock.move (t := t) (fun j hj => by simp [hj]) rfl rfl ?_ ?_ ?_, h.waits.insert hpc,
    h.ledger.insert hpc⟩
  all_goals simp [hpc]

theorem Inv.ret {b : Bool} (hpc : s.pc t = .relocked b) :
    Inv { s.setPc t .held with
      waiters := if b && s.wthread t then s.waiters.erase (t, b) else s.waiters
      zero := if b && s.result t then s.zero else s.zero ++ [s.call t]
      late := if b && s.result t then s.late ++ [s.call t] else s.late } := by
  refine ⟨h.lock.move (t := t) (fun j hj => by simp [hj]) rfl rfl ?_ ?_ ?_, h.waits.ret h.lock hpc,
    h.ledger.ret h.waits h.lock hpc⟩
  all_goals simp [hpc]

theorem Inv.take {u : T} {b all : Bool} {rest : List (T × Bool)}
    (hpc : s.pc t = .signal all) (hw : s.waiters = (u, b) :: rest) :
    Inv { s.setPc t (.wake u b all) with
      waiters := rest
      wthread := update s.wthread u false
      took := s.took ++ [s.call u] } := by
  have hlock : Lock (s.setPc t (.wake u b all)) := by
    refine h.lock.move (t := t) (fun j hj => by simp [hj]) rfl rfl ?_ ?_ ?_ <;> simp [hpc]
  exact ⟨{ hlock with }, h.waits.take h.lock hpc hw hlock, h.ledger.take h.waits h.lock hpc hw⟩

theorem Inv.claim {u : T} {all : Bool} (hpc : s.pc t = .wake u true all)
    (hu : s.pc u = .asleep true) :
    Inv { s.setPc t (.put u all) with timeq := s.timeq.erase u } := by
  have hlock : Lock (s.setPc t (.put u all)) := by
    refine h.lock.move (t := t) (fun j hj => by simp [hj]) rfl rfl ?_ ?_ ?_ <;> simp [hpc]
  exact ⟨{ hlock with }, h.waits.claim h.lock hpc hu hlock,
    h.ledger.move (t := t) (fun j hj => by simp [hj]) (by simp [hpc]) ⟨rfl, rfl, rfl⟩ ⟨rfl, rfl, rfl⟩⟩

theorem Inv.rouse {u : T} {b all : Bool}
    (hpc : s.pc t = .wake u false all ∨ s.pc t = .put u all) (hu : s.pc u = .asleep b)
    (hflag : s.wthread u = false) (hq : u ∉ s.timeq) : Inv ((s.wake u).next t all) := by
  have hut : u ≠ t := by
    rintro rfl
    rcases hpc with hpc | hpc <;> simp [hpc] at hu
  have hpcu : ∀ j, j ≠ u → (s.wake u).pc j = s.pc j := fun j hj => by simp [wake, hj]
  have hpct : ∀ j, j ≠ t → ((s.wake u).next t all).pc j = (s.wake u).pc j := fun j hj => by
    simp [next, hj]
  have hwake : Lock (s.wake u) := by
    refine h.lock.move hpcu rfl rfl ?_ ?_ ?_ <;> simp [wake, hu, Pc.woken]
  have hlock : Lock ((s.wake u).next t all) := by
    refine hwake.move hpct rfl rfl ?_ ?_ ?_ <;> simp only [hpcu t (Ne.symm hut)] <;>
      rcases hpc with hpc | hpc <;> cases all <;> simp [next, hpc]
  have hledger : Ledger (s.wake u) :=
    h.ledger.move hpcu (by simp [wake, hu, Pc.woken]) ⟨rfl, rfl, rfl⟩ ⟨rfl, rfl, rfl⟩
  refine ⟨hlock, h.waits.rouse h.lock hpc hu hflag hq hlock,
    hledger.move hpct ?_ ⟨rfl, rfl, rfl⟩ ⟨rfl, rfl, rfl⟩⟩
  rw [hpcu t (Ne.symm hut)]
  rcases hpc with hpc | hpc <;> cases all <;> simp [next, hpc]

theorem Inv.callback (hholder : s.holder = some (.callback t)) : Inv (callback s t) := by
  have hfree : ∀ {c : Pc T}, c.holds = false → (∀ b, c ≠ .leaving b) → c.queued = (s.pc t).queued →
      Free (s.setPc t c) := fun hc hl hq =>
    h.lock.free (.inr hholder) (fun j hj => by simp [hj]) rfl (by simpa using hc) (by simpa using hl)
      (by simpa using hq)
  unfold Cv.callback
  split
  next hpc =>
    refine ⟨h.lock.move (t := t) (fun j hj => by simp [hj]) rfl rfl ?_ ?_ ?_, h.waits.sleep hpc,
      h.ledger.move (t := t) (fun j hj => by simp [hj]) ?_ ⟨rfl, rfl, rfl⟩ ⟨rfl, rfl, rfl⟩⟩
    all_goals simp [hpc]
  next hpc =>
    refine .release (hfree (by simp) (by simp) (by simp [hpc])) (h.waits.sleep hpc)
      (h.ledger.move (t := t) (fun j hj => by simp [hj]) ?_ ⟨rfl, rfl, rfl⟩ ⟨rfl, rfl, rfl⟩)
    simp [hpc]
  next hnt hnf =>
    have hself : s.setPc t (s.pc t) = s := by simp
    have hnl : ∀ b, s.pc t ≠ .leaving b := by
      intro b hb
      cases b with
      | true => exact hnt hb
      | false => exact hnf hb
    have hnh : (s.pc t).holds = false := h.lock.not_holds (by simp [hholder])
    exact .release (hself ▸ hfree hnh hnl rfl) h.waits h.ledger

theorem Inv.expire (hq : t ∈ s.timeq) :
    Inv ({ s with
      timeq := s.timeq.erase t
      timedout := update s.timedout t true }.wake t) := by
  have hpc := ((h.waits.each t).timeq hq).1
  refine ⟨h.lock.move (t := t) (fun j hj => by simp [wake, hj]) rfl rfl ?_ ?_ ?_,
    h.waits.expire hq, h.ledger.move (t := t) (fun j hj => by simp [wake, hj]) ?_ ⟨rfl, rfl, rfl⟩
      ⟨rfl, rfl, rfl⟩⟩
  all_goals simp [wake, hpc, Pc.woken]

end

/-! ## Runs -/

/-- When the wake of a signal looks at a timed waiter, its timeout has not expired. -/
def unexpired (s : State T) (a : Act T) : Prop :=
  (match a with
  | .go t =>
    match s.pc t with
    | .wake u true _ => decide (s.pc u = .asleep true)
    | _ => true
  | _ => true) = true

instance (s : State T) (a : Act T) : Decidable (unexpired s a) := inferInstanceAs (Decidable (_ = true))

omit [DecidableEq T] in
theorem Init.inv (h : Init s) : Inv s := by
  refine ⟨⟨?_, ?_, ?_, ?_⟩, ⟨fun t => ?_, ?_, ?_⟩, ?_⟩
  · simp [h.pc, h.holder]
  · simp [h.pc]
  · simp [h.pc, h.queue]
  · simp [h.queue]
  · constructor <;> simp [h.pc, h.waiters, h.timeq, State.Called, State.Put]
  · simp [h.waiters]
  · simp [h.timeq]
  · constructor <;> simp [h.pc, h.took, h.zero, h.late]

theorem go_inv (h : Inv s) (hok : unexpired s (.go t)) (hst : go spin s t = some s') : Inv s' := by
  unfold go at hst
  split at hst
  next hpc =>
    cases hst
    exact h.attempt spin (hpc ▸ .enter) rfl
  next hpc =>
    cases hst
    exact h.blockOn (hpc ▸ .enterSlow) rfl
  next b hpc =>
    cases hst
    exact h.insert hpc
  next b hpc =>
    cases hst
    exact h.block hpc
  next b hpc =>
    cases hst
    exact h.ready hpc
  next b hpc =>
    cases hst
    exact h.attempt spin (hpc ▸ .relock b) rfl
  next b hpc =>
    cases hst
    exact h.blockOn (hpc ▸ .relockSlow b) rfl
  next b hpc =>
    cases hst
    exact h.ret hpc
  next all hpc =>
    split at hst
    next =>
      cases hst
      refine h.quiet (t := t) ?_ (h.lock.move (t := t) (fun j hj => by simp [hj]) rfl rfl ?_ ?_ ?_)
      · constructor <;> simp +contextual [hpc]
      all_goals simp [hpc]
    next u b rest hw =>
      cases hst
      exact h.take hpc hw
  next u b all hpc =>
    cases b with
    | true =>
      have hu : s.pc u = .asleep true := by simpa [unexpired, hpc] using hok
      have htd := ((h.waits.each u).asleep true hu).1
      simp only [htd, if_true, Bool.false_eq_true, if_false] at hst
      cases hst
      exact h.claim hpc hu
    | false =>
      obtain ⟨-, hflag, hu⟩ := (h.waits.each u).called false ⟨t, all, hpc⟩
      cases hst
      refine h.rouse (.inl hpc) (hu rfl) hflag fun hq => ?_
      simp [((h.waits.each u).timeq hq).1] at hu
  next u all hpc =>
    obtain ⟨hflag, b, hu⟩ := (h.waits.each u).put ⟨t, all, hpc⟩
    cases hst
    exact h.rouse (.inr hpc) hu hflag fun hq => ((h.waits.each u).timeq hq).2 ⟨t, all, hpc⟩
  all_goals simp at hst

theorem step_inv (h : Inv s) (a : Act T) (hok : unexpired s a)
    (hst : step spin s a = some s') : Inv s' := by
  cases a with
  | enter t =>
    obtain ⟨hpc, ⟨⟩⟩ := Option.ite_none_right_eq_some.mp hst
    exact h.call (.inl ⟨hpc, rfl⟩)
  | exit t =>
    obtain ⟨hpc, ⟨⟩⟩ := Option.ite_none_right_eq_some.mp hst
    exact h.exit hpc
  | wait t b =>
    obtain ⟨hpc, ⟨⟩⟩ := Option.ite_none_right_eq_some.mp hst
    exact h.call (.inr ⟨hpc, .inl ⟨b, rfl⟩⟩)
  | signal t b =>
    obtain ⟨hpc, ⟨⟩⟩ := Option.ite_none_right_eq_some.mp hst
    exact h.call (.inr ⟨hpc, .inr ⟨b, rfl⟩⟩)
  | go t => exact go_inv h hok hst
  | callback t =>
    obtain ⟨hholder, ⟨⟩⟩ := Option.ite_none_right_eq_some.mp hst
    exact h.callback hholder
  | expire t =>
    obtain ⟨hq, ⟨⟩⟩ := Option.ite_none_right_eq_some.mp hst
    exact h.expire hq

theorem inv_reach (h : Reach (step spin) unexpired Init s) : Inv s :=
  Reach.inv (fun _ => Init.inv) (fun _ a _ hi hok hst => step_inv hi a hok hst) h

end

/-- Nobody has called yet. -/
def boot (n : ℕ) : State (Fin n) where
  holder := none
  queue := []
  waiters := []
  timeq := []
  timedout _ := false
  result _ := false
  wthread _ := false
  pc _ := .out
  call _ := 0
  calls := 0
  took := []
  zero := []
  late := []

theorem boot_init (n : ℕ) : Init (boot n) := ⟨rfl, rfl, rfl, rfl, fun _ => rfl, rfl, rfl, rfl⟩

/-- Thread `t` waits: it enters the mutex, is put on the list and sleeps. -/
def sleepRun {T : Type} (t : T) (timed : Bool) : List (Act T) :=
  [.enter t, .go t, .wait t timed, .go t, .go t, .callback t] ++ if timed then [.callback t] else []

end Librettos.Cv
