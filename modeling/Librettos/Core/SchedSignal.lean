/-
# `Core.SchedSignal` — waiters and signallers

The steps that change the list of a condition variable, and the wake of a waiter.  All of
them are taken with the mutex of the condition variable, so there is one signaller at a
time, and the waiter it has taken from the list is not in a step of its own wait call that
needs the mutex.  For an untimed waiter this means that it is asleep.  A timed one is on its
timer queue, or has timed out, or (`wakeTimeq`) has come as far as the block queue of the
mutex.
-/
import Librettos.Core.SchedThread

namespace Librettos.Sched

open Function (update update_of_ne update_self)
open State Timeq

section
variable {P T M C : Type} {mtx : C → M} {s s' : State P T M C} {p : P} {t u : T}
variable {m : M} {c : C} {timed all : Bool}

/-! ## Who has the mutex -/

theorem Inv.claim_inj (h : Inv mtx s) {k k' : Token P T}
    (ht : (s.pc t).claim mtx t = some (m, k)) (hu : (s.pc u).claim mtx u = some (m, k')) : t = u := by
  have hk : k = k' := ((h.owns t).claim m k ht).symm.trans ((h.owns u).claim m k' hu)
  have howner := (Pc.claim_owner ht).symm.trans (hk ▸ Pc.claim_owner hu)
  cases howner
  rfl

theorem Inv.claim_callback (h : Inv mtx s) {k k' : Token P T}
    (ht : (s.pc t).claim mtx t = some (m, k)) (hp : (s.mode p).claim mtx p = some (m, k')) : False := by
  have hk : k = k' := ((h.owns t).claim m k ht).symm.trans (h.callback p m k' hp)
  have howner := (Pc.claim_owner ht).symm.trans (hk ▸ Mode.claim_owner hp)
  cases howner

theorem Pc.claim_of_calls {d : Pc T M C} (h : d.calls = some (c, u, timed)) :
    (d.claim mtx t : Option (M × Token P T)) = some (mtx c, .held (.thread t)) := by
  cases d <;> simp only [Pc.calls, Option.some.injEq, Prod.mk.injEq, reduceCtorEq] at h
  obtain ⟨rfl, -⟩ := h
  rfl

/-! The places of a thread on a processor, the other way round: what its control point can be. -/

theorem Fits.hand {p : P} (h : Fits s t (.hand p)) : s.Running t ∨ s.pc t = .dead := by
  simp only [Fits] at h
  split at h
  · exact .inl h
  · exact .inr h
  · exact h.elim

theorem Fits.on {p : P} (h : Fits s t (.on p)) :
    s.Running t ∨ ∃ e : Data M C, e.Suits (s.pc t) (s.timedout t) := by
  simp only [Fits] at h
  split at h
  · exact .inl h
  · obtain ⟨e, -, he⟩ := h
    exact .inr ⟨e, he⟩

theorem Fits.leaving {p : P} (h : Fits s t (.leaving p)) :
    ∃ x, s.mode p = .callback x ∧ x.Suits (s.pc t) (s.timedout t) := by
  simp only [Fits] at h
  split at h
  · next x hmode => exact ⟨x, hmode, h⟩
  · exact h.elim

/-- A thread that has been switched out on a condition variable has left the mutex to its
callback. -/
theorem Fits.left {q : Place P M C} (h : Fits s t q) (hpc : s.pc t = .left c timed) (mtx : C → M) :
    ∃ p, (s.mode p).claim mtx p = some (mtx c, .held (.callback p)) := by
  cases q with
  | leaving p =>
    obtain ⟨x, hmode, hsuits⟩ := h.leaving
    refine ⟨p, ?_⟩
    cases x <;> simp_all [Cb.Suits, Mode.claim, Cb.claim]
  | hand r => rcases h.hand with hrun | hdead <;> simp_all [Running]
  | on r =>
    rcases h.on with hrun | ⟨e, he⟩
    · simp_all [Running]
    · cases e <;> simp_all [Data.Suits]
  | _ => simp_all [Fits, Running]

section
variable (h : Inv mtx s)
include h

/-- Nobody who needs the mutex of `c` meets a waiter that has not slept yet. -/
theorem Inv.not_early {k : Token P T} (ht : (s.pc t).claim mtx t = some (mtx c, k))
    (htu : t ≠ u) (hwaits : (s.pc u).waits = some (c, timed)) :
    (s.pc u).phase ≠ .early ∧ (s.pc u).phase ≠ .back := by
  obtain ⟨loc, hloc, hfits⟩ := h.fit
  constructor
  · intro hphase
    cases hpc : s.pc u <;> simp only [hpc, Pc.phase, reduceCtorEq] at hphase
    case sleep c' b d =>
      obtain rfl : c' = c := by simp_all [Pc.waits]
      exact htu (h.claim_inj ht (by rw [hpc]; rfl))
    case leave c' b =>
      obtain rfl : c' = c := by simp_all [Pc.waits]
      exact htu (h.claim_inj ht (by rw [hpc]; rfl))
    case left c' b =>
      obtain rfl : c' = c := by simp_all [Pc.waits]
      obtain ⟨r, hr⟩ := (hfits u).left hpc mtx
      exact h.claim_callback ht hr
    all_goals split at hphase <;> cases hphase
  · intro hphase
    cases hpc : s.pc u <;> simp only [hpc, Pc.phase, reduceCtorEq] at hphase
    case relocked c' b =>
      obtain rfl : c' = c := by simp_all [Pc.waits]
      exact htu (h.claim_inj ht (by rw [hpc]; rfl))
    all_goals split at hphase <;> cases hphase

theorem Inv.called (hpc : s.pc t = .wake c u timed all) :
    t ≠ u ∧ (s.pc u).waits = some (c, timed) ∧ s.wthread u = false ∧
      (s.pc u).phase ≠ .early ∧ (s.pc u).phase ≠ .back := by
  obtain ⟨hwaits, hwthread⟩ := (h.waiter u).called c timed ⟨t, by rw [hpc]; rfl⟩
  have htu : t ≠ u := by
    rintro rfl
    simp [hpc, Pc.waits] at hwaits
  exact ⟨htu, hwaits, hwthread, h.not_early (by rw [hpc]; rfl) htu hwaits⟩

/-- It has one signaller. -/
theorem Inv.calls_inj (hpc : s.pc t = .wake c u timed all) {v : T} {c' : C} {b : Bool}
    (hv : (s.pc v).calls = some (c', u, b)) : v = t := by
  obtain ⟨-, hwaits, -, -⟩ := h.called hpc
  have hv' := ((h.waiter u).called c' b ⟨v, hv⟩).1
  rw [hwaits] at hv'
  cases hv'
  have ht : (s.pc t).calls = some (c, u, timed) := by rw [hpc]; rfl
  exact h.claim_inj (Pc.claim_of_calls hv) (Pc.claim_of_calls ht)

theorem Inv.called_untimed (hpc : s.pc t = .wake c u false all) : s.pc u = .asleep c false := by
  obtain ⟨-, hu, -, hearly, -⟩ := h.called hpc
  have hasleep := ((h.waiter u).untimed c hu (.inr ⟨t, by rw [hpc]; rfl⟩)).resolve_left hearly
  cases hq : s.pc u <;> simp only [hq, Pc.phase, reduceCtorEq] at hasleep
  case asleep c' b => simpa [hq, Pc.waits] using hu
  all_goals split at hasleep <;> cases hasleep

/-- A timed waiter that is woken has timed out, or is blocked on the mutex, or is asleep. -/
theorem Inv.called_timed (hpc : s.pc t = .wake c u true all) (htd : s.timedout u = false)
    (hblocked : ∀ m k, s.pc u ≠ .blocked m k) : s.pc u = .asleep c true := by
  obtain ⟨-, hu, -, hearly, hback⟩ := h.called hpc
  have hlate : (s.pc u).phase ≠ .late := by
    intro hb
    have := (h.waiter u).timed c hu hb (.inr ⟨t, by rw [hpc]; rfl⟩)
    simp [htd] at this
  cases hq : s.pc u <;> simp_all [Pc.phase, Pc.waits]

end

theorem State.Called.of_update [DecidableEq T] {d : Pc T M C} (h : s'.Called c u timed)
    (hpc : s'.pc = update s.pc t d) (hd : d.calls = none) : s.Called c u timed := by
  obtain ⟨v, hv⟩ := h
  refine ⟨v, ?_⟩
  rw [hpc] at hv
  by_cases hvt : v = t
  · subst hvt
    simp [hd] at hv
  · rwa [update_of_ne hvt] at hv

/-! ## Waiters that are out of it -/

theorem WaiterOk.idle (hwaits : (s.pc t).waits = none) (hphase : (s.pc t).phase = .out)
    (hlisted : ∀ c timed, (t, timed) ∉ s.waiters c) (hcalled : ∀ c timed, ¬ s.Called c t timed) :
    WaiterOk s t := by
  constructor <;> simp_all

theorem WaiterOk.heard (hwthread : s.wthread t = false)
    (hlisted : ∀ c timed, (t, timed) ∉ s.waiters c) (hcalled : ∀ c timed, ¬ s.Called c t timed)
    (hearly : (s.pc t).phase ≠ .early)
    (hasleep : ∀ c, (s.pc t).waits = some (c, false) → (s.pc t).phase ≠ .asleep) : WaiterOk s t := by
  constructor
  case asleep => exact fun c hc hb => absurd hb (hasleep c hc)
  all_goals simp_all [State.Owed]

theorem WaiterOk.not_listed (h : WaiterOk s t) (hwaits : (s.pc t).waits = none) (c : C) (timed : Bool) :
    (t, timed) ∉ s.waiters c := by
  rw [h.listed, hwaits]
  simp

theorem WaiterOk.not_called (h : WaiterOk s t) (hwaits : (s.pc t).waits = none) (c : C) (timed : Bool) :
    ¬ s.Called c t timed := by
  intro hc
  have := (h.called c timed hc).1
  rw [hwaits] at this
  cases this

/-! ## The steps -/

section
variable [DecidableEq T] [DecidableEq C] (h : Inv mtx s) (hcur : s.cur p = some t)
  (hhand : s.hand p = none) (hmode : s.mode p = .user)
include h hcur hhand hmode

attribute [local simp] State.setPc State.setMode State.setToken

/-- `TAILQ_INSERT_TAIL`. -/
theorem Inv.insert {deadline : Int} (hpc : s.pc t = .insert c timed deadline) :
    Inv mtx { s.setPc t (.sleep c timed deadline) with
      waiters := update s.waiters c (s.waiters c ++ [(t, timed)])
      wthread := update s.wthread t true } := by
  have hwaits : (s.pc t).waits = none := by rw [hpc]; rfl
  have hlisted := (h.waiter t).not_listed hwaits
  have hcalled := (h.waiter t).not_called hwaits
  have hf : Frame s { s.setPc t (.sleep c timed deadline) with
      waiters := update s.waiters c (s.waiters c ++ [(t, timed)])
      wthread := update s.wthread t true } p (.thread t) (· = t) (· = t) := by
    constructor
    case waiters =>
      intro j hj c' b
      by_cases hc : c' = c
      · subst hc
        simp [hj]
      · simp [hc]
    all_goals simp +contextual [hpc, Pc.calls]
  refine hf.stay h hcur hhand (by simp [hmode]) (by simp [hmode]) ⟨rfl, rfl, rfl, rfl, rfl, rfl⟩
    (fun _ => rfl) (by simp) (by simp [Fits, hmode, Mode.data, Running]) ?_ ?_
    (fun n => (h.mutex n).congr rfl rfl rfl) ?_
  · exact ⟨by simpa [Pc.claim, hpc] using (h.owns t).claim, by simp [Pc.wants]⟩
  · rintro j rfl
    constructor
    case listed =>
      intro c' b
      by_cases hc : c' = c
      · subst hc
        simp [Pc.waits, hlisted, eq_comm]
      · simp [Pc.waits, hlisted, hc, Ne.symm hc]
    case called =>
      exact fun c' b hb => absurd (hb.of_update rfl rfl) (hcalled c' b)
    all_goals simp [Pc.phase]
  · intro c'
    by_cases hc : c' = c
    · subst hc
      simpa using (h.waiters c').concat (hlisted c' timed)
    · simpa [hc] using h.waiters c'

omit hcur hhand hmode in
/-- At the end of its wait call a timed waiter that is still on the list takes itself off; no
other one is on it. -/
theorem Inv.relocked_waiters (hpc : s.pc t = .relocked c timed) {w : C → List (T × Bool)}
    (hw : w = if timed && s.wthread t then
      update s.waiters c ((s.waiters c).erase (t, timed)) else s.waiters) (c' : C) :
    (w c').Nodup ∧ ∀ j b, (j, b) ∈ w c' ↔ (j, b) ∈ s.waiters c' ∧ j ≠ t := by
  have hwaits : (s.pc t).waits = some (c, timed) := by rw [hpc]; rfl
  have hlisted : ∀ b, (t, b) ∈ s.waiters c' → c' = c ∧ b = timed ∧ (timed && s.wthread t) = true := by
    intro b hb
    obtain ⟨hw, hth⟩ := ((h.waiter t).listed c' b).mp hb
    rw [hwaits] at hw
    cases hw
    refine ⟨rfl, rfl, ?_⟩
    cases timed with
    | true => simpa using hth
    | false =>
      have := (h.waiter t).untimed c hwaits (.inl hth)
      simp [hpc, Pc.phase] at this
  have hother : ∀ j b, (j, b) ∈ s.waiters c' → (timed && s.wthread t) = false ∨ c' ≠ c → j ≠ t := by
    rintro j b hb hne rfl
    obtain ⟨hc, -, htd⟩ := hlisted b hb
    rcases hne with hne | hne
    · simp [htd] at hne
    · exact hne hc
  subst hw
  by_cases htd : (timed && s.wthread t) = true
  · rw [if_pos htd]
    by_cases hc : c' = c
    · subst hc
      refine ⟨by simpa using (h.waiters c').erase _, fun j b => ?_⟩
      rw [update_self, (h.waiters c').mem_erase_iff, and_comm]
      refine and_congr_right fun hb => not_congr ⟨fun hjb => congrArg Prod.fst hjb, ?_⟩
      rintro rfl
      rw [(hlisted b hb).2.1]
    · rw [update_of_ne hc]
      exact ⟨h.waiters c', fun j b => (and_iff_left_of_imp fun hb => hother j b hb (.inr hc)).symm⟩
  · rw [if_neg htd]
    exact ⟨h.waiters c', fun j b =>
      (and_iff_left_of_imp fun hb => hother j b hb (.inl (by simpa using htd))).symm⟩

theorem Inv.relocked (hpc : s.pc t = .relocked c timed) {w : C → List (T × Bool)}
    (hw : w = if timed && s.wthread t then
      update s.waiters c ((s.waiters c).erase (t, timed)) else s.waiters) :
    Inv mtx { s.setPc t .run with waiters := w } := by
  have hlist := h.relocked_waiters hpc hw
  have hcalled : ∀ c' b, ¬ s.Called c' t b := by
    rintro c' b ⟨v, hv⟩
    have hv' := ((h.waiter t).called c' b ⟨v, hv⟩).1
    rw [hpc] at hv'
    cases hv'
    have hclaim : (s.pc t).claim mtx t = some (mtx c, (.held (.thread t) : Token P T)) := by
      rw [hpc]
      rfl
    obtain rfl : v = t := h.claim_inj (Pc.claim_of_calls hv) hclaim
    simp [hpc, Pc.calls] at hv
  have hf : Frame s { s.setPc t .run with waiters := w } p (.thread t) (· = t) (· = t) := by
    constructor
    case waiters => exact fun j hj c' b => ((hlist c').2 j b).trans (and_iff_left hj)
    all_goals simp +contextual [hpc, Pc.calls]
  refine hf.stay h hcur hhand (by simp [hmode]) (by simp [hmode]) ⟨rfl, rfl, rfl, rfl, rfl, rfl⟩
    (fun _ => rfl) (by simp) (by simp [Fits, hmode, Mode.data, Running]) ?_ ?_
    (fun n => (h.mutex n).congr rfl rfl rfl) fun c' => (hlist c').1
  · exact ⟨by simp [Pc.claim], by simp [Pc.wants]⟩
  · rintro j rfl
    refine .idle (by simp [Pc.waits]) (by simp [Pc.phase]) (fun c' b hb => ?_) (fun c' b hb => ?_)
    · exact (((hlist c').2 j b).mp hb).2 rfl
    · exact hcalled c' b (hb.of_update rfl rfl)

/-- `TAILQ_FIRST` and `TAILQ_REMOVE` of the signaller. -/
theorem Inv.signal {rest : List (T × Bool)} (hpc : s.pc t = .signal c all)
    (hw : s.waiters c = (u, timed) :: rest) :
    Inv mtx { s.setPc t (.wake c u timed all) with
      waiters := update s.waiters c rest
      wthread := update s.wthread u false } := by
  have hnodup := h.waiters c
  rw [hw, List.nodup_cons] at hnodup
  obtain ⟨hwaits, hwthread⟩ := ((h.waiter u).listed c timed).mp (by simp [hw])
  have htu : t ≠ u := by
    rintro rfl
    simp [hpc, Pc.waits] at hwaits
  have hphase := h.not_early (by rw [hpc]; rfl) htu hwaits
  have hother : ∀ j b, (j, b) ∈ rest → j ≠ u := by
    rintro j b hb rfl
    have hj := (((h.waiter j).listed c b).mp (by simp [hw, hb])).1
    rw [hwaits] at hj
    cases hj
    exact hnodup.1 hb
  have hmem : ∀ j b c', (j, b) ∈ update s.waiters c rest c' ↔ (j, b) ∈ s.waiters c' ∧ j ≠ u := by
    intro j b c'
    by_cases hc : c' = c
    · subst hc
      rw [update_self, hw, List.mem_cons]
      constructor
      · exact fun hb => ⟨.inr hb, hother j b hb⟩
      · rintro ⟨hb | hb, hj⟩
        · cases hb
          exact absurd rfl hj
        · exact hb
    · rw [update_of_ne hc]
      refine (and_iff_left_of_imp ?_).symm
      rintro hb rfl
      have hj := (((h.waiter j).listed c' b).mp hb).1
      rw [hwaits] at hj
      cases hj
      exact hc rfl
  have hcalls : ∀ j c' b, Called { s.setPc t (.wake c u timed all) with
      waiters := update s.waiters c rest
      wthread := update s.wthread u false } c' j b →
      s.Called c' j b ∨ j = u ∧ c' = c ∧ b = timed := by
    rintro j c' b ⟨v, hv⟩
    by_cases hvt : v = t
    · subst hvt
      simp only [State.setPc, update_self, Pc.calls, Option.some.injEq, Prod.mk.injEq] at hv
      exact .inr ⟨hv.2.1.symm, hv.1.symm, hv.2.2.symm⟩
    · exact .inl ⟨v, by simpa [hvt] using hv⟩
  have hf : Frame s { s.setPc t (.wake c u timed all) with
      waiters := update s.waiters c rest
      wthread := update s.wthread u false } p (.thread t) (· = t) (fun j => j = t ∨ j = u) := by
    constructor
    case waiters => exact fun j hj c' b => (hmem j b c').trans (and_iff_left (not_or.mp hj).2)
    case calls =>
      rintro v rfl c' j b hv
      simp_all [Pc.calls]
    all_goals simp +contextual
  refine hf.stay h hcur hhand (by simp [hmode]) (by simp [hmode]) ⟨rfl, rfl, rfl, rfl, rfl, rfl⟩
    (fun _ => rfl) (by simp) (by simp [Fits, hmode, Mode.data, Running]) ?_ ?_
    (fun n => (h.mutex n).congr rfl rfl rfl) ?_
  · exact ⟨by simpa [Pc.claim, hpc] using (h.owns t).claim, by simp [Pc.wants]⟩
  · rintro j (rfl | rfl)
    · have hj : (s.pc j).waits = none := by rw [hpc]; rfl
      refine .idle (by simp [Pc.waits]) (by simp [Pc.phase]) (fun c' b hb => ?_) (fun c' b hb => ?_)
      · exact (h.waiter j).not_listed hj c' b ((hmem j b c').mp hb).1
      · rcases hcalls j c' b hb with hb | ⟨rfl, -⟩
        · exact (h.waiter j).not_called hj c' b hb
        · exact htu rfl
    · have hpcu : update s.pc t (.wake c j timed all) j = s.pc j :=
        update_of_ne (Ne.symm htu) _ _
      constructor
      case listed =>
        intro c' b
        exact iff_of_false (fun hb => ((hmem j b c').mp hb).2 rfl) (by simp)
      case called =>
        intro c' b hb
        refine ⟨?_, by simp⟩
        rcases hcalls j c' b hb with hb | ⟨-, rfl, rfl⟩
        · have := ((h.waiter j).called c' b hb).2
          simp [hwthread] at this
        · simpa [hpcu] using hwaits
      case early =>
        intro hb
        exact absurd (by simpa [hpcu] using hb) hphase.1
      case asleep =>
        intro c' hc _
        have hc' : (s.pc j).waits = some (c', false) := by simpa [hpcu] using hc
        rw [hwaits] at hc'
        cases hc'
        exact .inr ⟨t, by simp [Pc.calls]⟩
      case untimed =>
        intro c' hc _
        have hold := (h.waiter j).untimed c' (by simpa [hpcu] using hc) (.inl hwthread)
        simpa [hpcu] using hold
      case timed =>
        intro c' hc hb _
        exact (h.waiter j).timed c' (by simpa [hpcu] using hc) (by simpa [hpcu] using hb) (.inl hwthread)
  · intro c'
    by_cases hc : c' = c
    · subst hc
      simpa using hnodup.2
    · simpa [hc] using h.waiters c'

end

/-! ## The wake -/

section
variable [DecidableEq T] (h : Inv mtx s) (hcur : s.cur p = some t) (hhand : s.hand p = none)
  (hmode : s.mode p = .user) (hpc : s.pc t = .wake c u timed all)
include h hpc

attribute [local simp] State.setPc State.setMode State.setToken

omit [DecidableEq T] in
/-- After the wake the waiter has heard, and the signaller is done with it. -/
theorem Inv.wake_waiters (hpct : s'.pc t = if all then .signal c true else .run)
    (hpcu : s'.pc u = s.pc u ∧ timed = true ∨ s'.pc u = .awake c timed)
    (hother : ∀ j, ¬ (j = t ∨ j = u) → s'.pc j = s.pc j) (hwaiters : s'.waiters = s.waiters)
    (hwthread : s'.wthread = s.wthread) : WaiterOk s' t ∧ WaiterOk s' u := by
  obtain ⟨htu, hu, huw, hearly, -⟩ := h.called hpc
  have hcalls : ∀ v c' j b, (s'.pc v).calls = some (c', j, b) → v ≠ t ∧ (s.pc v).calls = some (c', j, b) := by
    intro v c' j b hv
    have hvt : v ≠ t := by
      rintro rfl
      cases all <;> simp [hpct, Pc.calls] at hv
    refine ⟨hvt, ?_⟩
    by_cases hvu : v = u
    · subst hvu
      rcases hpcu with ⟨hp, -⟩ | hp
      · rwa [hp] at hv
      · simp [hp, Pc.calls] at hv
    · rwa [hother v (by simp [hvt, hvu])] at hv
  have hold : ∀ j c' b, s'.Called c' j b → s.Called c' j b ∧ j ≠ u := by
    rintro j c' b ⟨v, hv⟩
    obtain ⟨hvt, hv⟩ := hcalls v c' j b hv
    refine ⟨⟨v, hv⟩, ?_⟩
    rintro rfl
    exact hvt (h.calls_inj hpc hv)
  constructor
  · have ht : (s.pc t).waits = none := by rw [hpc]; rfl
    refine .idle ?_ ?_ ?_ fun c' b hb => ?_
    · cases all <;> simp [hpct, Pc.waits]
    · cases all <;> simp [hpct, Pc.phase]
    · rw [hwaiters]
      exact (h.waiter t).not_listed ht
    · exact (h.waiter t).not_called ht c' b (hold t c' b hb).1
  · refine .heard (by rw [hwthread, huw]) (fun c' b => ?_) (fun c' b hb => (hold u c' b hb).2 rfl) ?_ ?_
    · rw [hwaiters, (h.waiter u).listed, huw]
      simp
    · rcases hpcu with ⟨hp, -⟩ | hp
      · rwa [hp]
      · simp [hp, Pc.phase]
    · rcases hpcu with ⟨hp, rfl⟩ | hp
      · simp [hp, hu]
      · simp [hp, Pc.phase]

omit [DecidableEq T] in
theorem Inv.wake_inv (hpct : s'.pc t = if all then .signal c true else .run)
    (hpcu : s'.pc u = s.pc u ∧ timed = true ∨ s'.pc u = .awake c timed)
    {A : T → Prop} (hf : Frame s s' p (.thread t) A (fun j => j = t ∨ j = u))
    (hwaiters : s'.waiters = s.waiters) (hwthread : s'.wthread = s.wthread)
    (hmode : s'.mode p = .user) (htoken : s'.token = s.token) (hcounter : s'.counter = s.counter)
    (hqueue : s'.queue = s.queue) (hfit : ∃ loc, Located s' loc ∧ ∀ t, Fits s' t (loc t)) :
    Inv mtx s' := by
  have hother : ∀ j, ¬ (j = t ∨ j = u) → s'.pc j = s.pc j := fun j hj => hf.pc j fun hA => hj (hf.sub j hA)
  obtain ⟨ht, hu⟩ := h.wake_waiters hpc hpct hpcu hother hwaiters hwthread
  refine hf.inv h hfit ?_ ?_ ?_ (fun n => (h.mutex n).congr ?_ ?_ ?_) (hwaiters ▸ h.waiters)
  · intro j hj
    rcases hf.sub j hj with rfl | rfl
    · have hheld := (h.owns j).claim (mtx c) (.held (.thread j)) (by rw [hpc]; rfl)
      cases all
      · exact ⟨by simp [hpct, Pc.claim], by simp [hpct, Pc.wants]⟩
      · exact ⟨by simp [hpct, Pc.claim, htoken, hheld], by simp [hpct, Pc.wants]⟩
    · rcases hpcu with ⟨hp, -⟩ | hp
      · exact ⟨by simpa only [hp, htoken] using (h.owns j).claim, by simpa only [hp] using (h.owns j).wants⟩
      · exact ⟨by simp [hp, Pc.claim], by simp [hp, Pc.wants]⟩
  · rintro j (rfl | rfl)
    · exact ht
    · exact hu
  · simp [CallbackOk, hmode, Mode.claim]
  · rw [hcounter]
  · rw [hqueue]
  · rw [htoken]

include hcur hhand hmode

/-- `bmk_sched_wake_timeq` of a thread that has timed out. -/
theorem Inv.wake_timedout (htimed : timed = true) : Inv mtx (s.next t c all) := by
  obtain ⟨loc, hloc, hfits⟩ := h.fit
  obtain ⟨htu, -⟩ := h.called hpc
  have hf : Frame s (s.next t c all) p (.thread t) (· = t) (fun j => j = t ∨ j = u) := by
    constructor
    case calls =>
      rintro v rfl c' j b hv
      cases all <;> simp_all [next, Pc.calls]
    all_goals simp +contextual [next]
  refine h.wake_inv hpc (by simp [next]) (.inl ⟨by simp [next, Ne.symm htu], htimed⟩) hf rfl rfl
    hmode rfl rfl rfl ?_
  refine hf.fit_free hloc hfits hhand (by simp [hmode])
    (hloc.step hcur rfl rfl rfl rfl rfl rfl (fun _ => rfl) (fun _ => rfl) hf.pc ?_)
    (· = t) (by simp [hcur]) (fun j hj => ⟨hj, rfl⟩) ?_
  · cases all <;> simp [next]
  · rintro j rfl
    rw [hloc.loc_eq (q := .on p) hcur]
    cases all <;> simp [next, Fits, hmode, Mode.data, Running]

/-- A thread that sleeps on the condition variable is woken and taken to the place `q`. -/
theorem Inv.wakes [DecidableEq P] (hpcu : s.pc u = .asleep c timed) {runq timeq : Option P → List T}
    {hand : P → Option (Hand T)} (hother : ∀ r, r ≠ p → hand r = s.hand r) {q : Place P M C}
    (hto : ∀ {loc}, Located s loc →
      Located { s.setPc u (s.pc u).woken with runq, timeq, hand } (update loc u q))
    (hq : Fits (next { s.setPc u (s.pc u).woken with runq, timeq, hand } t c all) u q) :
    Inv mtx (next { s.setPc u (s.pc u).woken with runq, timeq, hand } t c all) := by
  obtain ⟨loc, hloc, hfits⟩ := h.fit
  obtain ⟨htu, -⟩ := h.called hpc
  have hf : Frame s (next { s.setPc u (s.pc u).woken with runq, timeq, hand } t c all) p (.thread t)
      (fun j => j = t ∨ j = u) (fun j => j = t ∨ j = u) := by
    constructor
    case calls =>
      rintro v (rfl | rfl) c' j b hv
      · cases all <;> simp_all [next, Pc.calls]
      · simp [next, hpcu, Ne.symm htu, Pc.woken, Pc.calls] at hv
    all_goals simp +contextual [next, hother]
  refine h.wake_inv hpc (by simp [next]) (.inr (by simp [next, Ne.symm htu, hpcu, Pc.woken])) hf
    rfl rfl hmode rfl rfl rfl ?_
  refine hf.fit_free hloc hfits hhand (by simp [hmode])
    ((hto hloc).step hcur rfl rfl rfl rfl rfl rfl (fun _ => rfl) (fun _ => rfl) ?_ ?_)
    (fun j => j = t ∨ j = u) (by simp [hcur]) (fun j hj => ⟨hj, by simp [(not_or.mp hj).2]⟩) ?_
  · simp +contextual [next]
  · cases all <;> simp [next]
  rintro j (rfl | rfl)
  · rw [update_of_ne htu, hloc.loc_eq (q := .on p) hcur]
    cases all <;> simp [next, Fits, hmode, Mode.data, Running]
  · rwa [update_self]

/-- `bmk_sched_wake_timeq` of a thread that is on its timer queue. -/
theorem Inv.wake_asleep [DecidableEq P] (hpcu : s.pc u = .asleep c timed) (htq : u ∈ s.timeq (s.cpuidx u)) :
    Inv mtx (next { s.setPc u (s.pc u).woken with
      timeq := update s.timeq (s.cpuidx u) (removeTimeq u (s.timeq (s.cpuidx u)))
      hand := update s.hand p (some (.run u)) } t c all) := by
  obtain ⟨htu, -⟩ := h.called hpc
  refine h.wakes hcur hhand hmode hpc hpcu (by simp +contextual)
    (fun hloc => hloc.claim htq (by simp [hpcu, Pc.woken]) hhand) ?_
  simp [next, Fits, Running, Ne.symm htu, hpcu, Pc.woken]

/-- `bmk_sched_wake` of a thread that sleeps on the condition variable. -/
theorem Inv.wake [DecidableEq P] (htimed : timed = false) :
    Inv mtx (((s.setPc u (s.pc u).woken).enqueue u).next t c all) := by
  subst htimed
  obtain ⟨htu, -⟩ := h.called hpc
  have hpcu := h.called_untimed hpc
  refine h.wakes hcur hhand hmode hpc hpcu (by simp)
    (fun hloc => hloc.rouse hpcu (by simp [hpcu, Pc.woken])) ?_
  simp [next, Fits, Running, Ne.symm htu, hpcu, Pc.woken]

end

end

end Librettos.Sched
