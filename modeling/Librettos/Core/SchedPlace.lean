/-
# `Core.SchedPlace` — where a thread slot can be

The places of a thread slot in a state of `Core.Sched`, and what a step does to them: a
slot goes from one place to another, and the rest stays where it is.  `Located s loc` says
that `loc` is the place of every slot, and its one place.
-/
import Librettos.Core.Sched

namespace Librettos.Sched

open Function (update update_self)
open Timeq

/-- The places.  `hand p` is in the hands of processor `p`, which has taken the slot from a
queue and is about to put it on another one; `leaving p` is being switched out by `p`. -/
inductive Place (P M C : Type)
  | free
  | zombie
  | hand (p : P)
  | queued (x : Option P)
  | on (p : P)
  | leaving (p : P)
  | blocked (m : M)
  | asleep (c : C)
  | timed (x : Option P)
deriving DecidableEq, Repr

/-- The thread that a callback still has to put somewhere. -/
def Cb.leaves {T M C : Type} : Cb T M C → Option T
  | .yield t | .queue t _ | .timeq t _ | .exit t _ | .zombie t => some t
  | .exitTimed _ | .exitWake _ => none

/-- The thread that a processor in this mode is switching out. -/
def Mode.leaves {T M C : Type} : Mode T M C → Option T
  | .callback c => c.leaves
  | .user | .pick _ | .pickAll _ | .clock _ | .expire _ _ | .reap => none

def Hand.thread {T : Type} : Hand T → T
  | .run t | .free t => t

section
variable {P T M C : Type}

def State.At (s : State P T M C) (t : T) : Place P M C → Prop
  | .free => t ∈ s.freeq
  | .zombie => t ∈ s.zombieq
  | .hand p => (s.hand p).map Hand.thread = some t
  | .queued x => t ∈ s.runq x
  | .on p => s.cur p = some t
  | .leaving p => (s.mode p).leaves = some t
  | .blocked m => t ∈ (s.queue m).waiters
  | .asleep c => s.pc t = .asleep c false
  | .timed x => t ∈ s.timeq x

/-- Every slot is in the place `loc` says, once, and nowhere else. -/
structure Located (s : State P T M C) (loc : T → Place P M C) : Prop where
  at_iff : ∀ t q, s.At t q ↔ loc t = q
  freeq : s.freeq.Nodup
  zombieq : s.zombieq.Nodup
  runq : ∀ x, (s.runq x).Nodup
  timeq : ∀ x, (s.timeq x).Nodup
  queue : ∀ m, (s.queue m).waiters.Nodup

variable {s s' : State P T M C} {loc : T → Place P M C} {t : T} {q : Place P M C} {p : P}

section
variable (h : Located s loc)
include h

theorem Located.loc_eq (ht : s.At t q) : loc t = q := (h.at_iff t q).mp ht

theorem Located.not_at {r : Place P M C} (ht : loc t = q) (hne : q ≠ r) : ¬ s.At t r :=
  fun hr => hne (ht.symm.trans (h.loc_eq hr))

theorem Located.still (hfreeq : s'.freeq = s.freeq)
    (hzombieq : s'.zombieq = s.zombieq) (hrunq : s'.runq = s.runq) (htimeq : s'.timeq = s.timeq)
    (hcur : s'.cur = s.cur) (hhand : s'.hand = s.hand)
    (hqueue : ∀ m, (s'.queue m).waiters = (s.queue m).waiters)
    (hmode : ∀ r, (s'.mode r).leaves = (s.mode r).leaves)
    (hpc : ∀ j c, s'.pc j = .asleep c false ↔ s.pc j = .asleep c false) : Located s' loc where
  at_iff j r := by
    rw [← h.at_iff j r]
    cases r with
    | free => simp only [State.At, hfreeq]
    | zombie => simp only [State.At, hzombieq]
    | hand r => simp only [State.At, hhand]
    | queued x => simp only [State.At, hrunq]
    | on r => simp only [State.At, hcur]
    | leaving r => simp only [State.At, hmode]
    | blocked m => simp only [State.At, hqueue]
    | asleep c => exact hpc j c
    | timed x => simp only [State.At, htimeq]
  freeq := hfreeq ▸ h.freeq
  zombieq := hzombieq ▸ h.zombieq
  runq := hrunq ▸ h.runq
  timeq := htimeq ▸ h.timeq
  queue m := hqueue m ▸ h.queue m

/-- A slot that is elsewhere is not asleep. -/
theorem Located.not_asleep (hloc : loc t = q) (hq : ∀ c, q ≠ .asleep c) (c : C) :
    s.pc t ≠ .asleep c false :=
  h.not_at (r := .asleep c) hloc (hq c)

theorem Located.step (hp : s.cur p = some t) (hfreeq : s'.freeq = s.freeq)
    (hzombieq : s'.zombieq = s.zombieq) (hrunq : s'.runq = s.runq) (htimeq : s'.timeq = s.timeq)
    (hcur : s'.cur = s.cur) (hhand : s'.hand = s.hand)
    (hqueue : ∀ m, (s'.queue m).waiters = (s.queue m).waiters)
    (hmode : ∀ r, (s'.mode r).leaves = (s.mode r).leaves) (hpc : ∀ j, j ≠ t → s'.pc j = s.pc j)
    (hasleep : ∀ c, s'.pc t ≠ .asleep c false) : Located s' loc := by
  have hold := h.not_asleep (h.loc_eq (q := .on p) hp) (by simp)
  refine h.still hfreeq hzombieq hrunq htimeq hcur hhand hqueue hmode (fun j c => ?_)
  by_cases hj : j = t
  · subst hj
    exact iff_of_false (hasleep c) (hold c)
  · rw [hpc j hj]

end

variable [DecidableEq T]

theorem Located.move {q₀ : Place P M C} (h : Located s loc) (hloc : loc t = q₀)
    (hat : ∀ j r, s'.At j r ↔ s.At j r ∧ ¬ (j = t ∧ r = q₀) ∨ j = t ∧ r = q) (j : T) (r : Place P M C) :
    s'.At j r ↔ update loc t q j = r := by
  rw [hat, h.at_iff j r]
  by_cases hj : j = t
  · subst hj
    rw [update_self, hloc]
    tauto
  · simp [hj]

/-! ## The moves -/

section
variable [DecidableEq P]
variable {l : List T}

attribute [local simp] State.setPc State.setMode State.setToken State.enqueue State.At Hand.thread

section
omit [DecidableEq T]

theorem nodup_update {ι : Type} [DecidableEq ι] {f : ι → List T} (h : ∀ x, (f x).Nodup) {x : ι}
    (hl : l.Nodup) : ∀ y, (update f x l y).Nodup :=
  (Function.forall_update_iff f fun _ l => l.Nodup).mpr ⟨hl, fun y _ => h y⟩

theorem nodup_concat (h : l.Nodup) (ht : t ∉ l) : (l ++ [t]).Nodup := by
  simpa using h.concat ht

theorem Located.nodup_enqueue (h : Located s loc) (hloc : loc t = q) (hq : q ≠ .queued (s.cpuidx t)) :
    ∀ x, ((s.enqueue t).runq x).Nodup :=
  nodup_update h.runq (nodup_concat (h.runq _) (h.not_at (r := .queued (s.cpuidx t)) hloc hq))

end

/-- From the hands of `p` to a run queue. -/
theorem Located.put (h : Located s loc) (hh : s.hand p = some (.run t)) :
    Located ({ s with hand := update s.hand p none }.enqueue t)
      (update loc t (.queued (s.cpuidx t))) := by
  have hloc : loc t = .hand p := h.loc_eq (by simp [hh])
  refine { h with
    at_iff := h.move hloc fun j r => ?_
    runq := h.nodup_enqueue hloc (by simp) }
  cases r with
  | hand p' => by_cases hp : p' = p <;> simp [hp, hh, eq_comm (a := t)]
  | queued x => by_cases hx : x = s.cpuidx t <;> simp [hx]
  | _ => simp

/-- From the hands of `p` to `freeq`. -/
theorem Located.putFree (h : Located s loc) (hh : s.hand p = some (.free t)) :
    Located { s with hand := update s.hand p none, freeq := s.freeq ++ [t] }
      (update loc t .free) := by
  have hloc : loc t = .hand p := h.loc_eq (by simp [hh])
  refine { h with
    at_iff := h.move hloc fun j r => ?_
    freeq := nodup_concat h.freeq (h.not_at (r := .free) hloc (by simp)) }
  cases r with
  | hand p' => by_cases hp : p' = p <;> simp [hp, hh, eq_comm (a := t)]
  | _ => simp

omit [DecidableEq T] in
theorem mem_rest_iff {rest : List T} (hl : l.Nodup) (heq : l = t :: rest) (j : T) :
    j ∈ rest ↔ j ∈ l ∧ j ≠ t := by
  subst heq
  have hj : j ∈ rest → j ≠ t := fun hj hjt => (List.nodup_cons.mp hl).1 (hjt ▸ hj)
  rw [List.mem_cons]
  tauto

/-- From a run queue to a processor that is free. -/
theorem Located.take {x : Option P} {rest : List T} (h : Located s loc) (hx : s.runq x = t :: rest)
    (hcur : s.cur p = none) :
    Located { s with
        runq := update s.runq x rest
        cur := update s.cur p (some t) }
      (update loc t (.on p)) := by
  have hloc : loc t = .queued x := h.loc_eq (by simp [hx])
  refine { h with
    at_iff := h.move hloc fun j r => ?_
    runq := nodup_update h.runq (hx ▸ h.runq x).of_cons }
  cases r with
  | queued y =>
    by_cases hy : y = x
    · simp [hy, mem_rest_iff (h.runq x) hx]
    · simp [hy]
  | on p' => by_cases hp : p' = p <;> simp [hp, hcur, eq_comm (a := t)]
  | _ => simp

/-- The thread of `p` is switched out. -/
theorem Located.park {d : Mode T M C} (h : Located s loc) (hcur : s.cur p = some t)
    (hmode : (s.mode p).leaves = none) (hd : d.leaves = some t) :
    Located { s.setMode p d with cur := update s.cur p none }
      (update loc t (.leaving p)) := by
  refine { h with at_iff := h.move (h.loc_eq (q := .on p) hcur) fun j r => ?_ }
  cases r with
  | on p' => by_cases hp : p' = p <;> simp [hp, hcur, eq_comm (a := t)]
  | leaving p' => by_cases hp : p' = p <;> simp [hp, hd, hmode, eq_comm (a := t)]
  | _ => simp

section leaving
variable {d : Mode T M C}

section
variable (h : Located s loc) (hmode : (s.mode p).leaves = some t) (hd : d.leaves = none)
include h hmode hd

/-- The thread that `p` is switching out goes to its run queue. -/
theorem Located.requeue :
    Located ((s.enqueue t).setMode p d) (update loc t (.queued (s.cpuidx t))) := by
  have hloc : loc t = .leaving p := h.loc_eq hmode
  refine { h with
    at_iff := h.move hloc fun j r => ?_
    runq := h.nodup_enqueue hloc (by simp) }
  cases r with
  | leaving p' => by_cases hp : p' = p <;> simp [hp, hmode, hd, eq_comm (a := t)]
  | queued x => by_cases hx : x = s.cpuidx t <;> simp [hx]
  | _ => simp

/-- It goes to a block queue. -/
theorem Located.block [DecidableEq M] {m : M} {b : BlockQueue T}
    (hb : b.waiters = (s.queue m).waiters ++ [t]) :
    Located ({ s with queue := update s.queue m b }.setMode p d)
      (update loc t (.blocked m)) := by
  have hloc : loc t = .leaving p := h.loc_eq hmode
  have hnot : t ∉ (s.queue m).waiters := h.not_at (r := .blocked m) hloc (by simp)
  refine { h with
    at_iff := h.move hloc fun j r => ?_
    queue := (Function.forall_update_iff s.queue fun _ c => c.waiters.Nodup).mpr
      ⟨hb ▸ nodup_concat (h.queue m) hnot, fun n _ => h.queue n⟩ }
  cases r with
  | leaving p' => by_cases hp : p' = p <;> simp [hp, hmode, hd, eq_comm (a := t)]
  | blocked n => by_cases hn : n = m <;> simp [hn, hb]
  | _ => simp

/-- It goes into the hands of `p`. -/
theorem Located.grasp (hh : s.hand p = none) :
    Located { s.setMode p d with hand := update s.hand p (some (.run t)) }
      (update loc t (.hand p)) := by
  refine { h with at_iff := h.move (h.loc_eq (q := .leaving p) hmode) fun j r => ?_ }
  cases r with
  | leaving p' => by_cases hp : p' = p <;> simp [hp, hmode, hd, eq_comm (a := t)]
  | hand p' => by_cases hp : p' = p <;> simp [hp, hh, eq_comm (a := t)]
  | _ => simp

/-- It goes to a timer queue. -/
theorem Located.insertTimeq {c : C} :
    Located { (s.setPc t (.asleep c true)).setMode p d with
        timeq := update s.timeq (s.cpuidx t)
          (Timeq.insertTimeq s.wakeup t (s.timeq (s.cpuidx t))) }
      (update loc t (.timed (s.cpuidx t))) := by
  have hloc : loc t = .leaving p := h.loc_eq hmode
  have hnot : t ∉ s.timeq (s.cpuidx t) := h.not_at (r := .timed (s.cpuidx t)) hloc (by simp)
  refine { h with
    at_iff := h.move hloc fun j r => ?_
    timeq := nodup_update h.timeq (nodup_insertTimeq (h.timeq _) hnot) }
  cases r with
  | leaving p' => by_cases hp : p' = p <;> simp [hp, hmode, hd, eq_comm (a := t)]
  | timed x => by_cases hx : x = s.cpuidx t <;> simp [hx, mem_insertTimeq, or_comm]
  | asleep c' => by_cases hj : j = t <;> simp [hj, h.not_asleep hloc]
  | _ => simp

/-- It falls asleep on a condition variable. -/
theorem Located.sleep {c : C} :
    Located ((s.setPc t (.asleep c false)).setMode p d) (update loc t (.asleep c)) := by
  have hloc : loc t = .leaving p := h.loc_eq hmode
  refine { h with at_iff := h.move hloc fun j r => ?_ }
  cases r with
  | leaving p' => by_cases hp : p' = p <;> simp [hp, hmode, hd, eq_comm (a := t)]
  | asleep c' => by_cases hj : j = t <;> simp [hj, h.not_asleep hloc, eq_comm (a := c)]
  | _ => simp

/-- It goes to `zombieq`. -/
theorem Located.bury :
    Located ({ s with zombieq := s.zombieq ++ [t] }.setMode p d) (update loc t .zombie) := by
  have hloc : loc t = .leaving p := h.loc_eq hmode
  refine { h with
    at_iff := h.move hloc fun j r => ?_
    zombieq := nodup_concat h.zombieq (h.not_at (r := .zombie) hloc (by simp)) }
  cases r with
  | leaving p' => by_cases hp : p' = p <;> simp [hp, hmode, hd, eq_comm (a := t)]
  | _ => simp

end

end leaving

section
variable (h : Located s loc)
include h

/-- From a block queue into the hands of `p`. -/
theorem Located.release [DecidableEq M] {m : M} {b : BlockQueue T}
    (hw : (s.queue m).waiters = t :: b.waiters) (hh : s.hand p = none) : Located { s with
        queue := update s.queue m b
        hand := update s.hand p (some (.run t)) }
      (update loc t (.hand p)) := by
  have hloc : loc t = .blocked m := h.loc_eq (by simp [hw])
  refine { h with
    at_iff := h.move hloc fun j r => ?_
    queue := (Function.forall_update_iff s.queue fun _ c => c.waiters.Nodup).mpr
      ⟨(hw ▸ h.queue m).of_cons, fun n _ => h.queue n⟩ }
  cases r with
  | blocked n =>
    by_cases hn : n = m
    · simp [hn, mem_rest_iff (h.queue m) hw]
    · simp [hn]
  | hand p' => by_cases hp : p' = p <;> simp [hp, hh, eq_comm (a := t)]
  | _ => simp

/-- From `zombieq` into the hands of `p`. -/
theorem Located.grab {rest : List T} (hz : s.zombieq = t :: rest) (hh : s.hand p = none) :
    Located { s with zombieq := rest, hand := update s.hand p (some (.free t)) }
      (update loc t (.hand p)) := by
  have hloc : loc t = .zombie := h.loc_eq (by simp [hz])
  refine { h with
    at_iff := h.move hloc fun j r => ?_
    zombieq := (hz ▸ h.zombieq).of_cons }
  cases r with
  | zombie => simp [mem_rest_iff h.zombieq hz]
  | hand p' => by_cases hp : p' = p <;> simp [hp, hh, eq_comm (a := t)]
  | _ => simp

/-- From `freeq` into the hands of `p`, as a new thread. -/
theorem Located.create {rest : List T} (hf : s.freeq = t :: rest)
    (hh : s.hand p = none) (x : Option P) :
    Located ({ s with freeq := rest }.create p t x) (update loc t (.hand p)) := by
  have hloc : loc t = .free := h.loc_eq (by simp [hf])
  refine { h with
    at_iff := h.move hloc fun j r => ?_
    freeq := (hf ▸ h.freeq).of_cons }
  cases r with
  | free => simp [State.create, mem_rest_iff h.freeq hf]
  | hand p' => by_cases hp : p' = p <;> simp [State.create, hp, hh, eq_comm (a := t)]
  | asleep c' => by_cases hj : j = t <;> simp [State.create, hj, h.not_asleep hloc]
  | _ => simp [State.create]

/-- From the sleep on a condition variable to a run queue. -/
theorem Located.rouse {c : C} {d : Pc T M C} (hpc : s.pc t = .asleep c false)
    (hd : ∀ c, d ≠ .asleep c false) :
    Located ((s.setPc t d).enqueue t) (update loc t (.queued (s.cpuidx t))) := by
  have hloc : loc t = .asleep c := h.loc_eq hpc
  refine { h with
    at_iff := h.move hloc fun j r => ?_
    runq := h.nodup_enqueue hloc (by simp) }
  cases r with
  | queued x => by_cases hx : x = s.cpuidx t <;> simp [hx]
  | asleep c' => by_cases hj : j = t <;> simp +contextual [hj, hd, hpc]
  | _ => simp

/-- From a timer queue into the hands of `p`. -/
theorem Located.claim {x : Option P} {d : Pc T M C} (hx : t ∈ s.timeq x)
    (hd : ∀ c, d ≠ .asleep c false) (hh : s.hand p = none) : Located { s.setPc t d with
        timeq := update s.timeq x (removeTimeq t (s.timeq x))
        hand := update s.hand p (some (.run t)) }
      (update loc t (.hand p)) := by
  have hloc : loc t = .timed x := h.loc_eq hx
  refine { h with
    at_iff := h.move hloc fun j r => ?_
    timeq := nodup_update h.timeq ((h.timeq x).erase t) }
  cases r with
  | timed y => by_cases hy : y = x <;> simp [hy, removeTimeq, (h.timeq x).mem_erase_iff, and_comm]
  | hand p' => by_cases hp : p' = p <;> simp [hp, hh, eq_comm (a := t)]
  | asleep c' => by_cases hj : j = t <;> simp [hj, hd, h.not_asleep hloc]
  | _ => simp

/-- From a timer queue to a run queue. -/
theorem Located.expire {x : Option P} (hx : t ∈ s.timeq x)
    (hd : ∀ c, (s.pc t).woken ≠ .asleep c false) :
    Located (s.expireOne x t) (update loc t (.queued (s.cpuidx t))) := by
  have hloc : loc t = .timed x := h.loc_eq hx
  refine { h with
    at_iff := h.move hloc fun j r => ?_
    timeq := nodup_update h.timeq ((h.timeq x).erase t)
    runq := h.nodup_enqueue hloc (by simp) }
  cases r with
  | timed y =>
    by_cases hy : y = x <;>
      simp [State.expireOne, hy, removeTimeq, (h.timeq x).mem_erase_iff, and_comm]
  | queued y => by_cases hy : y = s.cpuidx t <;> simp [State.expireOne, hy]
  | asleep c' => by_cases hj : j = t <;> simp [State.expireOne, hj, hd, h.not_asleep hloc]
  | _ => simp [State.expireOne]

end

end

end

end Librettos.Sched
