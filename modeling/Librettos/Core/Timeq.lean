/-
# `Core.Timeq` — the queue of threads that wait for a deadline

`timeq[i]` is a tail queue kept in order of `bt_wakeup_time`.
`bmk_insert_timeq` walks it to the first thread with a later deadline and puts
the new one before it, or at the end; the timeout pass of `schedule` takes
threads off the front; `bmk_sched_wake_timeq` takes one out of the middle.

The queue is a list and the deadlines are a function of the thread, which is
what the field in the thread structure is.
-/
import Mathlib.Data.List.Sort
import Mathlib.Tactic

namespace Librettos.Timeq

open List

/-- `BMK_SCHED_BLOCK_INFTIME`: no deadline. -/
def infTime : Int := -1

section
variable {T : Type*}
variable {deadline : T → Int} {q : List T}

/-- The list operation of `bmk_insert_timeq`: before the first thread with a
later deadline, and so behind those with the same one. -/
def insertTimeq (deadline : T → Int) (t : T) (q : List T) : List T :=
  q.orderedInsert (fun a b => deadline a < deadline b) t

theorem count_insertTimeq [DecidableEq T] (deadline : T → Int) (t u : T) (q : List T) :
    (insertTimeq deadline t q).count u = q.count u + if t = u then 1 else 0 := by
  rw [insertTimeq, (perm_orderedInsert _ t q).count_eq, count_cons]
  simp

theorem mem_insertTimeq {t u : T} : u ∈ insertTimeq deadline t q ↔ u = t ∨ u ∈ q := by
  rw [insertTimeq, (perm_orderedInsert _ t q).mem_iff, mem_cons]

theorem nodup_insertTimeq {t : T} (h : q.Nodup) (ht : t ∉ q) :
    (insertTimeq deadline t q).Nodup := by
  rw [insertTimeq, (perm_orderedInsert _ t q).nodup_iff, nodup_cons]
  exact ⟨ht, h⟩

/-- The assertions of `bmk_insert_timeq`. -/
inductive Assertion
  /-- `bt_wakeup_time != BMK_SCHED_BLOCK_INFTIME` -/
  | infTime
  /-- the last thread's deadline is not later -/
  | order
deriving DecidableEq, Repr

/-- Case 2: not last in queue.  The walk stops at the first later deadline. -/
def insertBefore (deadline : T → Int) (t : T) : List T → Option (List T)
  | [] => none
  | iter :: q =>
    if deadline t < deadline iter then some (t :: iter :: q)
    else (insertBefore deadline t q).map (iter :: ·)

/-- `bmk_insert_timeq` -/
def bmkInsertTimeq (deadline : T → Int) (t : T) (q : List T) : Except Assertion (List T) :=
  if deadline t = infTime then .error .infTime
  else if q = [] then .ok [t]
  else
    match insertBefore deadline t q with
    | some q => .ok q
    | none =>
      if ∀ last ∈ q.getLast?, deadline last ≤ deadline t then .ok (q ++ [t]) else .error .order

theorem insertBefore_eq {t : T} {q' : List T}
    (h : insertBefore deadline t q = some q') : q' = insertTimeq deadline t q := by
  induction q generalizing q' with
  | nil => cases h
  | cons iter q ih =>
    rw [insertBefore] at h
    rw [insertTimeq, orderedInsert_cons]
    split at h
    · next hlt =>
      rw [if_pos hlt]
      exact (Option.some.inj h).symm
    · next hle =>
      obtain ⟨r, hr, rfl⟩ := Option.map_eq_some_iff.mp h
      rw [if_neg hle, ih hr]
      rfl

theorem insertBefore_eq_none {t : T} (h : insertBefore deadline t q = none) :
    (∀ u ∈ q, deadline u ≤ deadline t) ∧ insertTimeq deadline t q = q ++ [t] := by
  induction q with
  | nil => exact ⟨by simp, rfl⟩
  | cons iter q ih =>
    rw [insertBefore] at h
    split at h
    · cases h
    · next hle =>
      obtain ⟨hall, hlast⟩ := ih (Option.map_eq_none_iff.mp h)
      refine ⟨forall_mem_cons.mpr ⟨Int.not_lt.mp hle, hall⟩, ?_⟩
      rw [insertTimeq] at hlast ⊢
      rw [orderedInsert_cons, if_neg hle, hlast]
      rfl

/-- The three cases are one operation, and the assertion on the order holds. -/
theorem bmkInsertTimeq_eq {t : T} (h : deadline t ≠ infTime) (q : List T) :
    bmkInsertTimeq deadline t q = .ok (insertTimeq deadline t q) := by
  rw [bmkInsertTimeq, if_neg h]
  split
  · next hnil =>
    subst hnil
    rfl
  · cases hwalk : insertBefore deadline t q with
    | some q' => exact congrArg Except.ok (insertBefore_eq hwalk)
    | none =>
      obtain ⟨hall, hlast⟩ := insertBefore_eq_none hwalk
      have hok : ∀ last ∈ q.getLast?, deadline last ≤ deadline t :=
        fun last hmem => hall last (mem_of_getLast? hmem)
      dsimp only
      rw [if_pos hok, hlast]

/-- `TAILQ_REMOVE` of a thread. -/
def removeTimeq [DecidableEq T] (t : T) (q : List T) : List T := q.erase t

theorem count_removeTimeq [DecidableEq T] (t u : T) (q : List T) :
    (removeTimeq t q).count u = q.count u - if t = u then 1 else 0 := by
  rw [removeTimeq, count_erase]
  simp

end

end Librettos.Timeq
