/-
# `Core.BlockQueue` — what a block queue is for

`bmk_block_queue` (`sched.c`) is where a thread parks itself when it cannot go
on.  Two things happen to it: the post-switch callback `block_queue_callback`
of a thread that has been switched out, and `bmk_block_queue_wake`.  This file
states the intended behaviour of the pair: a FIFO of waiters, and a counter of
wakes that found nobody waiting, never both non-empty.  That the lock-free
queue underneath behaves like this is the business of the `Lfqueue` modules;
the locks built over the queue (`Rumpuser.Mutex`) only need what is here.
-/
import Mathlib.Data.List.Nodup
import Mathlib.Tactic

namespace Librettos

/-- Waiters, oldest first, and banked wakes.  The two are never both there. -/
structure BlockQueue (T : Type*) where
  waiters : List T
  pending : Nat
  excl : waiters = [] ∨ pending = 0

namespace BlockQueue

variable {T : Type*}

/-- `bmk_block_queue_init`. -/
def empty : BlockQueue T := ⟨[], 0, .inl rfl⟩

/-- `block_queue_callback`: the thread is appended (`true`), or a banked wake is
used up and the thread goes straight back to its run queue (`false`). -/
def block (q : BlockQueue T) (t : T) : BlockQueue T × Bool :=
  if q.pending = 0 then (⟨q.waiters ++ [t], 0, .inr rfl⟩, true)
  else (⟨[], q.pending - 1, .inl rfl⟩, false)

/-- `bmk_block_queue_wake`: the oldest waiter is released, or the wake is banked. -/
def wake (q : BlockQueue T) : BlockQueue T × Option T :=
  match q.waiters with
  | [] => (⟨[], q.pending + 1, .inl rfl⟩, none)
  | t :: ts => (⟨ts, 0, .inr rfl⟩, some t)

theorem pending_eq_zero {q : BlockQueue T} (h : q.waiters ≠ []) : q.pending = 0 :=
  q.excl.resolve_left h

theorem waiters_eq_nil {q : BlockQueue T} (h : q.pending ≠ 0) : q.waiters = [] :=
  q.excl.resolve_right h

theorem block_cases (q : BlockQueue T) (t : T) :
    (q.pending = 0 ∧ (q.block t).2 = true ∧ (q.block t).1.waiters = q.waiters ++ [t] ∧
      (q.block t).1.pending = 0) ∨
    (0 < q.pending ∧ (q.block t).2 = false ∧ q.waiters = [] ∧ (q.block t).1.waiters = [] ∧
      (q.block t).1.pending + 1 = q.pending) := by
  by_cases h : q.pending = 0
  · exact .inl ⟨h, by simp [block, h]⟩
  · refine .inr ⟨Nat.pos_of_ne_zero h, by simp [block, h], waiters_eq_nil h, by simp [block, h], ?_⟩
    rw [block, if_neg h]
    exact Nat.succ_pred_eq_of_ne_zero h

theorem wake_cases (q : BlockQueue T) :
    (q.waiters = [] ∧ q.wake.2 = none ∧ q.wake.1.waiters = [] ∧
      q.wake.1.pending = q.pending + 1) ∨
    (∃ t ts, q.waiters = t :: ts ∧ q.wake.2 = some t ∧ q.wake.1.waiters = ts ∧
      q.wake.1.pending = 0 ∧ q.pending = 0) := by
  cases h : q.waiters with
  | nil => exact .inl ⟨rfl, by simp [wake, h], by simp [wake, h], by simp [wake, h]⟩
  | cons t ts =>
    exact .inr ⟨t, ts, rfl, by simp [wake, h], by simp [wake, h], by simp [wake, h],
      pending_eq_zero (by simp [h])⟩

end BlockQueue

end Librettos
