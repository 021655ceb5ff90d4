/-
# `Lib.Rendezvous` — one waiter, one poster, one word

A word on which one party waits, once, for the other to post, once, without a lock.
The word starts at 1.  The waiter subtracts 1; if it found 1 it is early and gives up
the processor, and whoever finishes its switch exchanges the word for the waiter's
address, and puts the waiter back on the run queue if the word had become 1 again.
The poster adds 1; if it found an address it puts the waiter on the run queue.

`Meet` has the word together with how far both parties have come, one operation for
each atomic step, and `Good` says which of these go together: the waiter is through
only when the poster has posted, it sleeps only while the poster has not posted or is
about to wake it, and the poster wakes it only when it sleeps.
-/
import Mathlib.Tactic

namespace Rendezvous

/-- A small number, or an address with something added to it. -/
inductive Word (W : Type)
  | num (n : ℤ)
  | ptr (w : W) (k : ℤ)
deriving DecidableEq, Repr

/-- How far the waiter is. -/
inductive Waiter
  | before
  /-- it was early and is about to give up the processor -/
  | slow
  /-- it has given up the processor, the exchange is still to come -/
  | leaving
  | asleep
  /-- the exchange has found that the poster was faster -/
  | due
  /-- it has been put on the run queue -/
  | woken
  | through
deriving DecidableEq, Repr

/-- The waiter has given up the processor and is on no run queue. -/
def Waiter.blocked : Waiter → Bool
  | .leaving | .asleep | .due => true
  | .before | .slow | .woken | .through => false

theorem Waiter.blocked_iff {x : Waiter} :
    x.blocked = true ↔ x = .leaving ∨ x = .asleep ∨ x = .due := by
  cases x <;> simp [Waiter.blocked]

/-- How far the poster is. -/
inductive Poster (W : Type)
  | before
  /-- it has found the address `w` and is about to wake the waiter -/
  | waking (w : W)
  | done
deriving DecidableEq, Repr

structure Meet (W : Type) where
  word : Word W
  waiter : Waiter
  poster : Poster W
deriving DecidableEq, Repr

variable {W : Type}

def Word.add : Word W → ℤ → Word W
  | .num n, d => .num (n + d)
  | .ptr w k, d => .ptr w (k + d)

/-- What a poster that finds this word does next.  It tells an address from a number by
its being greater than 1; by `Good` the one poster there is finds no other number. -/
def Word.next : Word W → Poster W
  | .num _ => .done
  | .ptr w _ => .waking w

def Meet.init : Meet W := ⟨.num 1, .before, .before⟩

/-- The waiter's subtraction. -/
def Meet.wait [DecidableEq W] (m : Meet W) : Meet W :=
  { m with word := m.word.add (-1), waiter := if m.word = .num 1 then .slow else .through }

/-- The waiter gives up the processor. -/
def Meet.leave (m : Meet W) : Meet W := { m with waiter := .leaving }

/-- The exchange for the waiter's address. -/
def Meet.settle [DecidableEq W] (m : Meet W) (w : W) : Meet W :=
  { m with word := .ptr w 0, waiter := if m.word = .num 1 then .due else .asleep }

/-- The waiter is put back on the run queue after its own exchange. -/
def Meet.requeue (m : Meet W) : Meet W := { m with waiter := .woken }

/-- The waiter runs again. -/
def Meet.resume (m : Meet W) : Meet W := { m with waiter := .through }

/-- The poster's addition. -/
def Meet.post (m : Meet W) : Meet W := { m with word := m.word.add 1, poster := m.word.next }

/-- The poster puts the waiter on the run queue. -/
def Meet.wake (m : Meet W) : Meet W := { m with waiter := .woken, poster := .done }

/-- The states of a rendezvous whose waiter is `me`. -/
inductive Good (me : W) : Meet W → Prop
  | fresh : Good me ⟨.num 1, .before, .before⟩
  /-- the poster came first -/
  | early : Good me ⟨.num 2, .before, .done⟩
  | passed : Good me ⟨.num 1, .through, .done⟩
  /-- the waiter came first -/
  | slow : Good me ⟨.num 0, .slow, .before⟩
  | leaving : Good me ⟨.num 0, .leaving, .before⟩
  /-- the poster comes before the exchange -/
  | slowLate : Good me ⟨.num 1, .slow, .done⟩
  | leavingLate : Good me ⟨.num 1, .leaving, .done⟩
  | asleep : Good me ⟨.ptr me 0, .asleep, .before⟩
  | called : Good me ⟨.ptr me 1, .asleep, .waking me⟩
  | due : Good me ⟨.ptr me 0, .due, .done⟩
  | woken (k : ℤ) : Good me ⟨.ptr me k, .woken, .done⟩
  | through (k : ℤ) : Good me ⟨.ptr me k, .through, .done⟩

section
variable {me : W} {m : Meet W}

section
variable (h : Good me m)
include h

/-- Until the waiter has come it can be anybody. -/
theorem Good.retarget (hw : m.waiter = .before) (you : W) : Good you m := by
  cases h with
  | fresh => exact .fresh
  | early => exact .early
  | _ => exact absurd hw (by simp)

theorem Good.wait [DecidableEq W] (hw : m.waiter = .before) : Good me m.wait := by
  cases h with
  | fresh => exact .slow
  | early => exact .passed
  | _ => exact absurd hw (by simp)

theorem Good.leave (hw : m.waiter = .slow) : Good me m.leave := by
  cases h with
  | slow => exact .leaving
  | slowLate => exact .leavingLate
  | _ => exact absurd hw (by simp)

theorem Good.settle [DecidableEq W] (hw : m.waiter = .leaving) : Good me (m.settle me) := by
  cases h with
  | leaving => exact .asleep
  | leavingLate => exact .due
  | _ => exact absurd hw (by simp)

theorem Good.requeue (hw : m.waiter = .due) : Good me m.requeue := by
  cases h with
  | due => exact .woken 0
  | _ => exact absurd hw (by simp)

theorem Good.resume (hw : m.waiter = .woken) : Good me m.resume := by
  cases h with
  | woken k => exact .through k
  | _ => exact absurd hw (by simp)

theorem Good.post (hp : m.poster = .before) : Good me m.post := by
  cases h with
  | fresh => exact .early
  | slow => exact .slowLate
  | leaving => exact .leavingLate
  | asleep => exact .called
  | _ => exact absurd hp (by simp)

theorem Good.wake {w : W} (hp : m.poster = .waking w) : Good me m.wake := by
  cases h with
  | called => exact .woken 1
  | _ => exact absurd hp (by simp)

theorem Good.waking {w : W} (hp : m.poster = .waking w) : w = me ∧ m.waiter = .asleep := by
  cases h with
  | called => exact ⟨(Poster.waking.inj hp).symm, rfl⟩
  | _ => exact absurd hp (by simp)

theorem Good.posted (hw : m.waiter = .through) : m.poster = .done := by
  cases h <;> first | rfl | exact absurd hw (by simp)

theorem Good.sleeping (hw : m.waiter = .asleep) : m.poster = .before ∨ m.poster = .waking me := by
  cases h with
  | asleep => exact .inl rfl
  | called => exact .inr rfl
  | _ => exact absurd hw (by simp)

/-- A waiter that has been posted to before its exchange will find out. -/
theorem Good.late [DecidableEq W] (hw : m.waiter = .leaving)
    (hp : m.poster = .done) : (m.settle me).waiter = .due := by
  cases h with
  | leavingLate => rfl
  | leaving => exact absurd hp (by simp)
  | _ => exact absurd hw (by simp)

end

theorem Meet.wait_waiter [DecidableEq W] (m : Meet W) :
    m.wait.waiter = .slow ∨ m.wait.waiter = .through := by
  unfold Meet.wait
  split
  · exact .inl rfl
  · exact .inr rfl

theorem Meet.settle_waiter [DecidableEq W] (m : Meet W) (w : W) :
    (m.settle w).waiter = .due ∨ (m.settle w).waiter = .asleep := by
  unfold Meet.settle
  split
  · exact .inl rfl
  · exact .inr rfl

end

end Rendezvous
