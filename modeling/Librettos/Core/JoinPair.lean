/-
# `Core.JoinPair` — the two rendezvous of a joinable thread

A joinable thread and its joiner meet twice, on `bt_join` and on `bt_exit`.  The *face*
of a thread has both rendezvous, with how far the thread and its joiner are, and `Pair`
says which of these go together.  There is one lemma for each thing that the thread or
its joiner does.
-/
import Librettos.Core.Join

namespace Librettos.Join

open Rendezvous

/-! ## Faces -/

/-- How far a thread is with its own exit. -/
inductive Own
  | alive
  | exit
  | wait
  | gone
deriving DecidableEq, Repr

/-- How far the joiner of a thread is. -/
inductive Side
  | none
  | joining
  | posting
  | gone
deriving DecidableEq, Repr

structure Face (T : Type) where
  /-- who waits on `bt_join` -/
  who : T
  join : Meet T
  exit : Meet T
  own : Own
  side : Side
  returned : Bool

section
variable {T : Type}

def Pc.own : Pc T → Own
  | .run | .join _ | .post _ => .alive
  | .exit => .exit
  | .wait => .wait
  | .bye | .dead => .gone

/-- What the control point of its joiner says about the join of `u`. -/
def Pc.side [DecidableEq T] (u : T) : Pc T → Side
  | .join v => if v = u then .joining else .gone
  | .post v => if v = u then .posting else .gone
  | .run | .exit | .wait | .bye | .dead => .gone

def Own.Fits : Own → Poster T → Waiter → Prop
  | .alive, x, y => x = .before ∧ y = .before
  | .exit, x, y => x ≠ .done ∧ y = .before
  | .wait, x, y => x = .done ∧ y ≠ .through
  | .gone, x, y => x = .done ∧ y = .through

def Side.Fits : Side → Waiter → Poster T → Bool → Prop
  | .none, x, y, r => x = .before ∧ y = .before ∧ r = false
  | .joining, x, y, r => x ≠ .through ∧ y = .before ∧ r = false
  | .posting, x, y, r => x = .through ∧ y ≠ .done ∧ r = false
  | .gone, x, y, r => x = .through ∧ y = .done ∧ r = true

/-- The two rendezvous of the joinable thread `u`. -/
structure Pair (u : T) (f : Face T) : Prop where
  join : Good f.who f.join
  exit : Good u f.exit
  own : f.own.Fits f.join.poster f.exit.waiter
  side : f.side.Fits f.join.waiter f.exit.poster f.returned

namespace Pair

variable {u : T} {f : Face T}
variable {m : Meet T}

theorem fresh (u : T) : Pair u ⟨u, .init, .init, .alive, .none, false⟩ where
  join := .fresh
  exit := .fresh
  own := ⟨rfl, rfl⟩
  side := ⟨rfl, rfl, rfl⟩

section
variable (h : Pair u f)
include h

theorem own_eq {x : Own} (ho : f.own = x) : x.Fits f.join.poster f.exit.waiter := ho ▸ h.own

theorem side_eq {x : Side} (hs : f.side = x) :
    x.Fits f.join.waiter f.exit.poster f.returned := hs ▸ h.side

/-- Somebody begins to join the thread. -/
theorem joined (hs : f.side = .none) (t : T) : Pair u { f with who := t, side := .joining } := by
  obtain ⟨hbefore, hside⟩ := h.side_eq hs
  exact { h with
    join := h.join.retarget hbefore t
    side := ⟨by simp [hbefore], hside⟩ }

/-- The joiner goes on inside `join_wait`. -/
theorem joining (hs : f.side = .joining) (hm : Good f.who m)
    (hp : m.poster = f.join.poster) (hw : m.waiter ≠ .through) : Pair u { f with join := m } := { h with
  join := hm
  own := hp ▸ h.own
  side := by
    rw [hs]
    exact ⟨hw, (h.side_eq hs).2⟩ }

/-- The joiner is done with `join_wait`. -/
theorem posting (hs : f.side = .joining) (hm : Good f.who m)
    (hp : m.poster = f.join.poster) (hw : m.waiter = .through) :
    Pair u { f with join := m, side := .posting } := { h with
  join := hm
  own := hp ▸ h.own
  side := ⟨hw, by simp [(h.side_eq hs).2.1], (h.side_eq hs).2.2⟩ }

/-- The joiner has found the address of the exiting thread. -/
theorem calling (hs : f.side = .posting) (hm : Good u m)
    (hw : m.waiter = f.exit.waiter) (hp : m.poster ≠ .done) : Pair u { f with exit := m } := { h with
  exit := hm
  own := hw ▸ h.own
  side := by
    rw [hs]
    exact ⟨(h.side_eq hs).1, hp, (h.side_eq hs).2.2⟩ }

/-- The joiner is done with `join_post`. -/
theorem returning (hs : f.side = .posting) (hm : Good u m)
    (hown : f.own.Fits f.join.poster m.waiter) (hp : m.poster = .done) :
    Pair u { f with exit := m, side := .gone, returned := true } := { h with
  exit := hm
  own := hown
  side := ⟨(h.side_eq hs).1, hp, rfl⟩ }

/-- The thread begins to exit. -/
theorem exiting (ho : f.own = .alive) : Pair u { f with own := .exit } := { h with
  own := ⟨by simp [(h.own_eq ho).1], (h.own_eq ho).2⟩ }

/-- The exiting thread has found the address of its joiner. -/
theorem summoning (ho : f.own = .exit) (hm : Good f.who m)
    (hw : m.waiter = f.join.waiter) (hp : m.poster ≠ .done) : Pair u { f with join := m } := { h with
  join := hm
  own := by
    rw [ho]
    exact ⟨hp, (h.own_eq ho).2⟩
  side := hw ▸ h.side }

/-- The exiting thread is done with `join_post`. -/
theorem posted (ho : f.own = .exit) (hm : Good f.who m)
    (hside : f.side.Fits m.waiter f.exit.poster f.returned) (hp : m.poster = .done) :
    Pair u { f with join := m, own := .wait } := { h with
  join := hm
  own := ⟨hp, by simp [(h.own_eq ho).2]⟩
  side := hside }

/-- The exiting thread goes on inside `join_wait`. -/
theorem waiting (ho : f.own = .wait) (hm : Good u m)
    (hp : m.poster = f.exit.poster) (hw : m.waiter ≠ .through) : Pair u { f with exit := m } := { h with
  exit := hm
  own := by
    rw [ho]
    exact ⟨(h.own_eq ho).1, hw⟩
  side := hp ▸ h.side }

/-- The exiting thread is done with `join_wait`. -/
theorem leaving (ho : f.own = .wait) (hm : Good u m)
    (hp : m.poster = f.exit.poster) (hw : m.waiter = .through) :
    Pair u { f with exit := m, own := .gone } := { h with
  exit := hm
  own := ⟨(h.own_eq ho).1, hw⟩
  side := hp ▸ h.side }

theorem side_of_asleep (hw : f.join.waiter = .asleep) : f.side = .joining := by
  have hside := h.side
  cases hs : f.side <;> simp [hs, Side.Fits, hw] at hside ⊢

/-- Whoever sleeps on `bt_exit` is the exiting thread. -/
theorem own_of_asleep (hw : f.exit.waiter = .asleep) : f.own = .wait := by
  have hown := h.own
  cases ho : f.own <;> simp [ho, Own.Fits, hw] at hown ⊢

theorem own_of_waking {w : T} (hp : f.join.poster = .waking w) : f.own = .exit := by
  have hown := h.own
  cases ho : f.own <;> simp [ho, Own.Fits, hp] at hown ⊢

theorem side_of_waking {w : T} (hp : f.exit.poster = .waking w) : f.side = .posting := by
  have hside := h.side
  cases hs : f.side <;> simp [hs, Side.Fits, hp] at hside ⊢

theorem gone (ho : f.own = .gone) : f.side = .gone := by
  have hdone := h.exit.posted (h.own_eq ho).2
  have hside := h.side
  cases hs : f.side <;> simp [hs, Side.Fits, hdone] at hside ⊢

theorem returned_of_gone (hs : f.side = .gone) : f.returned = true :=
  (h.side_eq hs).2.2

theorem through_of_returned (hr : f.returned = true) : f.join.waiter = .through := by
  have hside := h.side
  cases hs : f.side <;> simp [hs, Side.Fits, hr] at hside
  exact hside.1

end

end Pair

end

end Librettos.Join
