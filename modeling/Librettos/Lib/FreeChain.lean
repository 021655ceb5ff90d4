/-
# `Lib.FreeChain` — a free list threaded through an array

A cell `h` of an array holds the first free index, and the cell of a free index holds the next one.
Nothing marks the end of the list: a counter elsewhere says how long it is.  The list is read off
the array (`chain`), and taking from it and putting back to it are the two operations of a stack
(`chain_pop`, `chain_push`), as long as no index is put back that is in the list.
-/
import Mathlib.Logic.Function.Basic
import Mathlib.Data.List.Nodup

namespace FreeChain

open Function

variable {α : Type*} {link : α → α} {h i r v : α} {n : ℕ}

/-- The `n` indices that follow `i`. -/
def chain (link : α → α) : α → ℕ → List α
  | _, 0 => []
  | i, n + 1 => link i :: chain link (link i) n

@[simp] theorem length_chain (link : α → α) : ∀ (i : α) (n : ℕ), (chain link i n).length = n
  | _, 0 => rfl
  | i, n + 1 => congrArg Nat.succ (length_chain link (link i) n)

variable [DecidableEq α]

theorem chain_update (hi : r ≠ i) (hr : r ∉ chain link i n) :
    chain (update link r v) i n = chain link i n := by
  induction n generalizing i with
  | zero => rfl
  | succ n ih =>
    rw [chain, List.mem_cons, not_or] at hr
    rw [chain, chain, update_of_ne hi.symm, ih hr.1 hr.2]

/-- What follows an index depends on its link only, if it is not in the list itself. -/
theorem chain_head (hh : h ∉ chain link i n) :
    chain (update link h (link i)) h n = chain link i n := by
  cases n with
  | zero => rfl
  | succ n =>
    rw [chain, List.mem_cons, not_or] at hh
    rw [chain, chain, update_self, chain_update hh.1 hh.2]

theorem chain_pop (hh : h ∉ chain link h (n + 1)) :
    chain (update link h (link (link h))) h n = chain link (link h) n := by
  rw [chain, List.mem_cons, not_or] at hh
  exact chain_head hh.2

theorem chain_push (hne : r ≠ h) (hh : h ∉ chain link h n) (hr : r ∉ chain link h n) :
    chain (update (update link r (link h)) h r) h (n + 1) = r :: chain link h n := by
  have hlink : chain (update link r (link h)) r n = chain link h n := chain_head hr
  rw [chain, update_self, chain_update hne.symm (by rwa [hlink]), hlink]

/-! ## Where the list ends -/

/-- The cell of the last of `n` indices that follow `i` holds `e`. -/
def Ends (e : α) (link : α → α) : α → ℕ → Prop
  | i, 0 => link i = e
  | i, n + 1 => Ends e link (link i) n

variable {e : α}

theorem Ends.update (hi : r ≠ i) (hr : r ∉ chain link i n) (he : Ends e link i n) :
    Ends e (update link r v) i n := by
  induction n generalizing i with
  | zero => exact (update_of_ne hi.symm _ _).trans he
  | succ n ih =>
    rw [chain, List.mem_cons, not_or] at hr
    rw [Ends, update_of_ne hi.symm]
    exact ih hr.1 hr.2 he

theorem Ends.head (hh : h ∉ chain link i n) (he : Ends e link i n) :
    Ends e (Function.update link h (link i)) h n := by
  cases n with
  | zero => exact (Function.update_self _ _ _).trans he
  | succ n =>
    rw [chain, List.mem_cons, not_or] at hh
    rw [Ends, update_self]
    exact he.update hh.1 hh.2

theorem Ends.pop (hh : h ∉ chain link h (n + 1)) (he : Ends e link h (n + 1)) :
    Ends e (Function.update link h (link (link h))) h n := by
  rw [chain, List.mem_cons, not_or] at hh
  exact he.head hh.2

theorem Ends.push (hne : r ≠ h) (hh : h ∉ chain link h n) (hr : r ∉ chain link h n)
    (he : Ends e link h n) :
    Ends e (Function.update (Function.update link r (link h)) h r) h (n + 1) := by
  have hlink : chain (Function.update link r (link h)) r n = chain link h n := chain_head hr
  rw [Ends, update_self]
  exact (he.head hr).update hne.symm (by rwa [hlink])

end FreeChain
