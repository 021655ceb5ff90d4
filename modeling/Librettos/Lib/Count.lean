/-
# `Lib.Count` — counting the parties of a protocol by what they are doing

The invariants of a lock or a queue are equations between a counter in memory
and the number of threads at certain points of their programs.  A point is
given a weight, the number is the sum of the weights over all threads, and a
step moves one thread: `wsum_update` is the equation every such proof turns on,
stated without subtraction so that `omega` can use it.

Where nothing bounds the number of threads there is no such sum; `Tally` says that so many
threads are at points of a kind, and `Tally.update` is the same equation for it.

A counter in memory is a word.  One that is signed counts like a number as long as it is not
at the end of its range (`toInt_add_one`, `toInt_sub_one`).
-/
import Mathlib.Algebra.BigOperators.Group.Finset.Basic
import Mathlib.Algebra.Order.BigOperators.Group.Finset
import Mathlib.Data.Fintype.BigOperators
import Mathlib.Tactic

namespace Count

open BitVec Finset Function

variable {ι β : Type*} [Fintype ι]
variable {f : β → ℕ}

/-- The total weight of the parties, each at its point `g i`. -/
def wsum (f : β → ℕ) (g : ι → β) : ℕ := ∑ i, f (g i)

theorem wsum_update [DecidableEq ι] (f : β → ℕ) (g : ι → β) (i : ι) (b : β) :
    wsum f (update g i b) + f (g i) = wsum f g + f b := by
  have h1 : wsum f (update g i b)
      = f b + ∑ j ∈ univ.erase i, f (g j) := by
    rw [wsum, ← add_sum_erase _ _ (mem_univ i), update_self]
    congr 1
    refine sum_congr rfl fun j hj => ?_
    rw [update_of_ne (ne_of_mem_erase hj)]
  have h2 : wsum f g = f (g i) + ∑ j ∈ univ.erase i, f (g j) := by
    rw [wsum, ← add_sum_erase _ _ (mem_univ i)]
  omega

theorem le_wsum (f : β → ℕ) (g : ι → β) (i : ι) : f (g i) ≤ wsum f g :=
  single_le_sum (f := fun j => f (g j)) (fun _ _ => Nat.zero_le _) (mem_univ i)

theorem add_le_wsum [DecidableEq ι] (f : β → ℕ) (g : ι → β) {i j : ι} (h : i ≠ j) :
    f (g i) + f (g j) ≤ wsum f g := by
  have h1 := wsum_update f g i (g j)
  have h2 := add_sum_erase univ (fun k => f (g k)) (mem_univ i)
  have h3 : f (g j) ≤ ∑ k ∈ univ.erase i, f (g k) :=
    single_le_sum (f := fun k => f (g k)) (fun _ _ => Nat.zero_le _)
      (mem_erase.mpr ⟨fun hji => h hji.symm, mem_univ j⟩)
  show _ ≤ ∑ k, f (g k)
  omega

theorem wsum_eq_zero_iff (f : β → ℕ) (g : ι → β) : wsum f g = 0 ↔ ∀ i, f (g i) = 0 := by
  simp [wsum]

theorem exists_of_wsum_pos {g : ι → β} (h : 0 < wsum f g) : ∃ i, 0 < f (g i) := by
  by_contra hc
  have : wsum f g = 0 := (wsum_eq_zero_iff f g).mpr fun i => by
    by_contra hi
    exact hc ⟨i, Nat.pos_of_ne_zero hi⟩
  omega

theorem wsum_mono {f' : β → ℕ} (h : ∀ b, f b ≤ f' b) (g : ι → β) : wsum f g ≤ wsum f' g :=
  sum_le_sum fun i _ => h (g i)

theorem wsum_add (f f' : β → ℕ) (g : ι → β) : wsum (fun b => f b + f' b) g = wsum f g + wsum f' g :=
  sum_add_distrib

theorem wsum_le_card (h : ∀ b, f b ≤ 1) (g : ι → β) : wsum f g ≤ Fintype.card ι := by
  calc wsum f g ≤ ∑ _i : ι, 1 := sum_le_sum fun i _ => h (g i)
    _ = Fintype.card ι := by simp

theorem wsum_eq_card (p : β → Prop) [DecidablePred p] (g : ι → β) :
    wsum (fun b => if p b then 1 else 0) g = (univ.filter fun i => p (g i)).card := by
  simp [wsum, sum_boole]

/-- At most one party carries a token of which there is at most one. -/
theorem eq_of_wsum_le_one [DecidableEq ι] {g : ι → β} (h : wsum f g ≤ 1) {i j : ι}
    (hi : 0 < f (g i)) (hj : 0 < f (g j)) : i = j := by
  by_contra hij
  have := add_le_wsum f g hij
  omega

section
variable {ι β : Type*} {p : β → Bool} {g : ι → β} {n m : ℕ}

/-- Exactly `n` parties are at points where `p` holds. -/
def Tally (p : β → Bool) (g : ι → β) (n : ℕ) : Prop :=
  ∃ l : Finset ι, (∀ i, i ∈ l ↔ p (g i) = true) ∧ l.card = n

theorem Tally.zero (h : ∀ i, p (g i) = false) : Tally p g 0 :=
  ⟨∅, fun i => by simp [h i], rfl⟩

theorem Tally.eq_zero (h : Tally p g n) (hg : ∀ i, p (g i) = false) : n = 0 := by
  obtain ⟨l, hl, rfl⟩ := h
  refine card_eq_zero.mpr (eq_empty_of_forall_notMem fun i hi => ?_)
  exact Bool.false_ne_true ((hg i).symm.trans ((hl i).mp hi))

theorem Tally.pos (h : Tally p g n) {i : ι} (hi : p (g i) = true) : 0 < n := by
  obtain ⟨l, hl, rfl⟩ := h
  exact card_pos.mpr ⟨i, (hl i).mpr hi⟩

theorem Tally.update [DecidableEq ι] (h : Tally p g n) (i : ι) (b : β)
    (hm : m + (p (g i)).toNat = n + (p b).toNat) : Tally p (update g i b) m := by
  obtain ⟨l, hl, rfl⟩ := h
  have hcard : (l.erase i).card + (p (g i)).toNat = l.card := by
    cases hi : p (g i) with
    | false => rw [erase_eq_of_notMem (by simp [hl, hi]), Bool.toNat_false, Nat.add_zero]
    | true => exact card_erase_add_one ((hl i).mpr hi)
  cases hb : p b with
  | false =>
    refine ⟨l.erase i, fun j => ?_, ?_⟩
    · by_cases hj : j = i <;> simp [hj, hb, hl]
    · rw [hb, Bool.toNat_false] at hm
      omega
  | true =>
    refine ⟨insert i (l.erase i), fun j => ?_, ?_⟩
    · by_cases hj : j = i <;> simp [hj, hb, hl]
    · rw [card_insert_of_notMem (by simp)]
      rw [hb, Bool.toNat_true] at hm
      omega

end

/-! ## Signed counters -/

section
variable {w : ℕ} {x : BitVec w}

theorem toInt_add_one (hw : 1 < w) (h : x ≠ intMax w) : (x + 1).toInt = x.toInt + 1 := by
  have hone : (1 : BitVec w).toInt = 1 := toInt_one hw
  have hmax : x.toInt ≠ 2 ^ (w - 1) - 1 :=
    fun hc => h (toInt_inj.mp (hc.trans toInt_intMax.symm))
  have hlt := toInt_lt (x := x)
  have hle := le_toInt x
  rw [toInt_add_of_not_saddOverflow, hone]
  simp only [saddOverflow, hone, Bool.or_eq_true, decide_eq_true_eq]
  omega

theorem toInt_sub_one (hw : 1 < w) (h : x ≠ intMin w) : (x - 1).toInt = x.toInt - 1 := by
  have hone : (1 : BitVec w).toInt = 1 := toInt_one hw
  have hmin : x.toInt ≠ -2 ^ (w - 1) :=
    fun hc => h (toInt_inj.mp (hc.trans (toInt_intMin_of_pos (by omega)).symm))
  have hlt := toInt_lt (x := x)
  have hle := le_toInt x
  rw [toInt_sub_of_not_ssubOverflow, hone]
  simp only [ssubOverflow, hone, Bool.or_eq_true, decide_eq_true_eq]
  omega

end

end Count
