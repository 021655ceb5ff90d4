/-
# `Core.Bitmap` — the allocation bitmap of `pgalloc.c`

One bit for each page, 64 to a word, set when the page is allocated.  `map_alloc`
and `map_free` change a range of bits word by word: a masked first word, whole
words in between, and a masked last word.  When the range ends on a word
boundary the last mask is empty, and the word after the range is read and written
back unchanged.

**Proved here.**  `map_alloc` sets and `map_free` clears the bits of the range and
no other (`allocatedInMap_mapAlloc`, `allocatedInMap_mapFree`), and the words they
access are those from the first bit to the one behind the range
(`Traced.range_touched`).
-/
import Mathlib.Logic.Function.Basic
import Mathlib.Tactic

namespace Librettos.Bitmap

open BitVec Bool Nat
open Function (update update_of_ne update_self)

/-- `PAGES_PER_MAPWORD`. -/
def pagesPerMapword : Nat := 64

/-- The words of `alloc_bitmap`. -/
abbrev Words := Nat → BitVec 64

/-- The test of `allocated_in_map`, by page number. -/
def allocatedInMap (m : Words) (pagenum : Nat) : Bool :=
  (m (pagenum / pagesPerMapword) &&& (1#64 <<< (pagenum % pagesPerMapword))) != 0#64

/-- The loop over the words strictly between the first and the last one: `n` words
from `i` on become `w`. -/
def fill (w : BitVec 64) : Nat → Nat → Words → Words
  | 0, _, m => m
  | n + 1, i, m => fill w n (i + 1) (update m i w)

/-- `map_alloc`, by page number. -/
def mapAlloc (m : Words) (firstPage nrPages : Nat) : Words :=
  let currIdx := firstPage / pagesPerMapword
  let start := firstPage % pagesPerMapword
  let endIdx := (firstPage + nrPages) / pagesPerMapword
  let fin := (firstPage + nrPages) % pagesPerMapword
  if currIdx = endIdx then
    update m currIdx (m currIdx ||| (((1#64 <<< fin) - 1#64) &&& -(1#64 <<< start)))
  else
    let m₁ := update m currIdx (m currIdx ||| -(1#64 <<< start))
    let m₂ := fill (~~~0#64) (endIdx - (currIdx + 1)) (currIdx + 1) m₁
    update m₂ endIdx (m₂ endIdx ||| ((1#64 <<< fin) - 1#64))

/-- `map_free`, by page number. -/
def mapFree (m : Words) (firstPage nrPages : Nat) : Words :=
  let currIdx := firstPage / pagesPerMapword
  let start := firstPage % pagesPerMapword
  let endIdx := (firstPage + nrPages) / pagesPerMapword
  let fin := (firstPage + nrPages) % pagesPerMapword
  if currIdx = endIdx then
    update m currIdx (m currIdx &&& (-(1#64 <<< fin) ||| ((1#64 <<< start) - 1#64)))
  else
    let m₁ := update m currIdx (m currIdx &&& ((1#64 <<< start) - 1#64))
    let m₂ := fill 0#64 (endIdx - (currIdx + 1)) (currIdx + 1) m₁
    update m₂ endIdx (m₂ endIdx &&& -(1#64 <<< fin))

/-! ## Masks -/

theorem toNat_one_shiftLeft {n : Nat} (hn : n < 64) : (1#64 <<< n).toNat = 2 ^ n := by
  have hp : 2 ^ n < 2 ^ 64 := Nat.pow_lt_pow_right (by decide) hn
  rw [toNat_shiftLeft, toNat_ofNat, Nat.shiftLeft_eq, Nat.one_mod_two_pow_eq_one.mpr (by decide),
    one_mul, mod_eq_of_lt hp]

/-- `(1<<n)-1` has the bits below `n`. -/
theorem getLsbD_low {n i : Nat} (hn : n < 64) :
    ((1#64 <<< n) - 1#64).getLsbD i = decide (i < n) := by
  have hp1 : 0 < 2 ^ n := Nat.two_pow_pos n
  have h : ((1#64 <<< n) - 1#64).toNat = 2 ^ n - 1 := by
    have hp : 2 ^ n < 2 ^ 64 := Nat.pow_lt_pow_right (by decide) hn
    rw [toNat_sub, toNat_one_shiftLeft hn, toNat_ofNat]
    omega
  rw [getLsbD, h, testBit_two_pow_sub_one]

/-- `-(1<<n)` has the bits from `n` on. -/
theorem getLsbD_high {n i : Nat} (hn : n < 64) (hi : i < 64) :
    (-(1#64 <<< n)).getLsbD i = decide (n ≤ i) := by
  have h : -(1#64 <<< n) = ~~~((1#64 <<< n) - 1#64) := by
    rw [neg_eq_not_add, not_sub_eq_not_add]
  rw [h, getLsbD_not, getLsbD_low hn]
  simp only [hi, decide_true, Bool.true_and, ← decide_not, not_lt]

theorem allocatedInMap_eq (m : Words) (p : Nat) :
    allocatedInMap m p = (m (p / 64)).getLsbD (p % 64) := by
  have hlt : p % 64 < 64 := mod_lt _ (by decide)
  unfold allocatedInMap pagesPerMapword
  rw [← twoPow_eq]
  rw [Bool.eq_iff_iff, bne_iff_ne]
  constructor
  · intro h
    by_contra hb
    apply h
    apply eq_of_getLsbD_eq
    intro i hi
    rw [getLsbD_and, getLsbD_twoPow]
    by_cases hip : p % 64 = i
    · subst hip; simp_all
    · simp [hip]
  · intro hb h
    have hbit := congrArg (fun w => w.getLsbD (p % 64)) h
    simp only [getLsbD_and, getLsbD_twoPow, hb, hlt, decide_true, Bool.and_self,
      getLsbD_zero, true_eq_false] at hbit

theorem fill_apply (w : BitVec 64) : ∀ (n i : Nat) (m : Words) (j : Nat),
    fill w n i m j = if i ≤ j ∧ j < i + n then w else m j
  | 0, i, m, j => by
    rw [fill, if_neg (by omega)]
  | n + 1, i, m, j => by
    rw [fill, fill_apply w n (i + 1)]
    by_cases hj : j = i
    · subst hj
      rw [if_neg (by omega), if_pos (by omega), update_self]
    · rw [update_of_ne hj]
      by_cases h : i ≤ j ∧ j < i + (n + 1)
      · rw [if_pos h, if_pos (by omega)]
      · rw [if_neg h, if_neg (by omega)]

/-! ## The two range updates -/

theorem allocatedInMap_mapAlloc (m : Words) (first nr p : Nat) :
    allocatedInMap (mapAlloc m first nr) p = true ↔
      allocatedInMap m p = true ∨ first ≤ p ∧ p < first + nr := by
  have hs : first % 64 < 64 := mod_lt _ (by decide)
  have he : (first + nr) % 64 < 64 := mod_lt _ (by decide)
  have hp : p % 64 < 64 := mod_lt _ (by decide)
  rw [allocatedInMap_eq, allocatedInMap_eq]
  unfold mapAlloc pagesPerMapword
  simp only
  split
  · next hci =>
    by_cases hw : p / 64 = first / 64
    · rw [hw, update_self, getLsbD_or, getLsbD_and, getLsbD_low he,
        getLsbD_high hs hp, or_eq_true, and_eq_true, decide_eq_true_iff, decide_eq_true_iff]
      exact or_congr_right (by omega)
    · rw [update_of_ne hw]
      exact (or_iff_left (by omega)).symm
  · next hci =>
    by_cases hlast : p / 64 = (first + nr) / 64
    · rw [hlast, update_self, getLsbD_or, getLsbD_low he, fill_apply,
        if_neg (by omega), update_of_ne (by omega), or_eq_true, decide_eq_true_iff]
      exact or_congr_right (by omega)
    · rw [update_of_ne hlast, fill_apply]
      split
      · -- a word in between
        have hr : first ≤ p ∧ p < first + nr := by omega
        rw [getLsbD_not, getLsbD_zero]
        simp [hp, hr]
      · by_cases hw : p / 64 = first / 64
        · rw [hw, update_self, getLsbD_or, getLsbD_high hs hp, or_eq_true, decide_eq_true_iff]
          exact or_congr_right (by omega)
        · rw [update_of_ne hw]
          exact (or_iff_left (by omega)).symm

theorem allocatedInMap_mapFree (m : Words) (first nr p : Nat) :
    allocatedInMap (mapFree m first nr) p = true ↔
      allocatedInMap m p = true ∧ ¬ (first ≤ p ∧ p < first + nr) := by
  have hs : first % 64 < 64 := mod_lt _ (by decide)
  have he : (first + nr) % 64 < 64 := mod_lt _ (by decide)
  have hp : p % 64 < 64 := mod_lt _ (by decide)
  rw [allocatedInMap_eq, allocatedInMap_eq]
  unfold mapFree pagesPerMapword
  simp only
  split
  · next hci =>
    by_cases hw : p / 64 = first / 64
    · rw [hw, update_self, getLsbD_and, getLsbD_or, getLsbD_low hs,
        getLsbD_high he hp, and_eq_true, or_eq_true, decide_eq_true_iff, decide_eq_true_iff]
      exact and_congr_right fun _ => by omega
    · rw [update_of_ne hw]
      exact (and_iff_left (by omega)).symm
  · next hci =>
    by_cases hlast : p / 64 = (first + nr) / 64
    · rw [hlast, update_self, getLsbD_and, getLsbD_high he hp, fill_apply,
        if_neg (by omega), update_of_ne (by omega), and_eq_true, decide_eq_true_iff]
      exact and_congr_right fun _ => by omega
    · rw [update_of_ne hlast, fill_apply]
      split
      · -- a word in between
        have hr : first ≤ p ∧ p < first + nr := by omega
        simp [hr]
      · by_cases hw : p / 64 = first / 64
        · rw [hw, update_self, getLsbD_and, getLsbD_low hs, and_eq_true, decide_eq_true_iff]
          exact and_congr_right fun _ => by omega
        · rw [update_of_ne hw]
          exact (and_iff_left (by omega)).symm

/-! ## The words that are accessed -/

/-- The bitmap, with the indices of the words that were read or written. -/
structure Traced where
  words : Words
  touched : List Nat

namespace Traced

/-- `alloc_bitmap[i] = f(alloc_bitmap[i])` -/
def modify (f : BitVec 64 → BitVec 64) (i : Nat) (b : Traced) : Traced where
  words := update b.words i (f (b.words i))
  touched := i :: b.touched

/-- The loop over the words strictly between the first and the last one. -/
def fill (w : BitVec 64) : Nat → Nat → Traced → Traced
  | 0, _, b => b
  | n + 1, i, b => fill w n (i + 1) (b.modify (fun _ => w) i)

/-- What `map_alloc` and `map_free` have in common: `one` for a range inside a word, else `first`,
`mid` and `last`. -/
def range (one first last : BitVec 64 → BitVec 64) (mid : BitVec 64) (b : Traced)
    (firstPage nrPages : Nat) : Traced :=
  let currIdx := firstPage / pagesPerMapword
  let endIdx := (firstPage + nrPages) / pagesPerMapword
  if currIdx = endIdx then b.modify one currIdx
  else (fill mid (endIdx - (currIdx + 1)) (currIdx + 1) (b.modify first currIdx)).modify last endIdx

/-- `map_alloc`, with the words it accesses. -/
def mapAlloc (b : Traced) (firstPage nrPages : Nat) : Traced :=
  let start := firstPage % pagesPerMapword
  let fin := (firstPage + nrPages) % pagesPerMapword
  b.range (· ||| (((1#64 <<< fin) - 1#64) &&& -(1#64 <<< start))) (· ||| -(1#64 <<< start))
    (· ||| ((1#64 <<< fin) - 1#64)) (~~~0#64) firstPage nrPages

/-- `map_free`, with the words it accesses. -/
def mapFree (b : Traced) (firstPage nrPages : Nat) : Traced :=
  let start := firstPage % pagesPerMapword
  let fin := (firstPage + nrPages) % pagesPerMapword
  b.range (· &&& (-(1#64 <<< fin) ||| ((1#64 <<< start) - 1#64))) (· &&& ((1#64 <<< start) - 1#64))
    (· &&& -(1#64 <<< fin)) 0#64 firstPage nrPages

theorem fill_words (w : BitVec 64) (n i : Nat) (b : Traced) :
    (fill w n i b).words = Bitmap.fill w n i b.words := by
  induction n generalizing i b with
  | zero => rfl
  | succ n ih =>
    rw [fill, ih]
    rfl

theorem fill_touched (w : BitVec 64) (n i : Nat) (b : Traced) :
    ∀ j ∈ (fill w n i b).touched, j ∈ b.touched ∨ i ≤ j ∧ j < i + n := by
  induction n generalizing i b with
  | zero => exact fun j hj => .inl hj
  | succ n ih =>
    intro j hj
    rcases ih (i + 1) _ j hj with h | h
    · rcases List.mem_cons.mp h with rfl | h
      · exact .inr ⟨le_rfl, by omega⟩
      · exact .inl h
    · exact .inr ⟨by omega, by omega⟩

/-- The words of a range, up to the one of the first page behind it. -/
theorem range_touched {one first last : BitVec 64 → BitVec 64} {mid : BitVec 64} {b : Traced}
    {firstPage nrPages : Nat} :
    ∀ j ∈ (b.range one first last mid firstPage nrPages).touched,
      j ∈ b.touched ∨ firstPage / 64 ≤ j ∧ j ≤ (firstPage + nrPages) / 64 := by
  have hle : firstPage / 64 ≤ (firstPage + nrPages) / 64 := Nat.div_le_div_right (Nat.le_add_right _ _)
  intro j hj
  unfold range pagesPerMapword at hj
  simp only at hj
  split at hj
  next =>
    rcases List.mem_cons.mp hj with rfl | h
    · exact .inr ⟨le_rfl, hle⟩
    · exact .inl h
  next =>
    rcases List.mem_cons.mp hj with rfl | h
    · exact .inr ⟨hle, le_rfl⟩
    · rcases fill_touched _ _ _ _ j h with h | h
      · rcases List.mem_cons.mp h with rfl | h
        · exact .inr ⟨le_rfl, hle⟩
        · exact .inl h
      · exact .inr (by omega)

theorem mapAlloc_words (b : Traced) (firstPage nrPages : Nat) :
    (b.mapAlloc firstPage nrPages).words = Bitmap.mapAlloc b.words firstPage nrPages := by
  unfold mapAlloc range Bitmap.mapAlloc
  simp only
  split
  · rfl
  · simp only [modify, fill_words]

theorem mapFree_words (b : Traced) (firstPage nrPages : Nat) :
    (b.mapFree firstPage nrPages).words = Bitmap.mapFree b.words firstPage nrPages := by
  unfold mapFree range Bitmap.mapFree
  simp only
  split
  · rfl
  · simp only [modify, fill_words]

end Traced

end Librettos.Bitmap
