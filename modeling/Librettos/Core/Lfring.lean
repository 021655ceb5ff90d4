/-
# `Core.Lfring` — the lock-free ring of `lfring.h`, and what its words stand for

`lfring_enqueue` and `lfring_dequeue` work on an array of 64-bit words.  A word
packs an index in its low bits, a safe bit above it, and the cycle of the
position it was written for in the rest; the positions are spread over the array
by a permutation that keeps neighbours on different cache lines.

The functions are given as the source computes them, on `BitVec 64`, one control
point for each atomic operation (`go`).  The words are then decoded (`Fld`,
`RelE`) and every operation is shown to be one of the ideal ring of `Lib.Scq`
(`go_sim`), as long as the counters stay below `2 ^ 62`.

**Proved here.** `map_eq_iff` and `lfring_bijective` (the permutation), `go_sim` (the simulation),
`rel_initEmpty` and `rel_initFull` (what the two initialisations stand for).
-/
import Librettos.Lib.ScqInv
import Mathlib.Data.Nat.Bitwise

namespace Librettos.Lfring

open List Nat
open Function (update update_of_ne update_self)
open Scq (Ret)

/-- `lfatomic_t` and `size_t`. -/
abbrev Word := BitVec 64

/-- The points of the two functions, with their local variables. -/
abbrev Pc := Scq.Pc Word Word

/-! ## The source -/

/-- `LFRING_MIN`: the cache line of `1 << 7` bytes holds `1 << 4` words. -/
def lfringMin : ℕ := 7 - 3

/-- `__lfring_cmp(x, <, y)`: by the sign of the difference. -/
def cmpLt (x y : Word) : Bool := (x - y).slt 0

/-- `__lfring_cmp(x, <=, y)`. -/
def cmpLe (x y : Word) : Bool := (x - y).sle 0

/-- `__lfring_cmp(x, >=, y)`. -/
def cmpGe (x y : Word) : Bool := BitVec.sle 0 (x - y)

def rawMap (idx : Word) (order : ℕ) (n : Word) : Word :=
  ((idx &&& (n - 1)) >>> (order - lfringMin)) ||| ((idx <<< lfringMin) &&& (n - 1))

def map (idx : Word) (order : ℕ) (n : Word) : Word := rawMap idx (order + 1) n

def threshold3 (half n : Word) : Word := half + n - 1

def pow2 (order : ℕ) : Word := 1#64 <<< order

/-- `struct __lfring`; only the first `2 ^ (order + 1)` entries of the array
belong to it. -/
structure Ring where
  head : Word
  threshold : Word
  tail : Word
  array : Word → Word

def Ring.write (q : Ring) (i w : Word) : Ring := { q with array := update q.array i w }

def initEmpty : Ring where
  head := 0
  threshold := -1
  tail := 0
  array := fun _ => -1

/-- The two loops of `lfring_init_full` over `i`, writing the entry of position
`i`. -/
def fullArray (order : ℕ) (array : Word → Word) : Word → Word :=
  let half := pow2 order
  let n := half * 2
  (List.range n.toNat).foldl (fun a i =>
    update a (map (BitVec.ofNat 64 i) order n)
      (if i < half.toNat then rawMap (n + BitVec.ofNat 64 i) order half else -1)) array

def initFull (order : ℕ) (array : Word → Word) : Ring where
  head := 0
  threshold := threshold3 (pow2 order) (pow2 order * 2)
  tail := pow2 order
  array := fullArray order array

/-- The label `retry` of `lfring_enqueue`: which way the condition on the entry
goes, up to the load of `head` that one of its cases needs. -/
def retry (order eidx : ℕ) (tail entry : Word) : Pc :=
  let n := pow2 order * 2
  let tcycle := (tail <<< 1) ||| (2 * n - 1)
  let ecycle := entry ||| (2 * n - 1)
  if cmpLt ecycle tcycle then
    if entry = ecycle then .enqCas eidx tail entry
    else if entry = ecycle ^^^ n then .enqHead eidx tail entry
    else .enq eidx
  else .enq eidx

/-- The body of the inner loop of `lfring_dequeue`, up to its next atomic
operation. -/
def inspect (order : ℕ) (head entry : Word) : Pc :=
  let n := pow2 (order + 1)
  let hcycle := (head <<< 1) ||| (2 * n - 1)
  let ecycle := entry ||| (2 * n - 1)
  if ecycle = hcycle then .deqOr head entry
  else if (entry ||| n) ≠ ecycle then
    let entryNew := entry &&& ~~~n
    if entry = entryNew then .deqTail head
    else if cmpLt ecycle hcycle then .deqCas head entry entryNew else .deqTail head
  else
    let entryNew := hcycle ^^^ (~~~entry &&& n)
    if cmpLt ecycle hcycle then .deqCas head entry entryNew else .deqTail head

/-- The next atomic operation of a caller of `lfring_enqueue(ring, order, eidx,
nonempty)` or `lfring_dequeue(ring, order, nonempty)`, with `__lfring_catchup`
inlined.  A weak compare-exchange may `fail` without a cause. -/
def go (order : ℕ) (nonempty : Bool) (q : Ring) (fail : Bool) : Pc → Option (Ring × Pc)
  | .idle _ => none
  -- lfring_enqueue
  | .enq eidx => some ({ q with tail := q.tail + 1 }, .enqLoad eidx q.tail)
  | .enqLoad eidx tail =>
    some (q, retry order eidx tail (q.array (map tail order (pow2 order * 2))))
  | .enqHead eidx tail entry =>
    some (q, if cmpLe q.head tail then .enqCas eidx tail entry else .enq eidx)
  | .enqCas eidx tail entry =>
    let n := pow2 order * 2
    let tcycle := (tail <<< 1) ||| (2 * n - 1)
    let tidx := map tail order n
    if fail = false ∧ q.array tidx = entry then
      some (q.write tidx (tcycle ^^^ (BitVec.ofNat 64 eidx ^^^ (n - 1))), .enqThr tail)
    else some (q, retry order eidx tail (q.array tidx))
  | .enqThr tail =>
    some (q, if nonempty = false ∧ q.threshold ≠ threshold3 (pow2 order) (pow2 order * 2)
      then .enqStore tail else .idle .enqueued)
  | .enqStore _ =>
    some ({ q with threshold := threshold3 (pow2 order) (pow2 order * 2) }, .idle .enqueued)
  -- lfring_dequeue
  | .deq =>
    some (q, if nonempty = false ∧ q.threshold.slt 0 then .idle .empty else .deqAdd)
  | .deqAdd => some ({ q with head := q.head + 1 }, .deqLoad q.head)
  | .deqLoad head => some (q, inspect order head (q.array (map head order (pow2 (order + 1)))))
  | .deqOr head entry =>
    let n := pow2 (order + 1)
    let hidx := map head order n
    some (q.write hidx (q.array hidx ||| (n - 1)), .idle (.value (entry &&& (n - 1)).toNat))
  | .deqCas head entry entryNew =>
    let hidx := map head order (pow2 (order + 1))
    if fail = false ∧ q.array hidx = entry then
      some (q.write hidx entryNew, .deqTail head)
    else some (q, inspect order head (q.array hidx))
  | .deqTail head =>
    if nonempty then some (q, .deqAdd)
    else some (q, if cmpLe q.tail (head + 1) then .catchCas q.tail (head + 1) else .deqLoop)
  | .catchCas tail head =>
    if fail = false ∧ q.tail = tail then some ({ q with tail := head }, .deqSub)
    else some (q, .catchHead)
  | .catchHead => some (q, .catchTail q.head)
  | .catchTail head =>
    some (q, if cmpGe q.tail head then .deqSub else .catchCas q.tail head)
  | .deqSub => some ({ q with threshold := q.threshold - 1 }, .idle .empty)
  | .deqLoop =>
    some ({ q with threshold := q.threshold - 1 },
      if q.threshold.sle 0 then .idle .empty else .deqAdd)

/-! ## The fields of a word -/

/-- A word with index field `i`, safe bit `s` and cycle `c`. -/
structure Fld (o : ℕ) (w : Word) (i s c : ℕ) : Prop where
  idx : w.toNat % 2 ^ (o + 1) = i
  safe : w.toNat / 2 ^ (o + 1) % 2 ^ 1 = s
  cyc : w.toNat / 2 ^ (o + 2) = c

section
variable {o : ℕ} {w w' : Word} {i i' s s' c c' : ℕ}

section
variable (h : Fld o w i s c)
include h

theorem Fld.or (h' : Fld o w' i' s' c') : Fld o (w ||| w') (i ||| i') (s ||| s') (c ||| c') where
  idx := by rw [BitVec.toNat_or, or_mod_two_pow, h.idx, h'.idx]
  safe := by rw [BitVec.toNat_or, or_div_two_pow, or_mod_two_pow, h.safe, h'.safe]
  cyc := by rw [BitVec.toNat_or, or_div_two_pow, h.cyc, h'.cyc]

theorem Fld.and (h' : Fld o w' i' s' c') : Fld o (w &&& w') (i &&& i') (s &&& s') (c &&& c') where
  idx := by rw [BitVec.toNat_and, and_mod_two_pow, h.idx, h'.idx]
  safe := by rw [BitVec.toNat_and, and_div_two_pow, and_mod_two_pow, h.safe, h'.safe]
  cyc := by rw [BitVec.toNat_and, and_div_two_pow, h.cyc, h'.cyc]

theorem Fld.xor (h' : Fld o w' i' s' c') : Fld o (w ^^^ w') (i ^^^ i') (s ^^^ s') (c ^^^ c') where
  idx := by rw [BitVec.toNat_xor, xor_mod_two_pow, h.idx, h'.idx]
  safe := by rw [BitVec.toNat_xor, xor_div_two_pow, xor_mod_two_pow, h.safe, h'.safe]
  cyc := by rw [BitVec.toNat_xor, xor_div_two_pow, h.cyc, h'.cyc]

theorem Fld.toNat : w.toNat = c * 2 ^ (o + 2) + s * 2 ^ (o + 1) + i := by
  have h1 := div_add_mod w.toNat (2 ^ (o + 1))
  have h2 := div_add_mod (w.toNat / 2 ^ (o + 1)) 2
  have h3 : w.toNat / 2 ^ (o + 1) / 2 = c := by
    rw [Nat.div_div_eq_div_mul, ← pow_succ]
    exact h.cyc
  have h4 := h.safe
  rw [pow_one] at h4
  rw [h.idx] at h1
  rw [h3, h4] at h2
  rw [← h1, ← h2]
  ring

theorem Fld.inj (h' : Fld o w' i' s' c') : w = w' ↔ i = i' ∧ s = s' ∧ c = c' := by
  constructor
  · rintro rfl
    exact ⟨h.idx.symm.trans h'.idx, h.safe.symm.trans h'.safe, h.cyc.symm.trans h'.cyc⟩
  · rintro ⟨rfl, rfl, rfl⟩
    exact BitVec.eq_of_toNat_eq (h.toNat.trans h'.toNat.symm)

theorem Fld.idx_lt : i < 2 ^ (o + 1) := h.idx ▸ Nat.mod_lt _ (Nat.two_pow_pos _)

theorem Fld.safe_lt : s < 2 := h.safe ▸ Nat.mod_lt _ (Nat.two_pow_pos _)

theorem Fld.cyc_lt (ho : o ≤ 62) : c < 2 ^ (62 - o) := by
  rw [← h.cyc]
  refine Nat.div_lt_of_lt_mul ?_
  rw [← pow_add, show o + 2 + (62 - o) = 64 by omega]
  exact w.isLt

end

theorem Fld.of_toNat (hi : i < 2 ^ (o + 1)) (hs : s < 2)
    (h : w.toNat = c * 2 ^ (o + 2) + s * 2 ^ (o + 1) + i) : Fld o w i s c := by
  have hp : 2 ^ (o + 2) = 2 * 2 ^ (o + 1) := by ring
  have hdiv : w.toNat / 2 ^ (o + 1) = 2 * c + s := by
    rw [h, hp, show c * (2 * 2 ^ (o + 1)) + s * 2 ^ (o + 1) + i = i + 2 ^ (o + 1) * (2 * c + s) by ring,
      Nat.add_mul_div_left _ _ (Nat.two_pow_pos _), Nat.div_eq_of_lt hi, Nat.zero_add]
  constructor
  · rw [h, hp, show c * (2 * 2 ^ (o + 1)) + s * 2 ^ (o + 1) + i = i + 2 ^ (o + 1) * (2 * c + s) by ring,
      add_mul_mod_self_left, mod_eq_of_lt hi]
  · rw [hdiv]
    omega
  · rw [show o + 2 = (o + 1) + 1 by rfl, pow_succ, ← Nat.div_div_eq_div_mul, hdiv]
    omega

end

/-! ## The constants -/

section
variable {o : ℕ}

theorem pow2_toNat (ho : o ≤ 63) : (pow2 o).toNat = 2 ^ o := by
  have h : 2 ^ o < 2 ^ 64 := Nat.pow_lt_pow_right (by decide) (by omega)
  rw [pow2, BitVec.toNat_shiftLeft, shiftLeft_eq]
  show 1 * 2 ^ o % 2 ^ 64 = 2 ^ o
  rw [one_mul, mod_eq_of_lt h]

theorem pow2_mul_two (o : ℕ) : pow2 o * 2 = pow2 (o + 1) := by
  apply BitVec.eq_of_toNat_eq
  simp [pow2, BitVec.toNat_mul, shiftLeft_eq, pow_succ]

theorem low_toNat (ho : o ≤ 63) : (pow2 o - 1 : Word).toNat = 2 ^ o - 1 := by
  have hpos := Nat.two_pow_pos o
  rw [BitVec.toNat_sub_of_le (by rw [BitVec.le_def, pow2_toNat ho]; show 1 ≤ _; omega),
    pow2_toNat ho]
  rfl

variable (ho : o ≤ 61)
include ho

theorem two_pow_le : 2 ^ (o + 2) ≤ 2 ^ 63 := Nat.pow_le_pow_right (by decide) (by omega)

theorem mask_toNat : (2 * pow2 (o + 1) - 1 : Word).toNat = 2 ^ (o + 2) - 1 := by
  have h := two_pow_le ho
  have hpos := Nat.two_pow_pos (o + 1)
  have h2 : 2 ^ (o + 2) = 2 * 2 ^ (o + 1) := by ring
  have h1 : (2 * pow2 (o + 1) : Word).toNat = 2 ^ (o + 2) := by
    rw [BitVec.toNat_mul, pow2_toNat (by omega), h2]
    show 2 * 2 ^ (o + 1) % 2 ^ 64 = _
    exact mod_eq_of_lt (by omega)
  rw [BitVec.toNat_sub_of_le (by rw [BitVec.le_def, h1]; show 1 ≤ _; omega), h1]
  rfl

theorem fld_mask : Fld o (2 * pow2 (o + 1) - 1) (2 ^ (o + 1) - 1) 1 0 := by
  have hpos := Nat.two_pow_pos (o + 1)
  refine Fld.of_toNat (by omega) (by decide) ?_
  rw [mask_toNat ho]
  have h2 : 2 ^ (o + 2) = 2 * 2 ^ (o + 1) := by ring
  omega

theorem fld_n : Fld o (pow2 (o + 1)) 0 1 0 :=
  Fld.of_toNat (Nat.two_pow_pos _) (by decide) (by rw [pow2_toNat (by omega)]; ring)

theorem fld_low : Fld o (pow2 (o + 1) - 1) (2 ^ (o + 1) - 1) 0 0 := by
  have hpos := Nat.two_pow_pos (o + 1)
  refine Fld.of_toNat (by omega) (by decide) ?_
  rw [low_toNat (by omega)]
  omega

theorem fld_ones : Fld o (BitVec.allOnes 64) (2 ^ (o + 1) - 1) 1 (2 ^ (62 - o) - 1) := by
  have hpos := Nat.two_pow_pos (o + 1)
  have hpos' := Nat.two_pow_pos (62 - o)
  refine Fld.of_toNat (by omega) (by decide) ?_
  have h1 : 2 ^ (62 - o) * 2 ^ (o + 2) = 2 ^ 64 := by
    rw [← pow_add, show 62 - o + (o + 2) = 64 by omega]
  have h2 : 2 ^ (o + 2) = 2 * 2 ^ (o + 1) := by ring
  rw [BitVec.toNat_allOnes, Nat.sub_mul, h1, h2]
  have h3 : 2 * 2 ^ (o + 1) ≤ 2 ^ 64 := by rw [← h2, ← h1]; exact Nat.le_mul_of_pos_left _ hpos'
  omega

theorem fld_not {w : Word} {i s c : ℕ} (h : Fld o w i s c) :
    Fld o (~~~w) (i ^^^ (2 ^ (o + 1) - 1)) (s ^^^ 1) (c ^^^ (2 ^ (62 - o) - 1)) := by
  rw [← BitVec.xor_allOnes]
  exact h.xor (fld_ones ho)

omit ho in
theorem or_ones {m i : ℕ} (hi : i < 2 ^ m) : i ||| (2 ^ m - 1) = 2 ^ m - 1 := by
  apply eq_of_testBit_eq
  intro j
  rw [testBit_or, testBit_two_pow_sub_one]
  rcases lt_or_ge j m with hj | hj
  · simp [hj]
  · rw [Nat.testBit_lt_two_pow (hi.trans_le (Nat.pow_le_pow_right (by decide) hj))]
    simp

omit ho in
theorem and_ones {m i : ℕ} (hi : i < 2 ^ m) : i &&& (2 ^ m - 1) = i := by
  rw [and_two_pow_sub_one_eq_mod, mod_eq_of_lt hi]

/-- A word with its low bits set, as `ecycle`. -/
theorem Fld.ecycle {w : Word} {i s c : ℕ} (h : Fld o w i s c) :
    Fld o (w ||| (2 * pow2 (o + 1) - 1)) (2 ^ (o + 1) - 1) 1 c := by
  have h' := h.or (fld_mask ho)
  rw [or_ones h.idx_lt, or_zero] at h'
  have hs := h.safe_lt
  obtain rfl | rfl : s = 0 ∨ s = 1 := by omega
  · exact h'
  · exact h'

/-- A position with its low bits set, as `tcycle` and `hcycle`. -/
theorem fld_cycle {k : Word} (hk : k.toNat < 2 ^ 62) :
    Fld o ((k <<< 1) ||| (2 * pow2 (o + 1) - 1)) (2 ^ (o + 1) - 1) 1 (k.toNat / 2 ^ (o + 1)) := by
  have h : Fld o (k <<< 1) _ _ _ := ⟨rfl, rfl, rfl⟩
  have h' := h.ecycle ho
  have hc : (k <<< 1).toNat / 2 ^ (o + 2) = k.toNat / 2 ^ (o + 1) := by
    rw [BitVec.toNat_shiftLeft, Nat.shiftLeft_eq, pow_one, Nat.mod_eq_of_lt (by omega),
      show o + 2 = (o + 1) + 1 by rfl, pow_succ, Nat.mul_div_mul_right _ _ (by decide)]
  rwa [hc] at h'

end

/-! ## Comparing counters -/

section
variable {x y : Word} (hx : x.toNat < 2 ^ 63) (hy : y.toNat < 2 ^ 63)
include hx hy

theorem toInt_sub_of_lt : (x - y).toInt = (x.toNat : ℤ) - y.toNat := by
  rw [BitVec.toInt_eq_toNat_cond, BitVec.toNat_sub]
  split <;> omega

theorem cmpLt_iff : cmpLt x y = true ↔ x.toNat < y.toNat := by
  rw [cmpLt, BitVec.slt_eq_decide, decide_eq_true_iff, toInt_sub_of_lt hx hy]
  show _ < (0 : ℤ) ↔ _
  omega

theorem cmpLe_iff : cmpLe x y = true ↔ x.toNat ≤ y.toNat := by
  rw [cmpLe, BitVec.sle_eq_decide, decide_eq_true_iff, toInt_sub_of_lt hx hy]
  show _ ≤ (0 : ℤ) ↔ _
  omega

theorem cmpGe_iff : cmpGe x y = true ↔ y.toNat ≤ x.toNat := by
  rw [cmpGe, BitVec.sle_eq_decide, decide_eq_true_iff, toInt_sub_of_lt hx hy]
  show (0 : ℤ) ≤ _ ↔ _
  omega

end

/-- The word of a slot never used compares below every position. -/
theorem cmpLt_ones {y : Word} (hy : y.toNat < 2 ^ 63) : cmpLt (BitVec.allOnes 64) y = true := by
  have h : (BitVec.allOnes 64 - y).toInt < 0 := by
    rw [BitVec.toInt_eq_toNat_cond, BitVec.toNat_sub, BitVec.toNat_allOnes]
    split <;> omega
  rw [cmpLt, BitVec.slt_eq_decide, decide_eq_true_iff]
  exact h

/-! ## The permutation of the slots -/

section
variable {m : ℕ} (hmin : lfringMin ≤ m) (hm : m ≤ 63)
include hmin

theorem two_pow_split : 2 ^ m = 2 ^ (m - lfringMin) * 2 ^ lfringMin := by
  rw [← pow_add, Nat.sub_add_cancel hmin]

theorem mod_div_lt (a : ℕ) : a % 2 ^ m / 2 ^ (m - lfringMin) < 2 ^ lfringMin := by
  refine Nat.div_lt_of_lt_mul ?_
  rw [← two_pow_split hmin]
  exact Nat.mod_lt _ (Nat.two_pow_pos _)

include hm

/-- The map rotates the low `m` bits. -/
theorem rawMap_toNat (w : Word) :
    (rawMap w m (pow2 m)).toNat
      = w.toNat % 2 ^ m / 2 ^ (m - lfringMin) + w.toNat % 2 ^ (m - lfringMin) * 2 ^ lfringMin := by
  have hhigh : w.toNat * 2 ^ lfringMin % 2 ^ 64 % 2 ^ m
      = w.toNat % 2 ^ (m - lfringMin) * 2 ^ lfringMin := by
    rw [mod_mod_of_dvd _ (pow_dvd_pow 2 (by omega)), two_pow_split hmin]
    exact mul_mod_mul_right _ _ _
  rw [rawMap, BitVec.toNat_or, BitVec.toNat_ushiftRight, BitVec.toNat_and, BitVec.toNat_and,
    low_toNat hm, and_two_pow_sub_one_eq_mod, and_two_pow_sub_one_eq_mod,
    Nat.shiftRight_eq_div_pow, BitVec.toNat_shiftLeft, Nat.shiftLeft_eq, hhigh, Nat.or_comm,
    mul_comm, ← two_pow_add_eq_or_of_lt (mod_div_lt hmin _), add_comm, mul_comm]

theorem rawMap_lt (w : Word) : (rawMap w m (pow2 m)).toNat < 2 ^ m := by
  have h1 := mod_div_lt hmin w.toNat
  have h2 : w.toNat % 2 ^ (m - lfringMin) + 1 ≤ 2 ^ (m - lfringMin) :=
    Nat.mod_lt _ (Nat.two_pow_pos _)
  have h3 := mul_le_mul_right (2 ^ lfringMin) h2
  rw [rawMap_toNat hmin hm, two_pow_split hmin]
  rw [add_mul, one_mul] at h3
  rw [two_pow_split hmin] at h1
  omega

theorem rawMap_eq_iff (w w' : Word) :
    rawMap w m (pow2 m) = rawMap w' m (pow2 m) ↔ w.toNat % 2 ^ m = w'.toNat % 2 ^ m := by
  have hmod : ∀ v : Word, v.toNat % 2 ^ (m - lfringMin)
      = v.toNat % 2 ^ m % 2 ^ (m - lfringMin) := fun v => by
    rw [mod_mod_of_dvd _ (pow_dvd_pow 2 (by omega))]
  rw [← BitVec.toNat_inj, rawMap_toNat hmin hm, rawMap_toNat hmin hm]
  constructor
  · intro h
    have h1 := mod_div_lt hmin w.toNat
    have h2 := mod_div_lt hmin w'.toNat
    rw [← div_add_mod (w.toNat % 2 ^ m) (2 ^ (m - lfringMin)),
      ← div_add_mod (w'.toNat % 2 ^ m) (2 ^ (m - lfringMin)), ← hmod, ← hmod]
    generalize w.toNat % 2 ^ m / 2 ^ (m - lfringMin) = a at *
    generalize w'.toNat % 2 ^ m / 2 ^ (m - lfringMin) = a' at *
    generalize w.toNat % 2 ^ (m - lfringMin) = b at *
    generalize w'.toNat % 2 ^ (m - lfringMin) = b' at *
    have h16 : 2 ^ lfringMin = 16 := rfl
    rw [h16] at h h1 h2
    obtain ⟨rfl, rfl⟩ : a = a' ∧ b = b' := by omega
    rfl
  · intro h
    rw [hmod w, hmod w', h]

end

/-- **Two positions share an entry exactly when they share a slot.** -/
theorem map_eq_iff {o : ℕ} (hmin : lfringMin ≤ o) (ho : o ≤ 62) (w w' : Word) :
    map w o (pow2 (o + 1)) = map w' o (pow2 (o + 1)) ↔
      w.toNat % 2 ^ (o + 1) = w'.toNat % 2 ^ (o + 1) :=
  rawMap_eq_iff (by omega) (by omega) w w'

/-! ## The entry a word stands for -/

/-- The cycle field of an entry: all ones in a slot never used. -/
def cyc (o : ℕ) (e : Scq.Entry) : ℕ :=
  if e.stamp = 0 then 2 ^ (62 - o) - 1 else (e.stamp - 1) / 2 ^ (o + 1)

/-- The word `w` of slot `j` stands for the entry `e`. -/
structure RelE (o j : ℕ) (w : Word) (e : Scq.Entry) : Prop where
  pos : ∀ k, e.stamp = k + 1 → k % 2 ^ (o + 1) = j ∧ k < 2 ^ 62
  elt : ∀ x, e.idx = some x → x < 2 ^ o
  fld : Fld o w (e.idx.getD (2 ^ (o + 1) - 1)) e.safe.toNat (cyc o e)

section
variable {o j : ℕ} {w w' : Word} {e e' : Scq.Entry} {k : Word}

theorem cyc_succ (k : ℕ) (b : Bool) (x : Option ℕ) : cyc o ⟨k + 1, b, x⟩ = k / 2 ^ (o + 1) := by
  simp [cyc]

theorem div_two_pow_lt (ho : o ≤ 61) {a : ℕ} (ha : a < 2 ^ 62) : a / 2 ^ (o + 1) < 2 ^ (61 - o) := by
  refine Nat.div_lt_of_lt_mul ?_
  rwa [← pow_add, show o + 1 + (61 - o) = 62 by omega]

/-- Two positions of one slot are ordered as their cycles. -/
theorem div_lt_div_iff {n a b : ℕ} (h : a % n = b % n) : a / n < b / n ↔ a < b := by
  have h1 := div_add_mod a n
  have h2 := div_add_mod b n
  constructor
  · intro hlt
    have := mul_le_mul_left n hlt
    rw [Nat.succ_eq_add_one, Nat.mul_add, Nat.mul_one] at this
    rcases Nat.eq_zero_or_pos n with rfl | hn
    · simp at hlt
    · omega
  · intro hlt
    by_contra hc
    have := mul_le_mul_left n (not_lt.mp hc)
    omega

theorem div_eq_div_iff {n a b : ℕ} (h : a % n = b % n) : a / n = b / n ↔ a = b := by
  constructor
  · intro heq
    rw [← div_add_mod a n, ← div_add_mod b n, heq, h]
  · exact fun heq => heq ▸ rfl

theorem idx_getD_eq (h : RelE o j w e) :
    e.idx.getD (2 ^ (o + 1) - 1) = 2 ^ (o + 1) - 1 ↔ e.idx = none := by
  cases hi : e.idx with
  | none => simp
  | some x =>
    have := h.elt x hi
    simp only [Option.getD_some, reduceCtorEq, iff_false]
    omega

variable (ho : o ≤ 61)
include ho

theorem RelE.cyc_cases (h : RelE o (k.toNat % 2 ^ (o + 1)) w e) (hk : k.toNat < 2 ^ 62) :
    (cyc o e = k.toNat / 2 ^ (o + 1) ↔ e.stamp = k.toNat + 1) ∧
    (e.stamp ≠ 0 → (cyc o e < k.toNat / 2 ^ (o + 1) ↔ e.stamp ≤ k.toNat)) := by
  cases hs : e.stamp with
  | zero =>
    have h1 := div_two_pow_lt ho hk
    have h2 : 2 ^ (62 - o) = 2 * 2 ^ (61 - o) := by
      rw [← pow_succ']
      congr 1
      omega
    simp only [cyc, hs, if_true]
    refine ⟨iff_of_false (by omega) (by omega), fun hc => absurd rfl hc⟩
  | succ p =>
    obtain ⟨hp, -⟩ := h.pos p hs
    have hc : cyc o e = p / 2 ^ (o + 1) := by simp [cyc, hs]
    rw [hc, div_eq_div_iff hp, div_lt_div_iff hp]
    exact ⟨by omega, fun _ => by omega⟩

theorem cycle_toNat_lt {c : ℕ} (hc : c < 2 ^ (61 - o)) (h : Fld o w (2 ^ (o + 1) - 1) 1 c) :
    w.toNat < 2 ^ 63 := by
  have h1 : 2 ^ 63 = 2 ^ (61 - o) * 2 ^ (o + 2) := by
    rw [← pow_add]
    congr 1
    omega
  have h2 : 2 ^ (o + 2) = 2 * 2 ^ (o + 1) := by ring
  have h3 : (c + 1) * 2 ^ (o + 2) ≤ 2 ^ (61 - o) * 2 ^ (o + 2) := mul_le_mul_right _ hc
  have h4 := Nat.two_pow_pos (o + 1)
  rw [h.toNat, h1]
  rw [add_mul] at h3
  omega

/-- `__lfring_cmp(ecycle, <, tcycle)` -/
theorem cmp_cycle (h : RelE o (k.toNat % 2 ^ (o + 1)) w e) (hk : k.toNat < 2 ^ 62) :
    cmpLt (w ||| (2 * pow2 (o + 1) - 1)) ((k <<< 1) ||| (2 * pow2 (o + 1) - 1)) = true ↔
      e.stamp ≤ k.toNat := by
  have hf := h.fld.ecycle ho
  have hf' := fld_cycle ho hk
  have hlt' := cycle_toNat_lt ho (div_two_pow_lt ho hk) hf'
  rcases eq_or_ne e.stamp 0 with hs | hs
  · have hw : w ||| (2 * pow2 (o + 1) - 1) = BitVec.allOnes 64 :=
      (hf.inj (fld_ones ho)).mpr ⟨rfl, rfl, by simp [cyc, hs]⟩
    rw [hw, cmpLt_ones hlt', hs]
    simp
  · obtain ⟨p, hp⟩ := exists_eq_succ_of_ne_zero hs
    have hcyc : cyc o e < 2 ^ (61 - o) := by
      rw [cyc, if_neg hs, hp, succ_sub_one]
      exact div_two_pow_lt ho (h.pos p hp).2
    rw [cmpLt_iff (cycle_toNat_lt ho hcyc hf) hlt', ← (h.cyc_cases ho hk).2 hs, hf.toNat, hf'.toNat]
    have hpos := Nat.two_pow_pos (o + 2)
    constructor
    · intro hlt
      exact Nat.lt_of_mul_lt_mul_right (a := 2 ^ (o + 2)) (by omega)
    · intro hlt
      have := mul_lt_mul_of_pos_right hlt hpos
      omega

/-- `ecycle == hcycle` -/
theorem cycle_eq (h : RelE o (k.toNat % 2 ^ (o + 1)) w e) (hk : k.toNat < 2 ^ 62) :
    (w ||| (2 * pow2 (o + 1) - 1) : Word) = ((k <<< 1) ||| (2 * pow2 (o + 1) - 1) : Word) ↔
      e.stamp = k.toNat + 1 := by
  rw [(h.fld.ecycle ho).inj (fld_cycle ho hk), ← (h.cyc_cases ho hk).1]
  simp

section
variable (h : RelE o j w e)
include h

/-- `entry == ecycle` -/
theorem eq_ecycle : w = w ||| (2 * pow2 (o + 1) - 1) ↔ e.idx = none ∧ e.safe = true := by
  rw [h.fld.inj (h.fld.ecycle ho), idx_getD_eq h]
  cases e.safe <;> simp

/-- `entry == (ecycle ^ n)` -/
theorem eq_ecycle_unsafe :
    w = (w ||| (2 * pow2 (o + 1) - 1)) ^^^ pow2 (o + 1) ↔ e.idx = none ∧ e.safe = false := by
  have hf := (h.fld.ecycle ho).xor (fld_n ho)
  rw [xor_zero, xor_zero] at hf
  rw [h.fld.inj hf, idx_getD_eq h]
  cases e.safe <;> simp

/-- `(entry | n) == ecycle` -/
theorem or_n_eq : w ||| pow2 (o + 1) = w ||| (2 * pow2 (o + 1) - 1) ↔ e.idx = none := by
  have hf := h.fld.or (fld_n ho)
  rw [or_zero, or_zero] at hf
  rw [hf.inj (h.fld.ecycle ho), idx_getD_eq h]
  cases e.safe <;> simp

/-- `entry & ~n` -/
theorem relE_clear : RelE o j (w &&& ~~~pow2 (o + 1)) { e with safe := false } := by
  refine ⟨h.pos, h.elt, ?_⟩
  have hf := h.fld.and (fld_not ho (fld_n ho))
  rw [zero_xor, zero_xor, and_ones h.fld.idx_lt, and_ones (h.fld.cyc_lt (by omega))] at hf
  have hs : e.safe.toNat &&& (1 ^^^ 1) = false.toNat := by cases e.safe <;> rfl
  rwa [hs] at hf

/-- `entry == (entry & ~n)` -/
theorem eq_clear : w = w &&& ~~~pow2 (o + 1) ↔ e.safe = false := by
  rw [h.fld.inj (relE_clear ho h).fld]
  cases e.safe <;> simp [cyc]

end

/-- `hcycle ^ ((~entry) & n)` -/
theorem relE_advance (h : RelE o (k.toNat % 2 ^ (o + 1)) w e) (hk : k.toNat < 2 ^ 62) :
    RelE o (k.toNat % 2 ^ (o + 1))
      (((k <<< 1) ||| (2 * pow2 (o + 1) - 1)) ^^^ (~~~w &&& pow2 (o + 1)))
      ⟨k.toNat + 1, e.safe, none⟩ := by
  refine ⟨?_, by simp, ?_⟩
  · intro i hi
    obtain rfl : k.toNat = i := succ.inj hi
    exact ⟨rfl, hk⟩
  · have hf := (fld_cycle ho hk).xor ((fld_not ho h.fld).and (fld_n ho))
    rw [and_zero, and_zero, xor_zero, xor_zero] at hf
    have hs : 1 ^^^ ((e.safe.toNat ^^^ 1) &&& 1) = e.safe.toNat := by cases e.safe <;> rfl
    rw [hs] at hf
    exact hf

/-- `tcycle ^ eidx`, with `eidx ^= (n - 1)` -/
theorem relE_store {x : ℕ} (hx : x < 2 ^ o) (hk : k.toNat < 2 ^ 62) :
    RelE o (k.toNat % 2 ^ (o + 1))
      (((k <<< 1) ||| (2 * pow2 (o + 1) - 1)) ^^^ (BitVec.ofNat 64 x ^^^ (pow2 (o + 1) - 1)))
      ⟨k.toNat + 1, true, some x⟩ := by
  refine ⟨?_, ?_, ?_⟩
  · intro i hi
    obtain rfl : k.toNat = i := succ.inj hi
    exact ⟨rfl, hk⟩
  · intro y hy
    obtain rfl : x = y := Option.some.inj hy
    exact hx
  · have hp : 2 ^ (o + 1) = 2 * 2 ^ o := by ring
    have h64 : 2 ^ o < 2 ^ 64 := Nat.pow_lt_pow_right (by decide) (by omega)
    have hfx : Fld o (BitVec.ofNat 64 x) x 0 0 :=
      Fld.of_toNat (by omega) (by decide)
        (by rw [BitVec.toNat_ofNat, mod_eq_of_lt (by omega)]; omega)
    have hf := (fld_cycle ho hk).xor (hfx.xor (fld_low ho))
    rw [Nat.xor_comm x, ← Nat.xor_assoc, Nat.xor_self, Nat.zero_xor, Nat.xor_zero, Nat.xor_zero,
      xor_zero] at hf
    exact hf

/-- the entry after the `fetch_or` of `n - 1` -/
theorem relE_empty (h : RelE o j w e) : RelE o j (w ||| (pow2 (o + 1) - 1)) { e with idx := none } := by
  refine ⟨h.pos, by simp, ?_⟩
  have hf := h.fld.or (fld_low ho)
  rw [or_ones h.fld.idx_lt, or_zero, or_zero] at hf
  exact hf

/-- `entry & (n - 1)` -/
theorem and_low (h : RelE o j w e) :
    (w &&& (pow2 (o + 1) - 1)).toNat = e.idx.getD (2 ^ (o + 1) - 1) := by
  rw [BitVec.toNat_and, low_toNat (by omega), and_two_pow_sub_one_eq_mod, h.fld.idx]

theorem RelE.eq_iff (h : RelE o j w e) (h' : RelE o j w' e') : w = w' ↔ e = e' := by
  rw [h.fld.inj h'.fld]
  constructor
  · rintro ⟨hi, hs, hc⟩
    have hidx : e.idx = e'.idx := by
      rcases hi1 : e.idx with _ | x
      · rw [hi1] at hi
        exact ((idx_getD_eq h').mp hi.symm).symm
      · rcases hi2 : e'.idx with _ | y
        · rw [hi2] at hi
          exact absurd ((idx_getD_eq h).mp hi) (by simp [hi1])
        · rw [hi1, hi2] at hi
          exact congrArg some hi
    have hsafe : e.safe = e'.safe := by
      cases h1 : e.safe <;> cases h2 : e'.safe <;> simp [h1, h2] at hs ⊢
    have hstamp : e.stamp = e'.stamp := by
      have h2 : 2 ^ (62 - o) = 2 * 2 ^ (61 - o) := by
        rw [← pow_succ']
        congr 1
        omega
      rcases hs1 : e.stamp with _ | p <;> rcases hs2 : e'.stamp with _ | p'
      · rfl
      · have := div_two_pow_lt ho (h'.pos p' hs2).2
        simp [cyc, hs1, hs2] at hc
        omega
      · have := div_two_pow_lt ho (h.pos p hs1).2
        simp [cyc, hs1, hs2] at hc
        omega
      · simp only [cyc, hs1, hs2, Nat.add_eq_zero_iff, one_ne_zero, and_false, if_false,
          Nat.add_sub_cancel] at hc
        rw [(div_eq_div_iff ((h.pos p hs1).1.trans (h'.pos p' hs2).1.symm)).mp hc]
    cases e
    cases e'
    simp_all
  · rintro rfl
    exact ⟨rfl, rfl, rfl⟩

end

/-! ## The simulation -/

/-- A ring of words and the ideal ring it stands for. -/
structure Rel (o : ℕ) (q : Ring) (r : Scq.Ring) : Prop where
  head : q.head.toNat = r.head
  tail : q.tail.toNat = r.tail
  thr : q.threshold.toInt = r.thr
  slot : ∀ k : Word, RelE o (k.toNat % 2 ^ (o + 1)) (q.array (map k o (pow2 (o + 1))))
    (r.slot (k.toNat % 2 ^ (o + 1)))

/-- Corresponding points. -/
inductive RelPc (o : ℕ) : Pc → Scq.Pc ℕ Scq.Entry → Prop
  | idle (v : Ret) : RelPc o (.idle v) (.idle v)
  | enq {x : ℕ} (hx : x < 2 ^ o) : RelPc o (.enq x) (.enq x)
  | enqLoad {x : ℕ} {k : Word} (hx : x < 2 ^ o) (hk : k.toNat < 2 ^ 62) :
      RelPc o (.enqLoad x k) (.enqLoad x k.toNat)
  | enqHead {x : ℕ} {k w : Word} {e : Scq.Entry} (hx : x < 2 ^ o) (hk : k.toNat < 2 ^ 62)
      (he : RelE o (k.toNat % 2 ^ (o + 1)) w e) : RelPc o (.enqHead x k w) (.enqHead x k.toNat e)
  | enqCas {x : ℕ} {k w : Word} {e : Scq.Entry} (hx : x < 2 ^ o) (hk : k.toNat < 2 ^ 62)
      (he : RelE o (k.toNat % 2 ^ (o + 1)) w e) : RelPc o (.enqCas x k w) (.enqCas x k.toNat e)
  | enqThr (k : Word) : RelPc o (.enqThr k) (.enqThr k.toNat)
  | enqStore (k : Word) : RelPc o (.enqStore k) (.enqStore k.toNat)
  | deq : RelPc o .deq .deq
  | deqAdd : RelPc o .deqAdd .deqAdd
  | deqLoad {k : Word} (hk : k.toNat < 2 ^ 62) : RelPc o (.deqLoad k) (.deqLoad k.toNat)
  | deqOr {k w : Word} {e : Scq.Entry} (hk : k.toNat < 2 ^ 62)
      (he : RelE o (k.toNat % 2 ^ (o + 1)) w e) : RelPc o (.deqOr k w) (.deqOr k.toNat e)
  | deqCas {k w w' : Word} {e e' : Scq.Entry} (hk : k.toNat < 2 ^ 62)
      (he : RelE o (k.toNat % 2 ^ (o + 1)) w e) (he' : RelE o (k.toNat % 2 ^ (o + 1)) w' e') :
      RelPc o (.deqCas k w w') (.deqCas k.toNat e e')
  | deqTail {k : Word} (hk : k.toNat < 2 ^ 62) : RelPc o (.deqTail k) (.deqTail k.toNat)
  | catchCas {t h : Word} (ht : t.toNat ≤ 2 ^ 62) (hh : h.toNat ≤ 2 ^ 62) :
      RelPc o (.catchCas t h) (.catchCas t.toNat h.toNat)
  | catchHead : RelPc o .catchHead .catchHead
  | catchTail {h : Word} (hh : h.toNat ≤ 2 ^ 62) : RelPc o (.catchTail h) (.catchTail h.toNat)
  | deqSub : RelPc o .deqSub .deqSub
  | deqLoop : RelPc o .deqLoop .deqLoop

section
variable {o x : ℕ} {w : Word} {e : Scq.Entry} {k : Word} {q : Ring} {r : Scq.Ring}
variable (hmin : lfringMin ≤ o) (ho : o ≤ 61)
include ho

theorem retry_sim (hx : x < 2 ^ o) (hk : k.toNat < 2 ^ 62)
    (h : RelE o (k.toNat % 2 ^ (o + 1)) w e) :
    RelPc o (retry o x k w) (Scq.enqTest x k.toNat e) := by
  simp only [retry, Scq.enqTest, pow2_mul_two, cmp_cycle ho h hk, eq_ecycle ho h,
    eq_ecycle_unsafe ho h]
  by_cases hs : e.stamp ≤ k.toNat
  · by_cases hi : e.idx = none
    · cases hsafe : e.safe with
      | true => simpa [hs, hi, hsafe] using RelPc.enqCas hx hk h
      | false => simpa [hs, hi, hsafe] using RelPc.enqHead hx hk h
    · simpa [hs, hi] using RelPc.enq hx
  · simpa [hs] using RelPc.enq hx

theorem inspect_sim (hk : k.toNat < 2 ^ 62) (h : RelE o (k.toNat % 2 ^ (o + 1)) w e) :
    RelPc o (inspect o k w) (Scq.deqTest k.toNat e) := by
  simp only [inspect, Scq.deqTest, cycle_eq ho h hk, ne_eq, or_n_eq ho h, eq_clear ho h,
    cmp_cycle ho h hk]
  split
  · exact .deqOr hk h
  · split
    · split
      · exact .deqTail hk
      · split
        · exact .deqCas hk h (relE_clear ho h)
        · exact .deqTail hk
    · split
      · exact .deqCas hk h (relE_advance ho h hk)
      · exact .deqTail hk

theorem threshold3_toInt : (threshold3 (pow2 o) (pow2 o * 2)).toInt = Scq.top (2 ^ o) := by
  have h61 : 2 ^ o ≤ 2 ^ 61 := Nat.pow_le_pow_right (by decide) ho
  have hpos := Nat.two_pow_pos o
  have hadd : (pow2 o + pow2 (o + 1)).toNat = 3 * 2 ^ o := by
    rw [BitVec.toNat_add, pow2_toNat (by omega), pow2_toNat (by omega), mod_eq_of_lt (by omega)]
    omega
  have hsub : (threshold3 (pow2 o) (pow2 o * 2)).toNat = 3 * 2 ^ o - 1 := by
    rw [threshold3, pow2_mul_two,
      BitVec.toNat_sub_of_le (by rw [BitVec.le_def, hadd]; show 1 ≤ _; omega), hadd]
    rfl
  rw [BitVec.toInt_eq_toNat_cond, hsub, if_pos (by omega), Scq.top]
  push_cast [cast_sub (show 1 ≤ 3 * 2 ^ o by omega)]
  ring

include hmin

theorem Rel.write (h : Rel o q r) (he : RelE o (k.toNat % 2 ^ (o + 1)) w e) :
    Rel o (q.write (map k o (pow2 (o + 1))) w) (r.write (k.toNat % 2 ^ (o + 1)) e) := by
  refine ⟨h.head, h.tail, h.thr, fun i => ?_⟩
  simp only [Ring.write, Scq.Ring.write]
  by_cases hik : i.toNat % 2 ^ (o + 1) = k.toNat % 2 ^ (o + 1)
  · rw [hik, update_self, (map_eq_iff hmin (by omega) i k).mpr hik, update_self]
    exact he
  · rw [update_of_ne hik, update_of_ne (fun hc => hik ((map_eq_iff hmin (by omega) i k).mp hc))]
    exact h.slot i

omit ho hmin in
theorem toNat_add_one {v : Word} (hv : v.toNat ≤ 2 ^ 62) : (v + 1).toNat = v.toNat + 1 := by
  show (v.toNat + 1) % 2 ^ 64 = _
  omega

omit ho hmin in
theorem toInt_sub_one {v : Word} (hv : -2 ^ 62 ≤ v.toInt) : (v - 1).toInt = v.toInt - 1 := by
  have h1 : (1 : Word).toNat = 1 := rfl
  rw [BitVec.toInt_eq_toNat_cond] at hv ⊢
  rw [BitVec.toInt_eq_toNat_cond, BitVec.toNat_sub, h1]
  split at hv <;> split <;> omega

/-- **Every operation on the words is the operation on the ideal ring.** -/
theorem go_sim {p : Pc} {p' : Scq.Pc ℕ Scq.Entry} (fail : Bool) (h : Rel o q r)
    (hp : RelPc o p p') (hs : Scq.Below (2 ^ 62) r p') :
    Option.Rel (fun a b => Rel o a.1 b.1 ∧ RelPc o a.2 b.2) (go o false q fail p)
      (Scq.go (2 ^ o) r fail p') := by
  have hn : 2 * 2 ^ o = 2 ^ (o + 1) := by ring
  have h0 : (0 : Word).toInt = 0 := rfl
  have hhead := h.head
  have htail := h.tail
  have hhd := hs.head
  have htl := hs.tail
  cases hp with
  | idle v => exact .none
  | enq hx =>
    have hlt := hs.enq _ rfl
    rw [go, Scq.go, ← htail]
    exact .some ⟨⟨h.head, by simp only [toNat_add_one (htail ▸ htl)], h.thr, h.slot⟩,
      .enqLoad hx (by omega)⟩
  | @enqLoad x k hx hk =>
    rw [go, Scq.go, hn, pow2_mul_two]
    exact .some ⟨h, retry_sim ho hx hk (h.slot k)⟩
  | @enqHead x k w e hx hk he =>
    refine .some ⟨h, ?_⟩
    simp only [cmpLe_iff (x := q.head) (y := k) (by omega) (by omega), hhead]
    split
    · exact .enqCas hx hk he
    · exact .enq hx
  | @enqCas x k w e hx hk he =>
    simp only [go, Scq.go, hn, pow2_mul_two, (h.slot k).eq_iff ho he]
    split
    · exact .some ⟨h.write hmin ho (relE_store ho hx hk), .enqThr k⟩
    · exact .some ⟨h, retry_sim ho hx hk (h.slot k)⟩
  | enqThr k =>
    refine .some ⟨h, ?_⟩
    simp only [true_and, ne_eq, ← BitVec.toInt_inj, threshold3_toInt ho, h.thr]
    by_cases hc : r.thr = Scq.top (2 ^ o)
    · rw [if_neg (not_not.mpr hc), if_pos hc]
      exact .idle _
    · rw [if_pos hc, if_neg hc]
      exact .enqStore k
  | enqStore k =>
    exact .some ⟨⟨h.head, h.tail, threshold3_toInt ho, h.slot⟩, .idle _⟩
  | deq =>
    refine .some ⟨h, ?_⟩
    simp only [true_and, BitVec.slt_eq_decide, decide_eq_true_iff, h.thr, h0]
    split
    · exact .idle _
    · exact .deqAdd
  | deqAdd =>
    have hlt := hs.deq rfl
    rw [go, Scq.go, ← hhead]
    exact .some ⟨⟨by simp only [toNat_add_one (hhead ▸ hhd)], h.tail, h.thr, h.slot⟩,
      .deqLoad (by omega)⟩
  | @deqLoad k hk =>
    rw [go, Scq.go, hn]
    exact .some ⟨h, inspect_sim ho hk (h.slot k)⟩
  | @deqOr k w e hk he =>
    simp only [go, Scq.go, hn, and_low ho he]
    exact .some ⟨h.write hmin ho (relE_empty ho (h.slot k)), .idle _⟩
  | @deqCas k w w' e e' hk he he' =>
    simp only [go, Scq.go, hn, (h.slot k).eq_iff ho he]
    split
    · exact .some ⟨h.write hmin ho he', .deqTail hk⟩
    · exact .some ⟨h, inspect_sim ho hk (h.slot k)⟩
  | @deqTail k hk =>
    have hk1 : (k + 1).toNat = k.toNat + 1 := toNat_add_one hk.le
    simp only [go, Scq.go, cmpLe_iff (x := q.tail) (y := k + 1) (by omega) (by omega), hk1, htail]
    refine .some ⟨h, ?_⟩
    split
    · rw [← htail, ← hk1]
      exact .catchCas (by omega) (by omega)
    · exact .deqLoop
  | @catchCas t i ht hi =>
    simp only [go, Scq.go, ← BitVec.toNat_inj, htail]
    split
    · exact .some ⟨⟨h.head, rfl, h.thr, h.slot⟩, .deqSub⟩
    · exact .some ⟨h, .catchHead⟩
  | catchHead =>
    rw [go, Scq.go, ← hhead]
    exact .some ⟨h, .catchTail (by omega)⟩
  | @catchTail i hi =>
    refine .some ⟨h, ?_⟩
    simp only [cmpGe_iff (x := q.tail) (y := i) (by omega) (by omega), htail]
    split
    · exact .deqSub
    · rw [← htail]
      exact .catchCas (by omega) hi
  | deqSub =>
    exact .some ⟨⟨h.head, h.tail, (toInt_sub_one (h.thr ▸ hs.thr)).trans (by rw [h.thr]), h.slot⟩,
      .idle _⟩
  | deqLoop =>
    refine .some ⟨⟨h.head, h.tail, (toInt_sub_one (h.thr ▸ hs.thr)).trans (by rw [h.thr]), h.slot⟩,
      ?_⟩
    simp only [BitVec.sle_eq_decide, decide_eq_true_iff, h.thr, h0]
    split
    · exact .idle _
    · exact .deqAdd

end

/-! ## The initial rings -/

theorem foldl_update {α β : Type} [DecidableEq α] (f : ℕ → α) (v : ℕ → β) (a : α → β) :
    ∀ m, (∀ i < m, ∀ j < m, f i = f j → i = j) → ∀ j < m,
      (range m).foldl (fun a i => update a (f i) (v i)) a (f j) = v j := by
  intro m
  induction m with
  | zero => exact fun _ j hj => absurd hj (not_lt_zero j)
  | succ m ih =>
    intro hinj j hj
    rw [range_succ, foldl_append, foldl_cons, foldl_nil]
    rcases Nat.lt_succ_iff_lt_or_eq.mp hj with hlt | rfl
    · rw [update_of_ne fun hc => hlt.ne (hinj j hj m (Nat.lt_succ_self m) hc)]
      exact ih (fun i hi k hk => hinj i (by omega) k (by omega)) j hlt
    · exact update_self ..

/-- The index `lfring_init_full` puts at position `i`. -/
def fullIdx (o i : ℕ) : ℕ :=
  (rawMap (pow2 o * 2 + BitVec.ofNat 64 i) o (pow2 o)).toNat

section
variable {o : ℕ} (hmin : lfringMin ≤ o) (ho : o ≤ 62)
include ho

theorem full_toNat {i : ℕ} (hi : i < 2 ^ o) :
    (pow2 o * 2 + BitVec.ofNat 64 i).toNat % 2 ^ o = i := by
  have hp : 2 ^ (o + 1) = 2 * 2 ^ o := by ring
  have h62 : 2 ^ o ≤ 2 ^ 62 := Nat.pow_le_pow_right (by decide) ho
  rw [pow2_mul_two, BitVec.toNat_add, pow2_toNat (by omega), BitVec.toNat_ofNat,
    mod_eq_of_lt (by omega : i < 2 ^ 64),
    mod_eq_of_lt (by omega : 2 ^ (o + 1) + i < 2 ^ 64), hp, mul_add_mod_self_right,
    mod_eq_of_lt hi]

include hmin

theorem fullIdx_lt (i : ℕ) : fullIdx o i < 2 ^ o := rawMap_lt hmin (by omega) _

/-- **`lfring_init_full` holds every index once.** -/
theorem fullIdx_perm : ((range (2 ^ o)).map (fullIdx o)).Perm (range (2 ^ o)) := by
  have hinj : ((range (2 ^ o)).map (fullIdx o)).Nodup := by
    refine List.Nodup.map_on (fun i hi j hj hij => ?_) nodup_range
    rw [mem_range] at hi hj
    have := (rawMap_eq_iff hmin (by omega) _ _).mp (BitVec.eq_of_toNat_eq hij)
    rwa [full_toNat ho hi, full_toNat ho hj] at this
  refine (subperm_of_subset hinj fun x hx => ?_).perm_of_length_le (by simp)
  obtain ⟨i, -, rfl⟩ := mem_map.mp hx
  exact mem_range.mpr (fullIdx_lt hmin ho i)

theorem fullArray_map (array : Word → Word) (k : Word) :
    fullArray o array (map k o (pow2 (o + 1)))
      = if k.toNat % 2 ^ (o + 1) < 2 ^ o then
          rawMap (pow2 o * 2 + BitVec.ofNat 64 (k.toNat % 2 ^ (o + 1))) o (pow2 o) else -1 := by
  have hlt : k.toNat % 2 ^ (o + 1) < 2 ^ (o + 1) := Nat.mod_lt _ (Nat.two_pow_pos _)
  have h64 : 2 ^ (o + 1) ≤ 2 ^ 64 := Nat.pow_le_pow_right (by decide) (by omega)
  have hnat : ∀ i < 2 ^ (o + 1), (BitVec.ofNat 64 i).toNat % 2 ^ (o + 1) = i := fun i hi => by
    rw [BitVec.toNat_ofNat, mod_eq_of_lt (hi.trans_le h64), mod_eq_of_lt hi]
  have hk : map k o (pow2 (o + 1))
      = map (BitVec.ofNat 64 (k.toNat % 2 ^ (o + 1))) o (pow2 (o + 1)) :=
    (map_eq_iff hmin ho _ _).mpr (hnat _ hlt).symm
  simp only [fullArray]
  rw [hk, pow2_mul_two, pow2_toNat (by omega : o + 1 ≤ 63), pow2_toNat (by omega : o ≤ 63)]
  refine foldl_update (fun i => map (BitVec.ofNat 64 i) o (pow2 (o + 1)))
    (fun i => if i < 2 ^ o then rawMap (pow2 (o + 1) + BitVec.ofNat 64 i) o (pow2 o) else -1)
    array _ (fun i hi j hj hij => ?_) _ hlt
  have := (map_eq_iff hmin ho _ _).mp hij
  rwa [hnat i hi, hnat j hj] at this

end

/-- Positions that differ in their low `m` bits go to all slots. -/
theorem rawMap_bijOn {m : ℕ} (hmin : lfringMin ≤ m) (hm : m ≤ 63) (g : ℕ → Word)
    (hg : ∀ i < 2 ^ m, ∀ j < 2 ^ m, (g i).toNat % 2 ^ m = (g j).toNat % 2 ^ m → i = j) :
    Set.BijOn (fun i => (rawMap (g i) m (pow2 m)).toNat) (Set.Iio (2 ^ m)) (Set.Iio (2 ^ m)) := by
  have hmaps : Set.MapsTo (fun i => (rawMap (g i) m (pow2 m)).toNat) (Set.Iio (2 ^ m))
      (Set.Iio (2 ^ m)) := fun i _ => rawMap_lt hmin hm (g i)
  have hinj : Set.InjOn (fun i => (rawMap (g i) m (pow2 m)).toNat) (Set.Iio (2 ^ m)) := by
    intro i hi j hj hij
    exact hg i hi j hj ((rawMap_eq_iff hmin hm _ _).mp (BitVec.eq_of_toNat_eq hij))
  refine ⟨hmaps, hinj, ?_⟩
  rw [← Finset.coe_range] at hmaps hinj ⊢
  exact Finset.surjOn_of_injOn_of_card_le _ hmaps hinj le_rfl

theorem toNat_ofNat_mod {m : ℕ} (hm : m ≤ 64) (i : ℕ) :
    (BitVec.ofNat 64 i).toNat % 2 ^ m = i % 2 ^ m := by
  rw [BitVec.toNat_ofNat, mod_mod_of_dvd _ (pow_dvd_pow 2 hm)]

section
variable {o : ℕ} (hmin : lfringMin ≤ o) (ho : o ≤ 62)
include hmin ho

/-- As many positions in a row as there are slots, from `k` on. -/
theorem map_bijOn (k : Word) :
    Set.BijOn (fun i => (map (k + BitVec.ofNat 64 i) o (pow2 (o + 1))).toNat)
      (Set.Iio (2 ^ (o + 1))) (Set.Iio (2 ^ (o + 1))) := by
  refine rawMap_bijOn (by omega) (by omega) (fun i => k + BitVec.ofNat 64 i) fun i hi j hj hij => ?_
  simp only [BitVec.toNat_add, mod_mod_of_dvd _ (pow_dvd_pow 2 (by omega : o + 1 ≤ 64))] at hij
  have hmod : (BitVec.ofNat 64 i).toNat % 2 ^ (o + 1) = (BitVec.ofNat 64 j).toNat % 2 ^ (o + 1) :=
    Nat.ModEq.add_left_cancel' _ hij
  rwa [toNat_ofNat_mod (by omega), toNat_ofNat_mod (by omega), mod_eq_of_lt hi,
    mod_eq_of_lt hj] at hmod

theorem fullArray_eq_iff (array : Word → Word) {i idx : ℕ} (hi : i < 2 ^ (o + 1))
    (hidx : idx < 2 ^ o) :
    (fullArray o array (map (BitVec.ofNat 64 i) o (pow2 (o + 1)))).toNat = idx ↔
      i < 2 ^ o ∧ fullIdx o i = idx := by
  rw [fullArray_map hmin ho, toNat_ofNat_mod (by omega), mod_eq_of_lt hi]
  split
  next hlt => exact (and_iff_right hlt).symm
  next hle =>
    have hones : (-1 : Word).toNat = 2 ^ 64 - 1 := by decide
    have h62 : 2 ^ o ≤ 2 ^ 62 := Nat.pow_le_pow_right (by decide) ho
    exact iff_of_false (by omega) fun hc => hle hc.1

theorem initFull_once (array : Word → Word) {idx : ℕ} (hidx : idx < 2 ^ o) :
    ∃! slot, slot < 2 ^ (o + 1) ∧
      ((initFull o array).array (BitVec.ofNat 64 slot)).toNat = idx := by
  have hperm := fullIdx_perm hmin ho
  obtain ⟨i, hi, hidx'⟩ := mem_map.mp (hperm.mem_iff.mpr (mem_range.mpr hidx))
  rw [mem_range] at hi
  have hi' : i < 2 ^ (o + 1) := hi.trans (Nat.pow_lt_pow_right (by decide) (Nat.lt_succ_self o))
  refine ⟨(map (BitVec.ofNat 64 i) o (pow2 (o + 1))).toNat, ⟨rawMap_lt (by omega) (by omega) _, ?_⟩, ?_⟩
  · simp only [BitVec.ofNat_toNat, BitVec.setWidth_eq]
    exact (fullArray_eq_iff hmin ho array hi' hidx).mpr ⟨hi, hidx'⟩
  · rintro slot ⟨hlt, heq⟩
    obtain ⟨j, hj, hslot⟩ := (map_bijOn hmin ho 0#64).surjOn hlt
    simp only [BitVec.zero_add] at hslot
    subst hslot
    simp only [BitVec.ofNat_toNat, BitVec.setWidth_eq] at heq
    obtain ⟨hj', hji⟩ := (fullArray_eq_iff hmin ho array hj hidx).mp heq
    have hnodup := hperm.nodup_iff.mpr nodup_range
    rw [inj_on_of_nodup_map hnodup (mem_range.mpr hj') (mem_range.mpr hi)
      (hji.trans hidx'.symm)]

end

/-- **The permutation of the slots.**  It is a bijection that depends on the low bits of the position
only.  So as many positions in a row as there are slots visit every slot once, and `lfring_init_full`
stores every index in one slot. -/
theorem lfring_bijective {order : ℕ} (hmin : lfringMin ≤ order) :
    (order < 64 →
      Set.BijOn (fun i => (rawMap (BitVec.ofNat 64 i) order (pow2 order)).toNat)
        (Set.Iio (2 ^ order)) (Set.Iio (2 ^ order)) ∧
      ∀ idx idx' : Word, idx.toNat % 2 ^ order = idx'.toNat % 2 ^ order →
        rawMap idx order (pow2 order) = rawMap idx' order (pow2 order)) ∧
    (order + 1 < 64 →
      (∀ k : Word, Set.BijOn (fun i => (map (k + BitVec.ofNat 64 i) order (pow2 (order + 1))).toNat)
        (Set.Iio (2 ^ (order + 1))) (Set.Iio (2 ^ (order + 1)))) ∧
      ∀ array, ∀ idx < 2 ^ order, ∃! slot, slot < 2 ^ (order + 1) ∧
        ((initFull order array).array (BitVec.ofNat 64 slot)).toNat = idx) := by
  refine ⟨fun h => ⟨?_, ?_⟩, fun h => ⟨?_, ?_⟩⟩
  · refine rawMap_bijOn hmin (by omega) _ fun i hi j hj hij => ?_
    rwa [toNat_ofNat_mod (by omega), toNat_ofNat_mod (by omega), Nat.mod_eq_of_lt hi,
      Nat.mod_eq_of_lt hj] at hij
  · exact fun idx idx' heq => (rawMap_eq_iff hmin (by omega) idx idx').mpr heq
  · exact map_bijOn hmin (by omega)
  · exact fun array idx hidx => initFull_once hmin (by omega) array hidx

/-- Rings of sixteen. -/
theorem lfring_bijective_four :
    Set.BijOn (fun i => (rawMap (BitVec.ofNat 64 i) 4 (pow2 4)).toNat) (Set.Iio (2 ^ 4))
      (Set.Iio (2 ^ 4)) :=
  ((@lfring_bijective 4 (by decide)).1 (by decide)).1

section
variable {o : ℕ} (hmin : lfringMin ≤ o) (ho : o ≤ 61)
include ho

theorem relE_unused (j : ℕ) : RelE o j (-1) ⟨0, true, none⟩ := by
  refine ⟨by simp, by simp, ?_⟩
  exact fld_ones ho

theorem rel_initEmpty (x : ℕ → ℕ) {T : Type} :
    Rel o initEmpty (Scq.start 0 x (-1) : Scq.Sys Scq.Ring ℕ Scq.Entry T).ring := by
  have hthr : (-1 : Word).toInt = -1 := by decide
  exact ⟨rfl, rfl, hthr, fun k => relE_unused ho _⟩

include hmin

theorem rel_initFull (array : Word → Word) {T : Type} :
    Rel o (initFull o array)
      (Scq.start (2 ^ o) (fullIdx o) (Scq.top (2 ^ o)) : Scq.Sys Scq.Ring ℕ Scq.Entry T).ring := by
  refine ⟨rfl, pow2_toNat (by omega), threshold3_toInt ho, fun k => ?_⟩
  show RelE o _ (fullArray o array _) (if k.toNat % 2 ^ (o + 1) < 2 ^ o then _ else _)
  rw [fullArray_map hmin (by omega)]
  split
  next hlt =>
    have h61 : 2 ^ o ≤ 2 ^ 61 := Nat.pow_le_pow_right (by decide) ho
    refine ⟨?_, ?_, ?_⟩
    · intro i hi
      obtain rfl := succ.inj hi
      exact ⟨mod_mod _ _, by omega⟩
    · intro x hx
      cases hx
      exact fullIdx_lt hmin (by omega) _
    · have hx := fullIdx_lt hmin (by omega) (k.toNat % 2 ^ (o + 1))
      refine Fld.of_toNat ?_ zero_lt_two ?_
      · simp only [Option.getD_some]
        omega
      · rw [cyc_succ, div_eq_of_lt (by omega)]
        simp [fullIdx]
  next => exact relE_unused ho _

end

end Librettos.Lfring
