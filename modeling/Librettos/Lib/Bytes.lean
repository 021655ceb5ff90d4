/-
# `Lib.Bytes` — byte-addressed memory

Memory is a function from addresses to bytes.  A block copy writes a list of
bytes, a 64-bit word is its eight bytes with the lowest first.  The lemmas are
the usual ones: what was written is read back, and what lies apart is untouched.
-/
import Mathlib.Data.Nat.Digits.Defs
import Mathlib.Tactic

namespace Bytes

open List

/-- Memory. -/
abbrev Mem := ℕ → UInt8

/-- A block copy to the address `a`. -/
def write (m : Mem) (a : ℕ) (l : List UInt8) : Mem :=
  fun x => if a ≤ x then (l[x - a]?).getD (m x) else m x

/-- The `n` bytes at the address `a`. -/
def read (m : Mem) (a n : ℕ) : List UInt8 := (List.range n).map fun i => m (a + i)

/-- The bytes of a 64-bit word. -/
def ofWord (v : ℕ) : List UInt8 := (List.range 8).map fun i => UInt8.ofNat (v / 256 ^ i)

def storeWord (m : Mem) (a v : ℕ) : Mem := write m a (ofWord v)

def loadWord (m : Mem) (a : ℕ) : ℕ := Nat.ofDigits 256 ((read m a 8).map UInt8.toNat)

variable {m : Mem} {a b n k : ℕ} {l : List UInt8}

@[simp] theorem length_read : (read m a n).length = n := by simp [read]

@[simp] theorem length_ofWord (v : ℕ) : (ofWord v).length = 8 := by simp [ofWord]

theorem write_apart {x : ℕ} (h : x < a ∨ a + l.length ≤ x) : write m a l x = m x := by
  unfold write
  split
  next hle =>
    rw [getElem?_eq_none (by omega), Option.getD_none]
  next => rfl

theorem write_at {i : ℕ} (h : i < l.length) : write m a l (a + i) = l[i] := by
  unfold write
  rw [if_pos (by omega), Nat.add_sub_cancel_left, getElem?_eq_getElem h, Option.getD_some]

theorem read_add : read m a (n + k) = read m a n ++ read m (a + n) k := by
  simp only [read, range_add, map_append, map_map, Function.comp_def, add_assoc]

theorem read_write : read (write m a l) a l.length = l := by
  refine ext_getElem (by simp) fun i h₁ h₂ => ?_
  simp only [read, getElem_map, getElem_range]
  exact write_at h₂

theorem read_write_apart (h : b + n ≤ a ∨ a + l.length ≤ b) :
    read (write m a l) b n = read m b n := by
  refine map_congr_left fun i hi => ?_
  have := mem_range.mp hi
  exact write_apart (by omega)

theorem loadWord_write_apart (h : b + 8 ≤ a ∨ a + l.length ≤ b) :
    loadWord (write m a l) b = loadWord m b := by
  rw [loadWord, read_write_apart h, loadWord]

theorem loadWord_storeWord {v : ℕ} (hv : v < 2 ^ 64) : loadWord (storeWord m a v) a = v := by
  have hread : read (storeWord m a v) a 8 = ofWord v := by
    rw [storeWord, ← length_ofWord v, read_write]
  rw [loadWord, hread]
  simp only [ofWord, range_succ, range_zero, nil_append, cons_append,
    map_cons, map_nil, UInt8.toNat_ofNat', Nat.ofDigits_cons, Nat.ofDigits_nil]
  omega

end Bytes
