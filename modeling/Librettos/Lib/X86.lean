/-
# `Lib.X86` — a few integer instructions of the x86 processors

Enough of the processor for a piece of inline assembly: `%eax` and `%edx` (or `%rax` and `%rdx`),
the registers that the compiler picks for the other operands, and the carry flag.  The width of a
register is a parameter.  The order of the operands is the assembler's: source, destination.

What an instruction leaves is said in numbers, so that `omega` can go on from there: the halves of
a product (`toNat_mulFull`), a sum and its carry (`toNat_addc`), a double shift (`toNat_shiftIn`).
-/
import Mathlib.Tactic
import Mathlib.Data.BitVec

namespace X86

open BitVec

/-- The accumulator, the data register, and the register of operand `n`. -/
inductive Reg
  | a
  | d
  | op (n : ℕ)
deriving DecidableEq, Repr

structure State (w : ℕ) where
  reg : Reg → BitVec w
  cf : Bool

inductive Instr
  | mov (src dst : Reg)
  | mul (src : Reg)
  | xor (src dst : Reg)
  | add (src dst : Reg)
  | adc (src dst : Reg)
  | shrd (count : ℕ) (src dst : Reg)
deriving DecidableEq, Repr

variable {w : ℕ}

def State.set (s : State w) (r : Reg) (v : BitVec w) : State w :=
  { s with reg := Function.update s.reg r v }

/-- The sum of two words and a carry, and the carry it leaves. -/
def addc (x y : BitVec w) (c : Bool) : BitVec w × Bool :=
  let total := x.toNat + y.toNat + c.toNat
  (BitVec.ofNat w total, decide (2 ^ w ≤ total))

/-- Both halves of a product, the upper one first. -/
def mulFull (x y : BitVec w) : BitVec w × BitVec w :=
  let prod := x.toNat * y.toNat
  (BitVec.ofNat w (prod / 2 ^ w), BitVec.ofNat w prod)

/-- The bits of `src` come in from above. -/
def shiftIn (count : ℕ) (src dst : BitVec w) : BitVec w :=
  ((src ++ dst) >>> count).setWidth w

def exec (s : State w) : Instr → State w
  | .mov src dst => s.set dst (s.reg src)
  | .mul src =>
    let (hi, lo) := mulFull (s.reg .a) (s.reg src)
    { (s.set .a lo).set .d hi with cf := decide (hi ≠ 0) }
  | .xor src dst => { s.set dst (s.reg dst ^^^ s.reg src) with cf := false }
  | .add src dst =>
    let (sum, cf) := addc (s.reg dst) (s.reg src) false
    { s.set dst sum with cf }
  | .adc src dst =>
    let (sum, cf) := addc (s.reg dst) (s.reg src) s.cf
    { s.set dst sum with cf }
  | .shrd count src dst =>
    -- the processor masks the count; the flag is the last bit that goes out
    let count := count % w
    { s.set dst (shiftIn count (s.reg src) (s.reg dst)) with
      cf := if count = 0 then s.cf else (s.reg dst).getLsbD (count - 1) }

def run (prog : List Instr) (s : State w) : State w := prog.foldl exec s

@[simp] theorem run_nil (s : State w) : run [] s = s := rfl

@[simp] theorem run_cons (i : Instr) (prog : List Instr) (s : State w) :
    run (i :: prog) s = run prog (exec s i) := rfl

@[simp] theorem set_reg (s : State w) (r : Reg) (v : BitVec w) :
    (s.set r v).reg = Function.update s.reg r v := rfl

/-! ## What the instructions compute -/

theorem toNat_addc (x y : BitVec w) (c : Bool) :
    (addc x y c).1.toNat + 2 ^ w * (addc x y c).2.toNat = x.toNat + y.toNat + c.toNat := by
  have hc := c.toNat_le
  rw [addc, toNat_ofNat]
  by_cases hcarry : 2 ^ w ≤ x.toNat + y.toNat + c.toNat
  · rw [decide_eq_true hcarry, Nat.mod_eq_sub_mod hcarry, Nat.mod_eq_of_lt (by omega)]
    simp only [Bool.toNat_true]
    omega
  · rw [decide_eq_false hcarry, Nat.mod_eq_of_lt (by omega)]
    simp only [Bool.toNat_false]
    omega

theorem toNat_mulFull (x y : BitVec w) :
    (mulFull x y).1.toNat = x.toNat * y.toNat / 2 ^ w ∧
      (mulFull x y).2.toNat = x.toNat * y.toNat % 2 ^ w := by
  have hprod : x.toNat * y.toNat < 2 ^ w * 2 ^ w := Nat.mul_lt_mul'' x.isLt y.isLt
  refine ⟨?_, toNat_ofNat _ _⟩
  rw [mulFull, toNat_ofNat, Nat.mod_eq_of_lt (Nat.div_lt_of_lt_mul hprod)]

/-- A word is added to a number of two words, which takes the carry on. -/
theorem toNat_add_adc (hi lo x : BitVec w) :
    2 ^ w * (addc hi 0#w (addc lo x false).2).1.toNat + (addc lo x false).1.toNat +
        2 ^ w * (2 ^ w * (addc hi 0#w (addc lo x false).2).2.toNat) =
      2 ^ w * hi.toNat + lo.toNat + x.toNat := by
  have hadd := toNat_addc lo x false
  have hadc := toNat_addc hi 0#w (addc lo x false).2
  rw [Bool.toNat_false] at hadd
  rw [toNat_zero] at hadc
  calc _ = 2 ^ w * ((addc hi 0#w (addc lo x false).2).1.toNat +
          2 ^ w * (addc hi 0#w (addc lo x false).2).2.toNat) + (addc lo x false).1.toNat := by ring
    _ = 2 ^ w * hi.toNat + ((addc lo x false).1.toNat + 2 ^ w * (addc lo x false).2.toNat) := by
        rw [hadc]
        ring
    _ = _ := by
        rw [hadd]
        ring

theorem toNat_append (hi lo : BitVec w) : (hi ++ lo).toNat = 2 ^ w * hi.toNat + lo.toNat := by
  rw [BitVec.toNat_append, ← Nat.shiftLeft_add_eq_or_of_lt lo.isLt, Nat.shiftLeft_eq, Nat.mul_comm]

theorem toNat_shiftIn (count : ℕ) (src dst : BitVec w) :
    (shiftIn count src dst).toNat = (2 ^ w * src.toNat + dst.toNat) / 2 ^ count % 2 ^ w := by
  rw [shiftIn, toNat_setWidth, toNat_ushiftRight, Nat.shiftRight_eq_div_pow, toNat_append]

end X86
