/-
# `Hw.Mul6432` — the assembly of `mul64_32`

`Hw.Tscclock` has `mul64_32` as a function of its arguments.  Here it is what `clock.c` has: a
sequence of instructions for each processor, run on registers that the compiler has loaded as the
constraints of the statement say.  Nothing is known of the other registers and of the carry.

The sequence for i386 has two operands besides `%edx:%eax`.  `%4` comes in with the upper half of
`a` and is `t1` later, `%5` comes in with `b` and is cleared once it has been multiplied with; both
are outputs of their own, so neither is `%eax` or `%edx`.
-/
import Librettos.Hw.Tscclock
import Librettos.Lib.X86

namespace Librettos.Tscclock

open X86

variable (s : State 64) (t : State 32) (a : BitVec 64) (b : BitVec 32)

/-! ## The sequences -/

def mulX8664 : List Instr :=
  [.mul .d,
   .shrd 32 .d .a]

def mulI386 : List Instr :=
  [.mul (.op 5),            -- %edx:%eax = (l * b)
   .mov (.op 4) .a,         -- %eax = h
   .mov .d (.op 4),         -- t1 = ((l * b) >> 32)
   .mul (.op 5),            -- %edx:%eax = (h * b)
   .xor (.op 5) (.op 5),    -- t2 = 0
   .add (.op 4) .a,         -- %eax = (h * b) + t1 (LSW)
   .adc (.op 5) .d]         -- %edx = (h * b) + t1 (MSW)

/-- `"0" (a), "d" ((uint64_t)b)` -/
def loadX8664 : State 64 :=
  (s.set .a a).set .d (b.setWidth 64)

/-- `"a" (l), "1" (h), "2" (b)` -/
def loadI386 : State 32 :=
  let h : BitVec 32 := (a >>> 32).setWidth 32
  let l : BitVec 32 := a.setWidth 32
  ((t.set .a l).set (.op 4) h).set (.op 5) b

/-- `"=A"` -/
def prodI386 : BitVec 64 := t.reg .d ++ t.reg .a

/-! ## What they leave -/

/-- On x86_64 the double shift moves all there is of the upper half into the result. -/
theorem run_mulX8664 :
    ((run mulX8664 (loadX8664 s a b)).reg .a).toNat = a.toNat * b.toNat / 2 ^ 32 ∧
      ((run mulX8664 (loadX8664 s a b)).reg .d).toNat < 2 ^ 32 := by
  obtain ⟨hhi, hlo⟩ := toNat_mulFull a (b.setWidth 64)
  have hprod : a.toNat * b.toNat < 2 ^ 64 * 2 ^ 32 := Nat.mul_lt_mul'' a.isLt b.isLt
  have hb : (b.setWidth 64).toNat = b.toNat := by
    rw [BitVec.toNat_setWidth, Nat.mod_eq_of_lt (by omega)]
  rw [hb] at hhi hlo
  simp only [mulX8664, loadX8664, run_cons, run_nil, exec, set_reg, Function.update_self,
    Function.update_of_ne, ne_eq, reduceCtorEq, not_false_eq_true, Nat.reduceMod, toNat_shiftIn, hhi,
    hlo, Nat.div_add_mod]
  omega

/-- The registers at the end of the sequence for i386: `t1` has been added to the lower half of
`h * b`, and the carry to the upper one. -/
theorem run_mulI386_regs : let h : BitVec 32 := (a >>> 32).setWidth 32
    let t1 := (mulFull (a.setWidth 32) b).1
    let low := addc (mulFull h b).2 t1 false
    let high := addc (mulFull h b).1 0#32 low.2
    (run mulI386 (loadI386 t a b)).reg .a = low.1 ∧ (run mulI386 (loadI386 t a b)).reg .d = high.1 ∧
      (run mulI386 (loadI386 t a b)).cf = high.2 := by
  simp [mulI386, loadI386, exec]

/-- On i386 the last addition leaves no carry. -/
theorem run_mulI386 :
    (prodI386 (run mulI386 (loadI386 t a b))).toNat = a.toNat * b.toNat / 2 ^ 32 ∧
      (run mulI386 (loadI386 t a b)).cf = false := by
  obtain ⟨ha, hd, hcf⟩ := run_mulI386_regs t a b
  obtain ⟨hh, hl⟩ := toNat_halves a
  obtain ⟨hhi, hlo⟩ := toNat_mulFull ((a >>> 32).setWidth 32) b
  have ht1 := (toNat_mulFull (a.setWidth 32) b).1
  rw [hh] at hhi hlo
  rw [hl] at ht1
  -- with the carry out, the result is the whole quotient, which a word of 64 bits has room for
  have hsum := toNat_add_adc (mulFull ((a >>> 32).setWidth 32) b).1
    (mulFull ((a >>> 32).setWidth 32) b).2 (mulFull (a.setWidth 32) b).1
  rw [hhi, hlo, ht1, Nat.div_add_mod, ← mul_div_halves, ← hd, ← ha, ← hcf, ← toNat_append,
    ← prodI386] at hsum
  have hprod : a.toNat * b.toNat < 2 ^ 64 * 2 ^ 32 := Nat.mul_lt_mul'' a.isLt b.isLt
  cases hout : (run mulI386 (loadI386 t a b)).cf with
  | false =>
    exact ⟨by omega, rfl⟩
  | true =>
    rw [hout, Bool.toNat_true] at hsum
    omega

/-- **`mul64_32`.**  For all 96 bits of the arguments, and whatever else is in the registers, both
sequences leave the quotient of `a * b` by `2^32`, which is the value of the function in
`Hw.Tscclock`.  No bit of it is lost: on x86_64 what the double shift leaves behind in `%rdx` is
zero above bit 31, and on i386 there is no carry out of `%edx`. -/
theorem mul6432_sequences :
    (run mulX8664 (loadX8664 s a b)).reg .a = prodI386 (run mulI386 (loadI386 t a b)) ∧
    ((run mulX8664 (loadX8664 s a b)).reg .a).toNat = a.toNat * b.toNat / 2 ^ 32 ∧
    (prodI386 (run mulI386 (loadI386 t a b))).toNat = a.toNat * b.toNat / 2 ^ 32 ∧
    ((run mulX8664 (loadX8664 s a b)).reg .d).toNat < 2 ^ 32 ∧
    (run mulI386 (loadI386 t a b)).cf = false ∧
    mul6432 .x86_64 a b = (run mulX8664 (loadX8664 s a b)).reg .a ∧
    mul6432 .i386 a b = prodI386 (run mulI386 (loadI386 t a b)) := by
  obtain ⟨hx, hrdx⟩ := run_mulX8664 s a b
  obtain ⟨hi, hcf⟩ := run_mulI386 t a b
  refine ⟨BitVec.eq_of_toNat_eq (hx.trans hi.symm), hx, hi, hrdx, hcf, ?_, ?_⟩
  · exact BitVec.eq_of_toNat_eq ((toNat_mul6432 .x86_64 a b).trans hx.symm)
  · exact BitVec.eq_of_toNat_eq ((toNat_mul6432 .i386 a b).trans hi.symm)

end Librettos.Tscclock
