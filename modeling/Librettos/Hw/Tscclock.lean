/-
# `Hw.Tscclock` — time from the time stamp counter

`tscclock_monotonic` (`clock.c`) adds to `time_base` what has passed since the last call, scaled by
`mul64_32`, and takes the reading for the next one.  The scaling drops the bits behind the point,
and every call drops its own.  So the time at the last of several readings is the time of one call
over the whole interval only as long as what was dropped does not add up to a nanosecond
(`monotonic_path_iff`), and never behind it by as many nanoseconds as there were calls
(`monotonic_lag`).

`mul64_32` is there for both processors.
-/
import Mathlib.Tactic
import Mathlib.Data.BitVec

namespace Librettos.Tscclock

open BitVec List Nat

inductive Arch
  | x86_64
  | i386
deriving DecidableEq, Repr

/-- `mul %rdx; shrd $32, %rdx, %rax` -/
def mul6432X8664 (a : BitVec 64) (b : BitVec 32) : BitVec 64 :=
  let prod : BitVec 128 := a.setWidth 128 * b.setWidth 128
  (prod >>> 32).setWidth 64

/-- `mul` of two 32-bit registers: `%edx` and `%eax` -/
def mul32 (a b : BitVec 32) : BitVec 32 × BitVec 32 :=
  let prod : BitVec 64 := a.setWidth 64 * b.setWidth 64
  ((prod >>> 32).setWidth 32, prod.setWidth 32)

/-- The sequence for i386.  `add` leaves a carry for `adc`. -/
def mul6432I386 (a : BitVec 64) (b : BitVec 32) : BitVec 64 :=
  let h : BitVec 32 := (a >>> 32).setWidth 32
  let l : BitVec 32 := a.setWidth 32
  let t1 := (mul32 l b).1
  let (edx, eax) := mul32 h b
  let carry := if eax.toNat + t1.toNat < 2 ^ 32 then 0 else 1
  (edx + carry) ++ (eax + t1)

def mul6432 : Arch → BitVec 64 → BitVec 32 → BitVec 64
  | .x86_64 => mul6432X8664
  | .i386 => mul6432I386

/-- The fields of `struct bmk_cpu_info` that the clock has. -/
structure Cpu where
  timeBase : BitVec 64
  tscBase : BitVec 64
deriving DecidableEq, Repr

/-- `tscclock_monotonic`, with what `rdtsc` returns.  The result of the call is `timeBase`. -/
def tscclockMonotonic (arch : Arch) (tscMult : BitVec 32) (cpu : Cpu) (tscNow : BitVec 64) : Cpu :=
  let tscDelta := tscNow - cpu.tscBase
  ⟨cpu.timeBase + mul6432 arch tscDelta tscMult, tscNow⟩

/-- One call for each reading. -/
def calls (arch : Arch) (tscMult : BitVec 32) (cpu : Cpu) (readings : List (BitVec 64)) : Cpu :=
  readings.foldl (tscclockMonotonic arch tscMult) cpu

/-- What the calls have dropped, in parts of a nanosecond of which there are `2^32`. -/
def dropped (tscMult : ℕ) : ℕ → List (BitVec 64) → ℕ
  | _, [] => 0
  | base, r :: readings =>
    (r.toNat - base) * tscMult % 2 ^ 32 + dropped tscMult r.toNat readings

/-- What they have added. -/
def scaled (tscMult : ℕ) : ℕ → List (BitVec 64) → ℕ
  | _, [] => 0
  | base, r :: readings =>
    (r.toNat - base) * tscMult / 2 ^ 32 + scaled tscMult r.toNat readings

/-! ## The product -/

theorem toNat_mul6432X8664 (a : BitVec 64) (b : BitVec 32) :
    (mul6432X8664 a b).toNat = a.toNat * b.toNat / 2 ^ 32 := by
  have ha := a.isLt
  have hb := b.isLt
  have hprod : a.toNat * b.toNat < 2 ^ 64 * 2 ^ 32 := mul_lt_mul'' ha hb
  have hquot : a.toNat * b.toNat / 2 ^ 32 < 2 ^ 64 := Nat.div_lt_of_lt_mul (by omega)
  simp only [mul6432X8664, toNat_setWidth, toNat_ushiftRight, toNat_mul, shiftRight_eq_div_pow]
  rw [mod_eq_of_lt (show a.toNat < 2 ^ 128 by omega),
    mod_eq_of_lt (show b.toNat < 2 ^ 128 by omega),
    mod_eq_of_lt (show a.toNat * b.toNat < 2 ^ 128 by omega), mod_eq_of_lt hquot]

theorem toNat_mul32 (a b : BitVec 32) :
    (mul32 a b).1.toNat = a.toNat * b.toNat / 2 ^ 32 ∧
      (mul32 a b).2.toNat = a.toNat * b.toNat % 2 ^ 32 := by
  have ha := a.isLt
  have hb := b.isLt
  have hprod : a.toNat * b.toNat < 2 ^ 32 * 2 ^ 32 := mul_lt_mul'' ha hb
  have hquot : a.toNat * b.toNat / 2 ^ 32 < 2 ^ 32 := Nat.div_lt_of_lt_mul hprod
  simp only [mul32, toNat_setWidth, toNat_ushiftRight, toNat_mul, shiftRight_eq_div_pow]
  rw [mod_eq_of_lt (show a.toNat < 2 ^ 64 by omega),
    mod_eq_of_lt (show b.toNat < 2 ^ 64 by omega),
    mod_eq_of_lt (show a.toNat * b.toNat < 2 ^ 64 by omega), mod_eq_of_lt hquot]
  exact ⟨rfl, rfl⟩

theorem toNat_adc {x eax t : BitVec 32} {c : BitVec 32}
    (hc : c = if eax.toNat + t.toNat < 2 ^ 32 then 0 else 1)
    (hfits : x.toNat * 2 ^ 32 + eax.toNat + t.toNat < 2 ^ 64) :
    ((x + c) ++ (eax + t)).toNat = x.toNat * 2 ^ 32 + eax.toNat + t.toNat := by
  have heax := eax.isLt
  have ht := t.isLt
  have hlow : (eax + t).toNat < 2 ^ 32 := (eax + t).isLt
  rw [toNat_append, ← Nat.shiftLeft_add_eq_or_of_lt hlow, Nat.shiftLeft_eq, toNat_add, toNat_add]
  by_cases hcarry : eax.toNat + t.toNat < 2 ^ 32
  · have hzero : (0 : BitVec 32).toNat = 0 := rfl
    rw [hc, if_pos hcarry, hzero, mod_eq_of_lt hcarry]
    omega
  · have hone : (1 : BitVec 32).toNat = 1 := rfl
    rw [hc, if_neg hcarry, hone]
    omega

theorem toNat_halves (a : BitVec 64) :
    ((a >>> 32).setWidth 32 : BitVec 32).toNat = a.toNat / 2 ^ 32 ∧
      (a.setWidth 32 : BitVec 32).toNat = a.toNat % 2 ^ 32 := by
  have ha := a.isLt
  refine ⟨?_, toNat_setWidth _ _⟩
  rw [toNat_setWidth, toNat_ushiftRight, shiftRight_eq_div_pow]
  omega

/-- The partial products, of which the lower one counts with its upper half. -/
theorem mul_div_halves (a b : ℕ) : a * b / 2 ^ 32 = a / 2 ^ 32 * b + a % 2 ^ 32 * b / 2 ^ 32 := by
  have hsplit : a * b = a % 2 ^ 32 * b + a / 2 ^ 32 * b * 2 ^ 32 := by
    calc a * b
        = (a % 2 ^ 32 + 2 ^ 32 * (a / 2 ^ 32)) * b := by rw [mod_add_div]
      _ = _ := by ring
  rw [hsplit, add_mul_div_right _ _ (by decide), add_comm]

theorem toNat_mul6432I386 (a : BitVec 64) (b : BitVec 32) :
    (mul6432I386 a b).toNat = a.toNat * b.toNat / 2 ^ 32 := by
  obtain ⟨hh, hl⟩ := toNat_halves a
  have hlow := (toNat_mul32 (a.setWidth 32) b).1
  have hhigh := toNat_mul32 ((a >>> 32).setWidth 32) b
  rw [hl] at hlow
  rw [hh] at hhigh
  have hwhole := mul_div_halves a.toNat b.toNat
  have hquot : a.toNat * b.toNat / 2 ^ 32 < 2 ^ 64 := by
    rw [← toNat_mul6432X8664]
    exact isLt _
  have hdivmod := div_add_mod (a.toNat / 2 ^ 32 * b.toNat) (2 ^ 32)
  have hsum : (mul32 ((a >>> 32).setWidth 32) b).1.toNat * 2 ^ 32 +
      (mul32 ((a >>> 32).setWidth 32) b).2.toNat + (mul32 (a.setWidth 32) b).1.toNat =
      a.toNat * b.toNat / 2 ^ 32 := by
    rw [hhigh.1, hhigh.2, hlow, hwhole]
    omega
  exact (toNat_adc rfl (hsum.trans_lt hquot)).trans hsum

/-- Both processors compute the quotient, and no bit of it is lost. -/
theorem toNat_mul6432 (arch : Arch) (a : BitVec 64) (b : BitVec 32) :
    (mul6432 arch a b).toNat = a.toNat * b.toNat / 2 ^ 32 := by
  cases arch with
  | x86_64 => exact toNat_mul6432X8664 a b
  | i386 => exact toNat_mul6432I386 a b

/-! ## The calls -/

section
variable {arch : Arch} {tscMult : BitVec 32} {cpu : Cpu} {readings : List (BitVec 64)} {r : BitVec 64}

theorem le_last {base : BitVec 64} (h : (base :: readings).Pairwise (· ≤ ·)) :
    base ≤ (base :: readings).getLast (by simp) := by
  rcases mem_cons.mp (getLast_mem (cons_ne_nil base readings)) with heq | hmem
  · rw [heq]
    exact BitVec.le_refl base
  · exact (pairwise_cons.mp h).1 _ hmem

theorem scaled_add_dropped (mult : ℕ) : ∀ {readings : List (BitVec 64)} {base : BitVec 64},
    (base :: readings).Pairwise (· ≤ ·) →
      2 ^ 32 * scaled mult base.toNat readings + dropped mult base.toNat readings =
        (((base :: readings).getLast (by simp)).toNat - base.toNat) * mult
  | [], base, _ => by simp [scaled, dropped]
  | r :: readings, base, h => by
    rw [pairwise_cons] at h
    have ih := scaled_add_dropped mult h.2
    have hbase : base.toNat ≤ r.toNat := h.1 r mem_cons_self
    have hlast : r.toNat ≤ ((r :: readings).getLast (by simp)).toNat := le_last h.2
    rw [scaled, dropped, getLast_cons (by simp)]
    have hdelta : ((r :: readings).getLast (by simp)).toNat - base.toNat =
        (r.toNat - base.toNat) + (((r :: readings).getLast (by simp)).toNat - r.toNat) := by omega
    have hdivmod := div_add_mod ((r.toNat - base.toNat) * mult) (2 ^ 32)
    rw [hdelta, Nat.add_mul, ← ih, Nat.mul_add]
    omega

theorem calls_timeBase : ∀ (readings : List (BitVec 64)) (cpu : Cpu),
    (cpu.tscBase :: readings).Pairwise (· ≤ ·) →
      (calls arch tscMult cpu readings).timeBase =
        cpu.timeBase + BitVec.ofNat 64 (scaled tscMult.toNat cpu.tscBase.toNat readings)
  | [], cpu, _ => by simp [calls, scaled]
  | r :: readings, cpu, h => by
    rw [pairwise_cons] at h
    have hbase : cpu.tscBase ≤ r := h.1 r mem_cons_self
    have hone : (tscclockMonotonic arch tscMult cpu r).timeBase = cpu.timeBase +
        BitVec.ofNat 64 ((r.toNat - cpu.tscBase.toNat) * tscMult.toNat / 2 ^ 32) := by
      rw [tscclockMonotonic, ← toNat_sub_of_le hbase, ← toNat_mul6432 arch,
        ofNat_toNat, setWidth_eq]
    have hrest : (calls arch tscMult (tscclockMonotonic arch tscMult cpu r) readings).timeBase = _ :=
      calls_timeBase readings _ h.2
    rw [calls, foldl_cons]
    refine hrest.trans ?_
    rw [hone, scaled, add_assoc, ← ofNat_add]
    rfl

theorem dropped_le (mult : ℕ) : ∀ (base : ℕ) (readings : List (BitVec 64)),
    dropped mult base readings ≤ readings.length * (2 ^ 32 - 1)
  | _, [] => le_rfl
  | base, r :: readings => by
    have hlt := Nat.mod_lt ((r.toNat - base) * mult) (show 0 < 2 ^ 32 by decide)
    have ih := dropped_le mult r.toNat readings
    rw [dropped, length_cons, Nat.add_mul]
    omega

/-- **Paths.**  The time at the last reading is that of one call over the whole interval if and only
if what the calls have dropped is less than a nanosecond. -/
theorem monotonic_path_iff (arch : Arch) (tscMult : BitVec 32) (cpu : Cpu)
    (readings : List (BitVec 64)) (h : (cpu.tscBase :: readings).Pairwise (· ≤ ·)) :
    (calls arch tscMult cpu readings).timeBase =
        cpu.timeBase +
          mul6432 arch ((cpu.tscBase :: readings).getLast (by simp) - cpu.tscBase) tscMult ↔
      dropped tscMult.toNat cpu.tscBase.toNat readings < 2 ^ 32 := by
  have hlast : cpu.tscBase ≤ (cpu.tscBase :: readings).getLast (by simp) := le_last h
  have hid := scaled_add_dropped tscMult.toNat h
  have hmul := toNat_mul6432 arch ((cpu.tscBase :: readings).getLast (by simp) - cpu.tscBase) tscMult
  rw [toNat_sub_of_le hlast, ← hid] at hmul
  -- the product is below 2^64, and so is what was added; the two differ by the dropped nanoseconds
  have hlt := (mul6432 arch ((cpu.tscBase :: readings).getLast (by simp) - cpu.tscBase) tscMult).isLt
  have hquot : (2 ^ 32 * scaled tscMult.toNat cpu.tscBase.toNat readings +
      dropped tscMult.toNat cpu.tscBase.toNat readings) / 2 ^ 32 =
      scaled tscMult.toNat cpu.tscBase.toNat readings +
        dropped tscMult.toNat cpu.tscBase.toNat readings / 2 ^ 32 :=
    Nat.mul_add_div (by decide) _ _
  rw [hquot] at hmul
  rw [calls_timeBase readings cpu h, add_right_inj, ← toNat_inj, toNat_ofNat, hmul,
    Nat.mod_eq_of_lt (by omega)]
  omega

end

/-- Half a nanosecond a tick: with readings at even ticks nothing is dropped. -/
theorem monotonic_path_even :
    (calls .x86_64 0x80000000#32 ⟨0, 0⟩ [2, 4]).timeBase =
      0 + mul6432 .x86_64 (4 - 0) 0x80000000#32 :=
  (monotonic_path_iff .x86_64 0x80000000#32 ⟨0, 0⟩ [2, 4] (by decide)).mpr (by decide)

/-- With a reading at each tick the clock does not move. -/
theorem monotonic_path_odd :
    (calls .x86_64 0x80000000#32 ⟨0, 0⟩ [1, 2]).timeBase = 0 ∧
      (calls .x86_64 0x80000000#32 ⟨0, 0⟩ [2]).timeBase = 1 := by
  decide

/-- **The lag.**  Each call but one can lose a nanosecond, and no more is lost. -/
theorem monotonic_lag (arch : Arch) (tscMult : BitVec 32) (cpu : Cpu)
    (readings : List (BitVec 64)) (h : (cpu.tscBase :: readings).Pairwise (· ≤ ·)) :
    ∃ lag ≤ readings.length - 1,
      (calls arch tscMult cpu readings).timeBase + BitVec.ofNat 64 lag = cpu.timeBase +
        mul6432 arch ((cpu.tscBase :: readings).getLast (by simp) - cpu.tscBase) tscMult := by
  have hmul := toNat_mul6432 arch ((cpu.tscBase :: readings).getLast (by simp) - cpu.tscBase) tscMult
  have hle := dropped_le tscMult.toNat cpu.tscBase.toNat readings
  rw [toNat_sub_of_le (le_last h), ← scaled_add_dropped tscMult.toNat h,
    Nat.mul_add_div (by decide)] at hmul
  refine ⟨dropped tscMult.toNat cpu.tscBase.toNat readings / 2 ^ 32, by omega, ?_⟩
  rw [calls_timeBase readings cpu h, add_assoc, ← ofNat_add, ← hmul, ofNat_toNat, setWidth_eq]

theorem monotonic_lag_odd : ∃ lag ≤ 1,
    (calls .x86_64 0x80000000#32 ⟨0, 0⟩ [1, 2]).timeBase + BitVec.ofNat 64 lag =
      0 + mul6432 .x86_64 (2 - 0) 0x80000000#32 :=
  monotonic_lag .x86_64 0x80000000#32 ⟨0, 0⟩ [1, 2] (by decide)

end Librettos.Tscclock
