/-
# `Hw.ClockSubr` — seconds from a date

`clock_ymdhms_to_secs` (`clock_subr.c`) counts the days from 1970 to a date.  From 2000 on it does
not go through the years one by one but takes blocks of 400, 100 and 4 years.  The first century of
a block of 400 years has a day more than the others, and the first four years of the others have a
day less than four years usually have.  The two make up for each other, except in the years
in between: the first four of a century whose number is no multiple of 400 come out a day early
(`clockYmdhmsToSecs_eq`).
-/
import Mathlib.Algebra.BigOperators.Intervals
import Mathlib.Tactic

namespace Librettos.ClockSubr

open Finset

/-- `struct bmk_clock_ymdhms` -/
structure Ymdhms where
  year : ℕ
  mon : ℕ
  day : ℕ
  hour : ℕ
  min : ℕ
  sec : ℕ
  deriving DecidableEq, Repr

def daysInMonth : ℕ → Int
  | 2 => 28
  | 4 | 6 | 9 | 11 => 30
  | 1 | 3 | 5 | 7 | 8 | 10 | 12 => 31
  | _ => -1

def isLeapYear (year : ℕ) : Bool :=
  if year &&& 3 ≠ 0 then false
  else if year % 100 ≠ 0 then true
  else decide (year % 400 = 0)

def daysPerYear (year : ℕ) : Int := if isLeapYear year then 366 else 365

/-- `n` rounds of `for (...; i++) days += f(i)`, from `i` on. -/
def addDays (f : ℕ → Int) : ℕ → ℕ → Int → Int
  | 0, _, days => days
  | n + 1, i, days => addDays f n (i + 1) (days + f i)

/-- The days that are added for the years. -/
def yearDays (dtYear : ℕ) (days : Int) : Int :=
  if dtYear < 2000 then addDays daysPerYear (dtYear - 1970) 1970 days
  else
    let days := days + (365 * 30 + 7)
    let year := dtYear - 2000
    let i := year / 400
    let days := days + i * (365 * 400 + 97)
    let year := year - i * 400
    let i := year / 100
    let days := days + i * (365 * 100 + 24)
    let year := year - i * 100
    let i := year / 4
    let days := days + i * (365 * 4 + 1)
    let year := year - i * 4
    addDays daysPerYear year (dtYear - year) days

/-- `clock_ymdhms_to_secs`.  Sums and products are taken modulo `2 ^ 64`, which can be done at the
end. -/
def clockYmdhmsToSecs (dt : Ymdhms) : ℕ :=
  if dt.year < 1970 then 0
  else
    let days : Int := if isLeapYear dt.year ∧ 2 < dt.mon then 1 else 0
    let days := yearDays dt.year days
    let days := addDays daysInMonth (dt.mon - 1) 1 days + (dt.day - 1)
    let secs := ((days * 24 + dt.hour) * 60 + dt.min) * 60 + dt.sec
    (secs % 2 ^ 64).toNat

/-! ## The Gregorian calendar -/

def Leap (year : ℕ) : Prop := year % 4 = 0 ∧ (year % 100 ≠ 0 ∨ year % 400 = 0)

instance (year : ℕ) : Decidable (Leap year) :=
  inferInstanceAs (Decidable (year % 4 = 0 ∧ (year % 100 ≠ 0 ∨ year % 400 = 0)))

def yearLength (year : ℕ) : ℕ := if Leap year then 366 else 365

def monthLength (year mon : ℕ) : ℕ :=
  if mon = 2 then (if Leap year then 29 else 28) else if mon ∈ [4, 6, 9, 11] then 30 else 31

structure Ymdhms.Valid (dt : Ymdhms) : Prop where
  mon : 1 ≤ dt.mon ∧ dt.mon ≤ 12
  day : 1 ≤ dt.day ∧ dt.day ≤ monthLength dt.year dt.mon
  hour : dt.hour < 24
  min : dt.min < 60
  sec : dt.sec < 60

/-- The days from 1970-01-01 to a date. -/
def dayNumber (dt : Ymdhms) : ℕ :=
  ∑ y ∈ Finset.Ico 1970 dt.year, yearLength y + ∑ m ∈ Finset.Ico 1 dt.mon, monthLength dt.year m +
    (dt.day - 1)

/-- The seconds from the start of the day. -/
def Ymdhms.timeOfDay (dt : Ymdhms) : ℕ := dt.hour * 3600 + dt.min * 60 + dt.sec

def posixSecs (dt : Ymdhms) : ℕ := 86400 * dayNumber dt + dt.timeOfDay

/-- The one date and time is before the other. -/
def Ymdhms.Before (dt dt' : Ymdhms) : Prop :=
  dt.year < dt'.year ∨ dt.year = dt'.year ∧ (dt.mon < dt'.mon ∨ dt.mon = dt'.mon ∧
    (dt.day < dt'.day ∨ dt.day = dt'.day ∧ dt.timeOfDay < dt'.timeOfDay))

/-- The first four years of a century that does not start a block of 400 years. -/
def EarlyInCentury (year : ℕ) : Prop := 2000 ≤ year ∧ 100 ≤ year % 400 ∧ year % 100 < 4

instance (year : ℕ) : Decidable (EarlyInCentury year) :=
  inferInstanceAs (Decidable (2000 ≤ year ∧ 100 ≤ year % 400 ∧ year % 100 < 4))

/-! ## The days of the years -/

theorem isLeapYear_iff (year : ℕ) : isLeapYear year = true ↔ Leap year := by
  have hmask : year &&& 3 = year % 4 := Nat.and_two_pow_sub_one_eq_mod year 2
  unfold isLeapYear Leap
  rw [hmask]
  split
  · simp only [Bool.false_eq_true, false_iff]
    omega
  · split
    · simp only [true_iff]
      omega
    · rw [decide_eq_true_iff]
      omega

theorem daysPerYear_eq (year : ℕ) : daysPerYear year = yearLength year := by
  unfold daysPerYear yearLength
  simp only [isLeapYear_iff]
  split <;> rfl

theorem addDays_eq (f : ℕ → Int) (n i : ℕ) (days : Int) :
    addDays f n i days = days + ∑ j ∈ Finset.Ico i (i + n), f j := by
  induction n generalizing i days with
  | zero => simp [addDays]
  | succ n ih =>
    rw [addDays, ih, sum_eq_sum_Ico_succ_bot (by omega : i < i + (n + 1)),
      show i + 1 + n = i + (n + 1) by omega, add_assoc]

theorem sum_yearLength {year : ℕ} (h : 1970 ≤ year) :
    ∑ y ∈ Finset.Ico 1970 year, yearLength y + (year - 1) / 100 + 477
      = 365 * (year - 1970) + (year - 1) / 4 + (year - 1) / 400 := by
  induction year, h using Nat.le_induction with
  | base => simp
  | succ year h ih =>
    rw [sum_Ico_succ_top h, yearLength]
    split
    next hl =>
      unfold Leap at hl
      omega
    next hl =>
      unfold Leap at hl
      omega

/-- The years from 1970 are taken one by one, or those since the last multiple of four: the rest
is a matter of the blocks. -/
theorem yearDays_eq {year : ℕ} (h : 1970 ≤ year) (days : Int) :
    yearDays year days + (if EarlyInCentury year then 1 else 0)
      = days + (∑ y ∈ Finset.Ico 1970 year, yearLength y : ℕ) := by
  have hloop : ∀ n i d, addDays daysPerYear n i d
      = d + (∑ y ∈ Finset.Ico i (i + n), yearLength y : ℕ) := by
    intro n i d
    rw [addDays_eq, Nat.cast_sum]
    simp only [daysPerYear_eq]
  unfold yearDays
  split
  next hlt =>
    have hearly : ¬ EarlyInCentury year := fun he => absurd he.1 (by omega)
    rw [hloop, if_neg hearly, add_zero, Nat.add_sub_cancel' h]
  next hge =>
    obtain ⟨a, ha⟩ : ∃ a, a = (year - 2000) / 400 := ⟨_, rfl⟩
    obtain ⟨b, hb⟩ : ∃ b, b = (year - 2000 - a * 400) / 100 := ⟨_, rfl⟩
    obtain ⟨c, hc⟩ : ∃ c, c = (year - 2000 - a * 400 - b * 100) / 4 := ⟨_, rfl⟩
    obtain ⟨r, hr⟩ : ∃ r, r = year - 2000 - a * 400 - b * 100 - c * 4 := ⟨_, rfl⟩
    simp only [hloop, ← ha, ← hb, ← hc, ← hr]
    have hyear : year - r = 2000 + 400 * a + 100 * b + 4 * c ∧ r ≤ year := by omega
    have hearly : EarlyInCentury year ↔ 1 ≤ b ∧ c = 0 := by
      unfold EarlyInCentury
      omega
    have hblocks : b < 4 ∧ c < 25 := by omega
    have hsplit := sum_Ico_consecutive yearLength (by omega : 1970 ≤ year - r) (Nat.sub_le year r)
    have hstart := sum_yearLength (by omega : 1970 ≤ year - r)
    rw [Nat.sub_add_cancel hyear.2, ← hsplit]
    simp only [hearly]
    rw [hyear.1] at hstart ⊢
    clear ha hb hc hr hearly hsplit hyear hge h
    split <;> omega

/-! ## The days of the months -/

theorem daysInMonth_eq {mon : ℕ} (h : 1 ≤ mon ∧ mon ≤ 12) (year : ℕ) :
    (monthLength year mon : Int) = daysInMonth mon + if mon = 2 ∧ Leap year then 1 else 0 := by
  obtain ⟨h1, h12⟩ := h
  unfold monthLength
  interval_cases mon <;> by_cases hl : Leap year <;> simp [daysInMonth, hl]

theorem monthDays_eq {year mon : ℕ} (h : 1 ≤ mon ∧ mon ≤ 12) (days : Int) :
    addDays daysInMonth (mon - 1) 1 (days + if isLeapYear year ∧ 2 < mon then 1 else 0)
      = days + (∑ m ∈ Finset.Ico 1 mon, monthLength year m : ℕ) := by
  rw [addDays_eq, Nat.add_sub_cancel' h.1, Nat.cast_sum]
  obtain ⟨h1, h12⟩ := h
  induction mon, h1 using Nat.le_induction with
  | base => simp
  | succ mon h1 ih =>
    have ih := ih (by omega)
    rw [sum_Ico_succ_top h1, sum_Ico_succ_top h1, daysInMonth_eq ⟨h1, by omega⟩ year]
    simp only [isLeapYear_iff] at ih ⊢
    by_cases hl : Leap year
    · simp only [hl, true_and, and_true] at ih ⊢
      split_ifs at ih ⊢ <;> omega
    · simp only [hl, false_and, and_false, if_false] at ih ⊢
      omega

theorem sum_monthLength (year : ℕ) : ∑ m ∈ Finset.Ico 1 13, monthLength year m = yearLength year := by
  unfold monthLength yearLength
  by_cases hl : Leap year
  · simp [sum_Ico_succ_top, hl]
  · simp [sum_Ico_succ_top, hl]

section
variable {dt dt' : Ymdhms}

section
variable (h : dt.Valid)
include h

theorem Ymdhms.Valid.day_lt {mon : ℕ} (hm : dt.mon < mon) :
    ∑ m ∈ Finset.Ico 1 dt.mon, monthLength dt.year m + (dt.day - 1)
      < ∑ m ∈ Finset.Ico 1 mon, monthLength dt.year m := by
  have hsub : Finset.Ico 1 (dt.mon + 1) ⊆ Finset.Ico 1 mon := Finset.Ico_subset_Ico_right hm
  have hle := sum_le_sum_of_subset (f := monthLength dt.year) hsub
  rw [sum_Ico_succ_top h.mon.1] at hle
  have hday := h.day
  omega

theorem Ymdhms.Valid.day_lt_year :
    ∑ m ∈ Finset.Ico 1 dt.mon, monthLength dt.year m + (dt.day - 1) < yearLength dt.year := by
  rw [← sum_monthLength]
  exact h.day_lt (Nat.lt_succ_of_le h.mon.2)

theorem dayNumber_lt (hy : 1970 ≤ dt.year)
    (hlt : dt.year < dt'.year ∨ dt.year = dt'.year ∧ (dt.mon < dt'.mon ∨
      dt.mon = dt'.mon ∧ dt.day < dt'.day)) : dayNumber dt < dayNumber dt' := by
  unfold dayNumber
  rcases hlt with hlt | ⟨heq, hlt | ⟨hm, hlt⟩⟩
  · have hsub : Finset.Ico 1970 (dt.year + 1) ⊆ Finset.Ico 1970 dt'.year :=
      Finset.Ico_subset_Ico_right hlt
    have hle := sum_le_sum_of_subset (f := yearLength) hsub
    rw [sum_Ico_succ_top hy] at hle
    have hday := h.day_lt_year
    omega
  · have hday := h.day_lt hlt
    rw [heq] at hday ⊢
    omega
  · have hday := h.day
    rw [heq, hm]
    omega

theorem posixSecs_lt (hy : 1970 ≤ dt.year) (hlt : dt.Before dt') :
    posixSecs dt < posixSecs dt' := by
  have htime : dt.timeOfDay < 86400 := by
    have hh := h.hour
    have hmin := h.min
    have hs := h.sec
    unfold Ymdhms.timeOfDay
    omega
  unfold posixSecs
  rcases hlt with hlt | ⟨heq, hlt | ⟨hm, hlt | ⟨hd, hlt⟩⟩⟩
  · have := dayNumber_lt h hy (.inl hlt)
    omega
  · have := dayNumber_lt h hy (.inr ⟨heq, .inl hlt⟩)
    omega
  · have := dayNumber_lt h hy (.inr ⟨heq, .inr ⟨hm, hlt⟩⟩)
    omega
  · have hday : dayNumber dt = dayNumber dt' := by
      unfold dayNumber
      rw [heq, hm, hd]
    omega

/-! ## The seconds -/

/-- What the function returns, and the day that it loses. -/
theorem clockYmdhmsToSecs_eq (hy : 1970 ≤ dt.year) (hmax : dt.year ≤ 10 ^ 9) :
    clockYmdhmsToSecs dt + (if EarlyInCentury dt.year then 86400 else 0) = posixSecs dt := by
  have hyears := yearDays_eq hy (if isLeapYear dt.year ∧ 2 < dt.mon then 1 else 0)
  rw [add_comm (ite _ _ _), ← eq_sub_iff_add_eq, add_sub_right_comm] at hyears
  have hsum := sum_yearLength hy
  have hdays := h.day_lt_year
  have hlen : yearLength dt.year ≤ 366 := by
    unfold yearLength
    split <;> omega
  have hday := h.day
  have hh := h.hour
  have hmin := h.min
  have hs := h.sec
  unfold clockYmdhmsToSecs posixSecs dayNumber Ymdhms.timeOfDay
  simp only
  rw [if_neg (by omega), hyears, monthDays_eq h.mon]
  split
  next he =>
    have h2000 := he.1
    omega
  next he => omega

end

/-- **When the seconds are right.**  From a date that is, to a later one that is, they grow. -/
theorem clockYmdhmsToSecs_iff (h : dt.Valid) (hy : 1970 ≤ dt.year) (hmax : dt.year ≤ 10 ^ 9) :
    (clockYmdhmsToSecs dt = posixSecs dt ↔ ¬ EarlyInCentury dt.year) ∧
      ∀ dt', dt'.Valid → dt'.year ≤ 10 ^ 9 → ¬ EarlyInCentury dt.year → ¬ EarlyInCentury dt'.year →
        dt.Before dt' → clockYmdhmsToSecs dt < clockYmdhmsToSecs dt' := by
  have heq := clockYmdhmsToSecs_eq h hy hmax
  refine ⟨?_, ?_⟩
  · split at heq
    next he => exact iff_of_false (by omega) (not_not.mpr he)
    next he => exact iff_of_true heq he
  · intro dt' h' hmax' he he' hlt
    have hy' : 1970 ≤ dt'.year := by
      rcases hlt with hlt | ⟨heq, -⟩
      · omega
      · omega
    have heq' := clockYmdhmsToSecs_eq h' hy' hmax'
    rw [if_neg he] at heq
    rw [if_neg he'] at heq'
    rw [← Nat.add_zero (clockYmdhmsToSecs dt), ← Nat.add_zero (clockYmdhmsToSecs dt'), heq, heq']
    exact posixSecs_lt h hy hlt

/-- The last second of 2099 and the first of 2104. -/
theorem clockYmdhmsToSecs_2099 :
    clockYmdhmsToSecs ⟨2099, 12, 31, 23, 59, 59⟩ = posixSecs ⟨2099, 12, 31, 23, 59, 59⟩ ∧
      clockYmdhmsToSecs ⟨2099, 12, 31, 23, 59, 59⟩ < clockYmdhmsToSecs ⟨2104, 1, 1, 0, 0, 0⟩ := by
  have h := @clockYmdhmsToSecs_iff ⟨2099, 12, 31, 23, 59, 59⟩
    ⟨by decide, by decide, by decide, by decide, by decide⟩ (by decide) (by decide)
  exact ⟨h.1.mpr (by decide), h.2 ⟨2104, 1, 1, 0, 0, 0⟩
    ⟨by decide, by decide, by decide, by decide, by decide⟩ (by decide) (by decide) (by decide)
    (.inl (by decide))⟩

/-- A second later, in 2100, it is a day earlier. -/
theorem clockYmdhmsToSecs_2100 :
    clockYmdhmsToSecs ⟨2099, 12, 31, 23, 59, 59⟩ = 4102444799 ∧
      clockYmdhmsToSecs ⟨2100, 1, 1, 0, 0, 0⟩ = 4102358400 ∧
      posixSecs ⟨2100, 1, 1, 0, 0, 0⟩ = 4102444800 := by
  refine ⟨by decide, by decide, ?_⟩
  rw [← clockYmdhmsToSecs_eq ⟨by decide, by decide, by decide, by decide, by decide⟩ (by decide)
    (by decide)]
  decide

end

end Librettos.ClockSubr
