/-
# `Core.Deadline` — the arithmetic of deadlines

Three callers compute `bt_wakeup_time` from a timeout in seconds and nanoseconds:

    rumpuser_cv_timedwait   now + sec * UINT64_C(1000000000) + nsec        unsigned
    rumpuser_clock_sleep    deadline += sec * 1000*1000*1000 + nsec        signed
    _lwp_park               nsecs = tv_sec*1000*1000*1000 + tv_nsec, and then
                            nsecs -= epochoffset  or  nsecs += now         signed

All of it is in 64 bits and wraps; for the signed ones this is what the processor does, the
language leaves it open.  So the deadline is the sum modulo `2^64`, read as a signed number.
A timeout from `2^63` nanoseconds on comes out in the past unless it wraps far enough, and the
absolute time one nanosecond before the epoch offset comes out as `BMK_SCHED_BLOCK_INFTIME`,
which `bmk_insert_timeq` asserts it is not (`deadline_past`).  The timeouts for which neither
happens are found exactly (`deadline_ahead`).
-/
import Librettos.Core.Timeq

namespace Librettos.Deadline

open BitVec
open Timeq (infTime)

/-- `enum rumpclock` -/
inductive Rumpclock
  | relwall
  | absmono
deriving DecidableEq, Repr

/-- `rumpuser_cv_timedwait` -/
def rumpuserCvTimedwait (now sec nsec : BitVec 64) : BitVec 64 := now + sec * 1000000000#64 + nsec

/-- `rumpuser_clock_sleep` -/
def rumpuserClockSleep (rclk : Rumpclock) (now sec nsec : BitVec 64) : BitVec 64 :=
  let deadline := if rclk = .relwall then now else 0#64
  deadline + (sec * 1000#64 * 1000#64 * 1000#64 + nsec)

/-- `_lwp_park`, with `flags & TIMER_ABSTIME` -/
def lwpPark (abstime : Bool) (now epochoffset sec nsec : BitVec 64) : BitVec 64 :=
  let nsecs := sec * 1000#64 * 1000#64 * 1000#64 + nsec
  if abstime then nsecs - epochoffset else nsecs + now

/-- The callers that are given a time from now. -/
inductive Caller
  | cvTimedwait
  | clockSleep
  | lwpPark
deriving DecidableEq, Repr

def Caller.deadline (now epochoffset sec nsec : BitVec 64) : Caller → BitVec 64
  | .cvTimedwait => rumpuserCvTimedwait now sec nsec
  | .clockSleep => rumpuserClockSleep .relwall now sec nsec
  | .lwpPark => Deadline.lwpPark false now epochoffset sec nsec

/-- The timeout in nanoseconds, as a number. -/
def nanoseconds (sec nsec : BitVec 64) : Int := sec.toInt * 10 ^ 9 + nsec.toInt

/-- The clock has been running for 146 years at most; the seconds are not negative. -/
structure Args (now sec : BitVec 64) : Prop where
  now_nonneg : 0 ≤ now.toInt
  now_le : now.toInt ≤ 2 ^ 62
  sec_nonneg : 0 ≤ sec.toInt

/-- The deadline is one, and is in the future if what was asked for is. -/
structure Kept (now wanted deadline : Int) : Prop where
  finite : deadline ≠ infTime
  ahead : now < wanted → now < deadline

section
variable {now epochoffset sec nsec : BitVec 64}

/-! ## What is computed -/

theorem mul_thousands (sec : BitVec 64) :
    sec * 1000#64 * 1000#64 * 1000#64 = sec * 1000000000#64 := by
  rw [BitVec.mul_assoc, BitVec.mul_assoc]
  rfl

theorem Caller.deadline_eq (caller : Caller) : caller.deadline now epochoffset sec nsec =
    now + (sec * 1000000000#64 + nsec) := by
  cases caller with
  | cvTimedwait => exact BitVec.add_assoc now _ nsec
  | clockSleep => rw [Caller.deadline, rumpuserClockSleep, mul_thousands, if_pos rfl]
  | lwpPark =>
    rw [Caller.deadline, Deadline.lwpPark, mul_thousands, if_neg (by simp), BitVec.add_comm]

theorem toInt_nsecs (sec nsec : BitVec 64) :
    (sec * 1000000000#64 + nsec).toInt = (nanoseconds sec nsec).bmod (2 ^ 64) := by
  rw [toInt_add, toInt_mul, Int.bmod_add_bmod]
  rfl

theorem toInt_deadline (caller : Caller) :
    (caller.deadline now epochoffset sec nsec).toInt =
      (now.toInt + nanoseconds sec nsec).bmod (2 ^ 64) := by
  rw [caller.deadline_eq, toInt_add, toInt_nsecs, Int.add_bmod_bmod]

theorem toInt_lwpPark_abstime :
    (lwpPark true now epochoffset sec nsec).toInt =
      (nanoseconds sec nsec - epochoffset.toInt).bmod (2 ^ 64) := by
  rw [lwpPark, mul_thousands, if_pos rfl, toInt_sub, toInt_nsecs, Int.bmod_sub_bmod]

theorem Args.nanoseconds_nonneg (h : Args now sec) (hnsec : 0 ≤ nsec.toInt) :
    0 ≤ nanoseconds sec nsec := by
  have hsec := h.sec_nonneg
  rw [nanoseconds]
  positivity

/-! ## When it is ahead -/

theorem kept_iff {t wanted deadline : Int} :
    Kept t wanted deadline ↔ deadline ≠ -1 ∧ (t < wanted → t < deadline) :=
  ⟨fun h => ⟨h.finite, h.ahead⟩, fun h => ⟨h.1, h.2⟩⟩

/-- A sum that wraps falls short of its first term, unless it wraps all the way round. -/
theorem kept_bmod_iff {t n : Int} (h0 : 0 ≤ t) (ht : t ≤ 2 ^ 62) (hn : 0 ≤ n) :
    Kept t (t + n) ((t + n).bmod (2 ^ 64)) ↔ n = 0 ∨ 0 < n % 2 ^ 64 ∧ t + n % 2 ^ 64 < 2 ^ 63 := by
  rw [kept_iff]
  simp only [Int.bmod_def]
  split <;> omega

/-- Between `-2^64` and the clock only -1 comes out as -1. -/
theorem kept_bmod_abs_iff {t y : Int} (h0 : 0 ≤ t) (ht : t ≤ 2 ^ 62) (hy : -2 ^ 64 < y) :
    Kept t y (y.bmod (2 ^ 64)) ↔ y ≠ -1 ∧ (t < y → t < y % 2 ^ 64 ∧ y % 2 ^ 64 < 2 ^ 63) := by
  rw [kept_iff]
  simp only [Int.bmod_def]
  split <;> omega

end

/-- **Deadlines ahead.**  A relative timeout gives a deadline, and one in the future, if and only
if it is 0 or its nanoseconds, modulo `2^64`, are not 0 and do not take the clock to `2^63`.  An
absolute one does so if and only if it is not the nanosecond before the epoch offset and, where
it is in the future, its distance from the epoch offset modulo `2^64` is beyond the clock and
below `2^63`. -/
theorem deadline_ahead (now epochoffset sec nsec : BitVec 64) (h : Args now sec) :
    (∀ caller : Caller, 0 ≤ nsec.toInt →
      (Kept now.toInt (now.toInt + nanoseconds sec nsec)
          (caller.deadline now epochoffset sec nsec).toInt ↔
        nanoseconds sec nsec = 0 ∨ 0 < nanoseconds sec nsec % 2 ^ 64 ∧
          now.toInt + nanoseconds sec nsec % 2 ^ 64 < 2 ^ 63)) ∧
    (Kept now.toInt (nanoseconds sec nsec - epochoffset.toInt)
        (lwpPark true now epochoffset sec nsec).toInt ↔
      nanoseconds sec nsec - epochoffset.toInt ≠ -1 ∧
        (now.toInt < nanoseconds sec nsec - epochoffset.toInt →
          now.toInt < (nanoseconds sec nsec - epochoffset.toInt) % 2 ^ 64 ∧
          (nanoseconds sec nsec - epochoffset.toInt) % 2 ^ 64 < 2 ^ 63)) := by
  constructor
  · intro caller hnsec
    rw [toInt_deadline]
    exact kept_bmod_iff h.now_nonneg h.now_le (h.nanoseconds_nonneg hnsec)
  · rw [toInt_lwpPark_abstime]
    refine kept_bmod_abs_iff h.now_nonneg h.now_le ?_
    have hsec := h.sec_nonneg
    have hnsec := le_toInt nsec
    have hoffset := toInt_lt (x := epochoffset)
    rw [nanoseconds]
    omega

/-- Five seconds from now, a second after boot. -/
theorem deadline_ahead_five :
    Kept 1000000000 6000000000
      (Caller.deadline 1000000000#64 0#64 5#64 0#64 .cvTimedwait).toInt :=
  ((deadline_ahead 1000000000#64 0#64 5#64 0#64 ⟨by decide, by decide, by decide⟩).1 .cvTimedwait
    (by decide)).mpr (.inr (by decide))

/-- **Deadlines in the past.**  `2^63 - 1` seconds from a moment after boot are over before that;
and the nanosecond before the epoch offset is no deadline for `bmk_insert_timeq`. -/
theorem deadline_past :
    ((Caller.deadline 1#64 0#64 (BitVec.intMax 64) 0#64 .cvTimedwait).toInt < 1 ∧
      (Caller.deadline 1#64 0#64 (BitVec.intMax 64) 0#64 .clockSleep).toInt < 1 ∧
      (Caller.deadline 1#64 0#64 (BitVec.intMax 64) 0#64 .lwpPark).toInt < 1) ∧
    Timeq.bmkInsertTimeq (fun _ : Unit =>
      (lwpPark true 0#64 1700000000000000000#64 1699999999#64 999999999#64).toInt) () [] =
        .error .infTime := by
  decide

end Librettos.Deadline
