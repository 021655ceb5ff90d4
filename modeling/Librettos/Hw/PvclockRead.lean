/-
# `Hw.PvclockRead` — reading the time of the hypervisor

`_pvclock_monotonic` (`clock.c`) reads the record that the hypervisor keeps for its processor.
`tsc_shift` is read twice, once for its sign and once for the shift, and the order of the last two
reads is left to the compiler.  The number of the record and the loop around it are those of
`Lib.Seqlock`, and so the time is that of one update of the record.

Shift counts are taken modulo 64, as the processor does it.
-/
import Librettos.Lib.Seqlock
import Librettos.Hw.Tscclock

namespace Librettos.PvclockRead

open Trans Tscclock

/-- The fields of `struct pvclock_vcpu_time_info`. -/
inductive Field
  | tscTimestamp
  | systemTime
  | tscToSystemMul
  | tscShift
deriving DecidableEq, Repr

abbrev Val : Field → Type
  | .tscTimestamp => BitVec 64
  | .systemTime => BitVec 64
  | .tscToSystemMul => BitVec 32
  | .tscShift => BitVec 8

/-- The reads of an attempt, in the two orders. -/
def programs : List (List Field) :=
  [[.tscTimestamp, .tscShift, .tscShift, .tscToSystemMul, .systemTime],
    [.tscTimestamp, .tscShift, .tscShift, .systemTime, .tscToSystemMul]]

/-- `if (tsc_shift < 0) delta >>= -tsc_shift; else delta <<= tsc_shift;`, where `shift` is the second
reading -/
def shiftDelta (delta : BitVec 64) (sign shift : BitVec 8) : BitVec 64 :=
  if sign.toInt < 0 then delta >>> ((-shift.toInt) % 64).toNat
  else delta <<< (shift.toInt % 64).toNat

/-- `time_now`, from what `rdtsc` returned and the five readings -/
def timeNow (arch : Arch) (tsc tscTimestamp : BitVec 64) (sign shift : BitVec 8) (mul : BitVec 32)
    (systemTime : BitVec 64) : BitVec 64 :=
  mul6432 arch (shiftDelta (tsc - tscTimestamp) sign shift) mul + systemTime

/-- The readings as they were made. -/
def timeOf (arch : Arch) (tsc : BitVec 64) : List (Σ f, Val f) → Option (BitVec 64)
  | [⟨.tscTimestamp, t⟩, ⟨.tscShift, sign⟩, ⟨.tscShift, shift⟩, ⟨.tscToSystemMul, mul⟩,
      ⟨.systemTime, time⟩] => some (timeNow arch tsc t sign shift mul time)
  | [⟨.tscTimestamp, t⟩, ⟨.tscShift, sign⟩, ⟨.tscShift, shift⟩, ⟨.systemTime, time⟩,
      ⟨.tscToSystemMul, mul⟩] => some (timeNow arch tsc t sign shift mul time)
  | _ => none

abbrev State := Seqlock.State Val (BitVec 64)

abbrev Act := Seqlock.Act Val (BitVec 64)

/-- The hypervisor and `_pvclock_monotonic`. -/
def step : State → Act → Option State := Seqlock.step programs

/-- The time by one update of the record. -/
def timeAt (arch : Arch) (tsc : BitVec 64) (u : ∀ f, Val f) : BitVec 64 :=
  timeNow arch tsc (u .tscTimestamp) (u .tscShift) (u .tscShift) (u .tscToSystemMul) (u .systemTime)

/-- **One update.**  Whatever the hypervisor does in between, a time that is returned is computed from
one completed update of the record. -/
theorem time_from_one_update (arch : Arch) {s : State}
    (h : Reach step Seqlock.Few Seqlock.Init s) :
    ∀ r ∈ s.returned, ∃ u ∈ s.updates, timeOf arch r.x r.got = some (timeAt arch r.x u) := by
  intro r hr
  obtain ⟨hprog, u, hu, hof⟩ := Seqlock.returned_consistent h r hr
  refine ⟨u, hu, ?_⟩
  rw [Seqlock.Result.Of] at hof
  rw [hof]
  simp only [programs, List.mem_cons, List.not_mem_nil, or_false] at hprog
  rcases hprog with hp | hp <;> rw [hp] <;> rfl

/-- A record, by the number of its update. -/
def record (n : ℕ) : ∀ f, Val f
  | .tscTimestamp => BitVec.ofNat 64 (1000 * n)
  | .systemTime => BitVec.ofNat 64 (2000 * n)
  | .tscToSystemMul => 0x80000000#32
  | .tscShift => 1#8

/-- The record is updated while an attempt is reading it, and the next attempt returns. -/
def oneUpdate : List Act :=
  [.start 5000 [.tscTimestamp, .tscShift, .tscShift, .tscToSystemMul, .systemTime], .read, .begin, .read,
    .write .systemTime (record 2 .systemTime), .read, .write .tscTimestamp (record 2 .tscTimestamp),
    .finish, .read, .read, .test, .compare,
    .start 5001 [.tscTimestamp, .tscShift, .tscShift, .systemTime, .tscToSystemMul], .read, .read, .read,
    .read, .read, .test, .compare]

/-- The time is that of the second record, 3001 ticks after its timestamp. -/
theorem time_from_one_update_second :
    ∃ s : State, s.returned.map (fun r => timeOf .x86_64 r.x r.got) = [some 7001] ∧
      ∀ r ∈ s.returned, ∃ u ∈ s.updates, timeOf .x86_64 r.x r.got = some (timeAt .x86_64 r.x u) := by
  have hinit : Seqlock.Init (⟨0, record 1, .idle, 0, [record 1], []⟩ : State) :=
    ⟨rfl, rfl, rfl, rfl, rfl⟩
  obtain ⟨s, hreach, hp⟩ := run_finds step Seqlock.Few Seqlock.Init
    (fun s => s.returned.map (fun r => timeOf .x86_64 r.x r.got) = [some 7001]) oneUpdate hinit
    (by decide +kernel) (by decide +kernel)
  exact ⟨s, hp, time_from_one_update .x86_64 hreach⟩

end Librettos.PvclockRead
