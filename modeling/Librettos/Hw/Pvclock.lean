/-
# `Hw.Pvclock` — the monotonic clock over all processors

`pvclock_monotonic` (`clock.c`) takes the reading of its own processor and synchronises it
with the word `monotonic_value`, which all processors share: a caller that finds a later
time there returns that time, any other one puts its own reading there by a weak
compare-exchange.  The load and each compare-exchange are one step, and the readings are
arbitrary below `2^63`.

The word is a `uint64_t` and the comparison is one of `bmk_time_t`, which is signed.  Both are
the same here since nothing but readings gets into the word.

`before` and `log` are ghosts for the real-time order of calls: what had been returned when
a call started, and for each finished call what it was started after and what it returned.
-/
import Librettos.Lib.Trans

namespace Librettos.Pvclock

open Trans
open Function (update)

/-- A `bmk_time_t`, and what is in `monotonic_value`. -/
abbrev Time := BitVec 64

/-- Where a caller is. -/
inductive Pc
  | idle
  /-- has its reading; at `__atomic_load_n` -/
  | load (time : Time)
  /-- at the compare-exchange -/
  | cas (value time : Time)
deriving DecidableEq, Repr

structure State (T : Type) where
  monotonicValue : Time
  pc : T → Pc
  returned : List Time
  before : T → List Time
  log : List (List Time × Time)

inductive Act (T : Type)
  /-- a call, with what `_pvclock_monotonic` returns -/
  | call (t : T) (time : Time)
  /-- the next step; `fail` is a spurious failure of the compare-exchange -/
  | go (t : T) (fail : Bool)
deriving DecidableEq, Repr

section
variable {T : Type} [DecidableEq T]

/-- The call of `t` returns `v`. -/
def State.ret (s : State T) (t : T) (v : Time) : State T :=
  { s with
    pc := update s.pc t .idle
    returned := v :: s.returned
    log := (s.before t, v) :: s.log }

/-- `if (value >= time) return value` -/
def State.look (s : State T) (t : T) (value time : Time) : State T :=
  if time.sle value then s.ret t value
  else { s with pc := update s.pc t (.cas value time) }

def go (s : State T) (t : T) (fail : Bool) : Option (State T) :=
  match s.pc t with
  | .idle => none
  | .load time => some (s.look t s.monotonicValue time)
  | .cas value time =>
    if s.monotonicValue = value ∧ fail = false then
      some ({ s with monotonicValue := time }.ret t time)
    else some (s.look t s.monotonicValue time)

def step (s : State T) : Act T → Option (State T)
  | .call t time =>
    if s.pc t = .idle ∧ time.toNat < 2 ^ 63 then
      some { s with
        pc := update s.pc t (.load time)
        before := update s.before t s.returned }
    else none
  | .go t fail => go s t fail

/-- Nobody has called. -/
structure Init (s : State T) : Prop where
  monotonicValue : s.monotonicValue = 0
  pc : ∀ t, s.pc t = .idle
  returned : s.returned = []
  log : s.log = []

/-! ## The invariant -/

/-- What is known of a caller: what had been returned when it started is not later than what
it has seen since. -/
def Pc.Ok (monotonicValue : Time) (before : List Time) : Pc → Prop
  | .idle => True
  | .load time => time.toNat < 2 ^ 63 ∧ ∀ v ∈ before, v.toNat ≤ monotonicValue.toNat
  | .cas value time => time.toNat < 2 ^ 63 ∧ value.toNat < time.toNat ∧
      value.toNat ≤ monotonicValue.toNat ∧ ∀ v ∈ before, v.toNat ≤ value.toNat

structure Inv (s : State T) : Prop where
  small : s.monotonicValue.toNat < 2 ^ 63
  returned : ∀ v ∈ s.returned, v.toNat ≤ s.monotonicValue.toNat
  caller : ∀ t, (s.pc t).Ok s.monotonicValue (s.before t)
  log : ∀ e ∈ s.log, e.2.toNat < 2 ^ 63 ∧ ∀ v ∈ e.1, v.toNat ≤ e.2.toNat

variable {s s' : State T} {t : T} {value time : Time}

section
omit [DecidableEq T]

/-- Below `2^63` the signed comparison is the unsigned one. -/
theorem sle_iff {a b : Time} (ha : a.toNat < 2 ^ 63) (hb : b.toNat < 2 ^ 63) :
    a.sle b = true ↔ a.toNat ≤ b.toNat := by
  rw [BitVec.sle_eq_decide, decide_eq_true_iff, BitVec.toInt_eq_toNat_of_lt (by omega),
    BitVec.toInt_eq_toNat_of_lt (by omega)]
  exact Int.ofNat_le

theorem Pc.Ok.grow {c : Pc} {m m' : Time} {l : List Time} (h : c.Ok m l)
    (hm : m.toNat ≤ m'.toNat) : c.Ok m' l := by
  cases c with
  | idle => trivial
  | load time => exact ⟨h.1, fun v hv => (h.2 v hv).trans hm⟩
  | cas value time =>
    obtain ⟨htime, hlt, hle, hb⟩ := h
    exact ⟨htime, hlt, hle.trans hm, hb⟩

theorem Init.inv (h : Init s) : Inv s where
  small := by simp [h.monotonicValue]
  returned := by simp [h.returned]
  caller := by
    intro t
    rw [h.pc t]
    trivial
  log := by simp [h.log]

end

theorem Inv.ret (h : Inv s) {v : Time} (hv : v.toNat ≤ s.monotonicValue.toNat)
    (hb : ∀ w ∈ s.before t, w.toNat ≤ v.toNat) : Inv (s.ret t v) where
  small := h.small
  returned := by
    intro w hw
    rcases List.mem_cons.mp hw with rfl | hw
    · exact hv
    · exact h.returned w hw
  caller := by
    intro u
    by_cases hu : u = t
    · subst hu
      simp [State.ret, Pc.Ok]
    · simpa [State.ret, hu] using h.caller u
  log := by
    intro e he
    rcases List.mem_cons.mp he with rfl | he
    · exact ⟨hv.trans_lt h.small, hb⟩
    · exact h.log e he

theorem Inv.look (h : Inv s) (htime : time.toNat < 2 ^ 63)
    (hb : ∀ v ∈ s.before t, v.toNat ≤ s.monotonicValue.toNat) :
    Inv (s.look t s.monotonicValue time) := by
  by_cases hle : time.sle s.monotonicValue = true
  · rw [State.look, if_pos hle]
    exact h.ret le_rfl hb
  · rw [State.look, if_neg hle]
    rw [sle_iff htime h.small, not_le] at hle
    refine ⟨h.small, h.returned, fun u => ?_, h.log⟩
    by_cases hu : u = t
    · subst hu
      simpa [Pc.Ok] using ⟨htime, hle, hb⟩
    · simpa [hu] using h.caller u

theorem Inv.exchange (h : Inv s) (hpc : s.pc t = .cas s.monotonicValue time) :
    Inv ({ s with monotonicValue := time }.ret t time) := by
  have ht := h.caller t
  rw [hpc] at ht
  obtain ⟨htime, hlt, -, hb⟩ := ht
  have hmoved : Inv { s with monotonicValue := time } := by
    refine ⟨htime, fun v hv => (h.returned v hv).trans hlt.le, fun u => ?_, h.log⟩
    exact (h.caller u).grow hlt.le
  exact hmoved.ret le_rfl fun v hv => (hb v hv).trans hlt.le

theorem Inv.step {a : Act T} (h : Inv s) (hs : step s a = some s') :
    Inv s' ∧ s.monotonicValue.toNat ≤ s'.monotonicValue.toNat := by
  have hlook : ∀ t time, (s.look t s.monotonicValue time).monotonicValue = s.monotonicValue := by
    intro t time
    rw [State.look]
    split <;> rfl
  cases a with
  | call t time =>
    obtain ⟨⟨-, htime⟩, ⟨⟩⟩ := Option.ite_none_right_eq_some.mp hs
    refine ⟨⟨h.small, h.returned, fun u => ?_, h.log⟩, le_rfl⟩
    by_cases hu : u = t
    · subst hu
      simpa [Pc.Ok] using ⟨htime, h.returned⟩
    · simpa [hu] using h.caller u
  | go t fail =>
    have ht := h.caller t
    cases hpc : s.pc t with
    | idle => simp [Pvclock.step, go, hpc] at hs
    | load time =>
      simp only [Pvclock.step, go, hpc, Option.some.injEq] at hs
      subst hs
      rw [hpc] at ht
      exact ⟨h.look ht.1 ht.2, (by rw [hlook])⟩
    | cas value time =>
      simp only [Pvclock.step, go, hpc] at hs
      rw [hpc] at ht
      obtain ⟨htime, hlt, hle, hb⟩ := ht
      split at hs
      · next hc =>
        cases hs
        rw [← hc.1] at hpc hlt
        exact ⟨h.exchange hpc, hlt.le⟩
      · cases hs
        exact ⟨h.look htime fun v hv => (hb v hv).trans hle, (by rw [hlook])⟩

/-- A call that starts after another one has returned `v` returns no earlier time, and
`monotonic_value` never decreases. -/
theorem pvclock_monotonic (h : Reach (step (T := T)) Trans.any Init s) :
    (∀ e ∈ s.log, ∀ v ∈ e.1, v.toInt ≤ e.2.toInt) ∧
      ∀ a s', step s a = some s' → s.monotonicValue.toNat ≤ s'.monotonicValue.toNat := by
  have hinv : Inv s := h.inv (I := Inv) (fun _ h0 => h0.inv) fun _ _ _ hi _ hs => (hi.step hs).1
  refine ⟨fun e he v hv => ?_, fun a s' hs => (hinv.step hs).2⟩
  obtain ⟨hsmall, hle⟩ := hinv.log e he
  have hv' := hle v hv
  rw [BitVec.toInt_eq_toNat_of_lt (by omega), BitVec.toInt_eq_toNat_of_lt (by omega)]
  exact Int.ofNat_le.mpr hv'

end

/-- The first processor reads and returns `5`; the second one, which is behind, starts after
that and reads `3`. -/
def behind : List (Act Bool) :=
  [.call true 5, .go true false, .go true false, .call false 3, .go false false]

/-- Nobody has called yet. -/
def boot : State Bool where
  monotonicValue := 0
  pc := fun _ => .idle
  returned := []
  before := fun _ => []
  log := []

theorem pvclock_monotonic_behind :
    ∃ s : State Bool, Reach step Trans.any Init s ∧ ([5], 5) ∈ s.log ∧
      ∀ v ∈ [(5 : Time)], v.toInt ≤ (5 : Time).toInt := by
  obtain ⟨s, hreach, hlog⟩ := any_finds (step (T := Bool)) Init
    (fun s => ([5], 5) ∈ s.log) (s := boot) behind
    ⟨rfl, fun _ => rfl, rfl, rfl⟩ (by decide)
  exact ⟨s, hreach, hlog, (pvclock_monotonic hreach).1 _ hlog⟩

end Librettos.Pvclock
