/-
# `Lib.Sleeper` — going to sleep on a flag

A thread that sleeps until somebody has work for it, without a lock.  The flag
word has three values:

     1   the thread is up (or somebody has called it)
    -1   the thread is about to sleep
     0   the thread sleeps

The thread stores `-1`, looks once more for work, and gives up the processor.
Whoever runs next on that processor finishes the switch by a compare-exchange
from `-1` to `0`; if that fails somebody has called, and the thread goes straight
back to the run queue.  A caller exchanges the flag for `1` and puts the thread
on the run queue if it found `0`.

There may be several such words `K`, one of which is in use at a time; a thread
moves on to the next one while it is up.  The library has the words, the thread's
seat and the callers between their exchange and their wake, one operation for each
atomic step, and the two facts one wants of them.  `Rested`: a thread that is off
the processor and on no run queue has a flag at `0`, so that the next caller will
find it.  `Sound`: a flag the thread has used is `0` only then, so that no caller
wakes a thread that is up.
-/
import Mathlib.Logic.Function.Basic
import Mathlib.Tactic

namespace Sleeper

open Function (update update_of_ne)

/-- Where the thread is. -/
inductive Seat
  /-- it runs -/
  | up
  /-- it has given up the processor, the compare-exchange is still to come -/
  | leaving
  /-- it has given up the processor and is about to be put on the run queue -/
  | turning
  /-- it has been switched out for good -/
  | out
deriving DecidableEq, Repr

/-- The flag words and those among them that the thread has stored to, the thread
and its entries on the run queue, and the callers `H` that found `0` and have not
put it there yet. -/
structure Bed (K H : Type) where
  flag : K → ℤ
  used : K → Bool
  seat : Seat
  queued : ℕ
  waking : H → Bool

section
variable {K H : Type}

/-- The thread gives up the processor to sleep. -/
def Bed.leave (b : Bed K H) : Bed K H := { b with seat := .leaving }

/-- The thread gives up the processor for a moment. -/
def Bed.yield (b : Bed K H) : Bed K H := { b with seat := .turning }

/-- The thread is put back on the run queue by whoever finishes its switch. -/
def Bed.turn (b : Bed K H) : Bed K H := { b with seat := .out, queued := b.queued + 1 }

/-- The thread is taken from the run queue and runs. -/
def Bed.resume (b : Bed K H) : Bed K H := { b with seat := .up, queued := b.queued - 1 }

variable [DecidableEq K]

/-- The thread stores to a flag word: `1` when it is up, `-1` before it sleeps. -/
def Bed.store (b : Bed K H) (k : K) (v : ℤ) : Bed K H :=
  { b with flag := update b.flag k v, used := update b.used k true }

/-- The compare-exchange that finishes the switch. -/
def Bed.settle (b : Bed K H) (k : K) : Bed K H :=
  if b.flag k = -1 then { b with flag := update b.flag k 0, seat := .out }
  else { b with seat := .turning }

theorem Bed.settle_waking (b : Bed K H) (k : K) : (b.settle k).waking = b.waking := by
  unfold Bed.settle
  split <;> rfl

/-- A word is made ready for use: it holds `0` and the thread has not stored to it. -/
def Bed.renew (b : Bed K H) (k : K) : Bed K H :=
  { b with flag := update b.flag k 0, used := update b.used k false }

variable [DecidableEq H]

/-- The caller's exchange. -/
def Bed.call (b : Bed K H) (k : K) (h : H) : Bed K H :=
  { b with
    flag := update b.flag k 1
    waking := update b.waking h (decide (b.flag k = 0)) }

/-- The caller puts the thread on the run queue. -/
def Bed.wake (b : Bed K H) (h : H) : Bed K H :=
  { b with queued := b.queued + 1, waking := update b.waking h false }

end

/-! ## A sleeping thread can be found -/

section
variable {K H : Type} {b : Bed K H} {k : K}

/-- A thread that is out and on no run queue sleeps on the word `k`, or somebody is
about to put it on the run queue. -/
def Rested (b : Bed K H) (k : K) : Prop :=
  b.seat = .out → b.queued = 0 → b.flag k = 0 ∨ ∃ h, b.waking h = true

theorem Rested.of_seat (hseat : b.seat ≠ .out) : Rested b k := fun h => absurd h hseat

theorem Rested.turn : Rested b.turn k := fun _ h => absurd h (by simp [Bed.turn])

theorem Rested.settle [DecidableEq K] : Rested (b.settle k) k := by
  intro hout _
  by_cases hf : b.flag k = -1
  · exact .inl (by simp [Bed.settle, hf])
  · exact absurd hout (by simp [Bed.settle, hf])

variable [DecidableEq H]

theorem Rested.call [DecidableEq K] (hr : Rested b k) {h : H} (hh : b.waking h = false) :
    Rested (b.call k h) k := by
  intro hseat hq
  rcases hr hseat hq with hf | ⟨h', hh'⟩
  · exact .inr ⟨h, by simp [Bed.call, hf]⟩
  · refine .inr ⟨h', ?_⟩
    have hne : h' ≠ h := by
      rintro rfl
      rw [hh] at hh'
      exact absurd hh' (by simp)
    simpa [Bed.call, update_of_ne hne] using hh'

theorem Rested.wake (h : H) : Rested (b.wake h) k := fun _ hq => absurd hq (by simp [Bed.wake])

end

/-! ## Only a sleeping thread is woken -/

section
variable {K H : Type} {b : Bed K H}

/-- A used flag is `0` only while the thread sleeps and nobody is waking it, and
then no other is; and at most one caller is waking it, while it is out and on no
run queue. -/
structure Sound (b : Bed K H) : Prop where
  asleep : ∀ k, b.used k = true → b.flag k = 0 →
    b.seat = .out ∧ b.queued = 0 ∧ ∀ h, b.waking h = false
  word : ∀ j k, b.used j = true → b.used k = true → b.flag j = 0 → b.flag k = 0 → j = k
  fresh : ∀ k, b.flag k = -1 → b.used k = true
  waking : ∀ h, b.waking h = true → b.seat = .out ∧ b.queued = 0
  one : ∀ h h', b.waking h = true → b.waking h' = true → h' = h
  here : b.seat ≠ .out → b.queued = 0
  once : b.queued ≤ 1

theorem Sound.nobody (hb : Sound b) (hseat : b.seat ≠ .out) (h : H) : b.waking h = false := by
  by_contra hw
  exact hseat (hb.waking h (by simpa using hw)).1

theorem Sound.move (hb : Sound b) (hseat : b.seat ≠ .out) (seat : Seat) :
    Sound { b with seat := seat } where
  asleep k hk h := absurd (hb.asleep k hk h).1 hseat
  word := hb.word
  fresh := hb.fresh
  waking h hw := absurd (hb.waking h hw).1 hseat
  one := hb.one
  here _ := hb.here hseat
  once := hb.once

theorem Sound.turn (hb : Sound b) (hseat : b.seat = .turning) : Sound b.turn := by
  have hne : b.seat ≠ .out := by simp [hseat]
  have hq := hb.here hne
  exact {
    asleep := fun k hk h => absurd (hb.asleep k hk h).1 hne
    word := hb.word
    fresh := hb.fresh
    waking := fun h hw => absurd hw (by simp [Bed.turn, hb.nobody hne h])
    one := hb.one
    here := fun h => absurd rfl h
    once := by simp [Bed.turn, hq] }

theorem Sound.resume (hb : Sound b) (hq : 0 < b.queued) : Sound b.resume := by
  have hone := hb.once
  exact {
    asleep := fun k hk h => absurd (hb.asleep k hk h).2.1 (by omega)
    word := hb.word
    fresh := hb.fresh
    waking := fun h hw => absurd (hb.waking h hw).2 (by omega)
    one := hb.one
    here := fun _ => by simp only [Bed.resume]; omega
    once := by simp only [Bed.resume]; omega }

variable [DecidableEq K]

theorem Sound.store (hb : Sound b) (hseat : b.seat ≠ .out) (k : K) {v : ℤ} (hv : v ≠ 0) :
    Sound (b.store k v) := by
  -- while the thread is up no used flag is 0
  have hnz : ∀ j, (b.store k v).used j = true → (b.store k v).flag j ≠ 0 := by
    intro j hj
    by_cases hjk : j = k
    · subst hjk
      simpa [Bed.store] using hv
    · intro hz
      have hu : b.used j = true := by simpa [Bed.store, update_of_ne hjk] using hj
      exact hseat (hb.asleep j hu (by simpa [Bed.store, update_of_ne hjk] using hz)).1
  constructor
  case asleep => exact fun j hj h => absurd h (hnz j hj)
  case word => exact fun i j hi _ h _ => absurd h (hnz i hi)
  case fresh =>
    intro j hj
    by_cases hjk : j = k
    · subst hjk
      simp [Bed.store]
    · have hold : b.flag j = -1 := by simpa [Bed.store, update_of_ne hjk] using hj
      simpa [Bed.store, update_of_ne hjk] using hb.fresh j hold
  case waking => exact hb.waking
  case one => exact hb.one
  case here => exact hb.here
  case once => exact hb.once

theorem Sound.renew (hb : Sound b) (k : K) : Sound (b.renew k) := by
  have hold : ∀ j, (b.renew k).used j = true → j ≠ k ∧ b.used j = true := by
    intro j hj
    by_cases hjk : j = k
    · exact absurd hj (by simp [Bed.renew, hjk])
    · exact ⟨hjk, by simpa [Bed.renew, update_of_ne hjk] using hj⟩
  have hflag : ∀ j, j ≠ k → (b.renew k).flag j = b.flag j :=
    fun j hjk => update_of_ne hjk ..
  constructor
  case asleep =>
    intro j hj h
    rw [hflag j (hold j hj).1] at h
    exact hb.asleep j (hold j hj).2 h
  case word =>
    intro i j hi hj h h'
    rw [hflag i (hold i hi).1] at h
    rw [hflag j (hold j hj).1] at h'
    exact hb.word i j (hold i hi).2 (hold j hj).2 h h'
  case fresh =>
    intro j hj
    by_cases hjk : j = k
    · exact absurd hj (by simp [Bed.renew, hjk])
    · rw [hflag j hjk] at hj
      simpa [Bed.renew, update_of_ne hjk] using hb.fresh j hj
  case waking => exact hb.waking
  case one => exact hb.one
  case here => exact hb.here
  case once => exact hb.once

theorem Sound.settle (hb : Sound b) (hseat : b.seat = .leaving) (k : K) : Sound (b.settle k) := by
  have hne : b.seat ≠ .out := by simp [hseat]
  have hnz : ∀ j, b.used j = true → b.flag j ≠ 0 := fun j hj h => hne (hb.asleep j hj h).1
  by_cases hf : b.flag k = -1
  · rw [Bed.settle, if_pos hf]
    have honly : ∀ j, b.used j = true → update b.flag k 0 j = 0 → j = k := by
      intro j hj h
      by_contra hjk
      rw [update_of_ne hjk] at h
      exact hnz j hj h
    constructor
    case asleep => exact fun _ _ _ => ⟨rfl, hb.here hne, hb.nobody hne⟩
    case word => exact fun i j hi hj h h' => (honly i hi h).trans (honly j hj h').symm
    case fresh =>
      intro j hj
      by_cases hjk : j = k
      · exact absurd hj (by simp [hjk])
      · exact hb.fresh j (by simpa [update_of_ne hjk] using hj)
    case waking => exact fun h hw => absurd hw (by simp [hb.nobody hne h])
    case one => exact hb.one
    case here => exact fun _ => hb.here hne
    case once => exact hb.once
  · rw [Bed.settle, if_neg hf]
    exact hb.move hne .turning

variable [DecidableEq H]

theorem Sound.call (hb : Sound b) {k : K} (hk : b.used k = true) {h : H}
    (hh : b.waking h = false) : Sound (b.call k h) := by
  have hcase : ∀ h', (b.call k h).waking h' = true → h' = h ∧ b.flag k = 0 ∨ b.waking h' = true := by
    intro h' hw
    by_cases hne : h' = h
    · subst hne
      exact .inl ⟨rfl, by simpa [Bed.call] using hw⟩
    · exact .inr (by simpa [Bed.call, update_of_ne hne] using hw)
  have hflag : ∀ j, (b.call k h).flag j = 0 → j ≠ k ∧ b.flag j = 0 := by
    intro j hj
    by_cases hjk : j = k
    · exact absurd hj (by simp [Bed.call, hjk])
    · exact ⟨hjk, by simpa [Bed.call, update_of_ne hjk] using hj⟩
  constructor
  case asleep =>
    intro j hj h0
    obtain ⟨hjk, hold⟩ := hflag j h0
    obtain ⟨h1, h2, h3⟩ := hb.asleep j hj hold
    refine ⟨h1, h2, fun h' => ?_⟩
    by_contra hw
    rcases hcase h' (by simpa using hw) with ⟨_, hz⟩ | hw'
    · exact hjk (hb.word j k hj hk hold hz)
    · exact absurd hw' (by simp [h3 h'])
  case word =>
    exact fun i j hi hj h h' => hb.word i j hi hj (hflag i h).2 (hflag j h').2
  case fresh =>
    intro j hj
    by_cases hjk : j = k
    · exact absurd hj (by simp [Bed.call, hjk])
    · exact hb.fresh j (by simpa [Bed.call, update_of_ne hjk] using hj)
  case waking =>
    intro h' hw
    rcases hcase h' hw with ⟨_, hf⟩ | hold
    · exact ⟨(hb.asleep k hk hf).1, (hb.asleep k hk hf).2.1⟩
    · exact hb.waking h' hold
  case one =>
    intro h₁ h₂ hw₁ hw₂
    rcases hcase h₁ hw₁ with ⟨rfl, hf⟩ | hold₁ <;> rcases hcase h₂ hw₂ with ⟨rfl, hf'⟩ | hold₂
    · rfl
    · exact absurd hold₂ (by simp [(hb.asleep k hk hf).2.2 h₂])
    · exact absurd hold₁ (by simp [(hb.asleep k hk hf').2.2 h₁])
    · exact hb.one h₁ h₂ hold₁ hold₂
  case here => exact hb.here
  case once => exact hb.once

omit [DecidableEq K] in
theorem Sound.wake (hb : Sound b) {h : H} (hh : b.waking h = true) : Sound (b.wake h) := by
  obtain ⟨hout, hq⟩ := hb.waking h hh
  have hnone : ∀ h', (b.wake h).waking h' = false := by
    intro h'
    by_cases hne : h' = h
    · subst hne
      simp [Bed.wake]
    · have : b.waking h' ≠ true := fun hw => hne (hb.one h h' hh hw)
      simpa [Bed.wake, update_of_ne hne] using this
  exact {
    asleep := fun k hk hf => absurd hh (by simp [(hb.asleep k hk hf).2.2 h])
    word := hb.word
    fresh := hb.fresh
    waking := fun h' hw => absurd hw (by simp [hnone h'])
    one := fun h₁ _ hw => absurd hw (by simp [hnone h₁])
    here := fun hne => absurd hout hne
    once := by simp [Bed.wake, hq] }

end

end Sleeper
