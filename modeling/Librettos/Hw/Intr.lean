/-
# `Hw.Intr` — the hand-off of interrupts to the thread `doisr`

One word, `isr_data.todo` (`intr.c`), has the interrupts that are pending and, in its top bit
`isr_handler_todo`, that the thread is up.  Each access to it is one step:

    isr(which)      fetch-or        the thread is woken if the word was 0
    isr_callback    fetch-xor       takes the top bit; the thread is woken if there is more
    doisr           exchange        after a sleep: the word is the pending set
                    exchange        after a pass: the word is the pending set and the top bit

The wakes are steps of their own, so anything may come between the decision to wake and the
wake.  The callback runs once the thread is off its processor, in the context of the next one.

A wake of a thread that is up or already queued would break the run queues; `wakes` counts
those since the thread was last switched out.  `log` has the posts and the handler passes,
the latest first; a pass has the interrupts whose handlers it runs.  A pass is one step, the
one at which it begins: what is posted while the handlers run comes after it in the log.
-/
import Librettos.Lib.Trans

namespace Librettos.Intr

open Function (update)
open List Option Trans

/-- `isr_handler_todo` -/
def isrHandlerTodo : BitVec 32 := 1#32 <<< 31

/-- `sizeof(int) * 8` -/
def levels : Nat := 32

/-- `BMK_MAXINTR` -/
def bmkMaxintr : Nat := 32

/-- The loop over the bits of `isrcopy`, with the number of bits that are left to look at; the
interrupts in the order in which their handlers run.  `none` is the failure of
`bmk_assert(i < sizeof(isrcopy)*8)`. -/
def handlers : Nat → BitVec 32 → Option (List Nat)
  | 0, isrcopy => if isrcopy = 0#32 then some [] else none
  | left + 1, isrcopy =>
    let i := levels - (left + 1)
    if isrcopy = 0#32 then some []
    else if isrcopy.getLsbD i = false then handlers left isrcopy
    else (handlers left (isrcopy &&& ~~~(1#32 <<< i))).map (i :: ·)

/-- Where the thread is in its loop, when it has a processor. -/
inductive Pc
  /-- at `bmk_sched_block` -/
  | block
  /-- back from it; at the first exchange -/
  | first
  /-- at a handler pass -/
  | pass (isrcopy totwork : BitVec 32)
  /-- at the exchange after a pass -/
  | again (totwork : BitVec 32)
  /-- at `cpu_intr_ack` -/
  | ack (totwork : BitVec 32)
  /-- the assertion of a pass has failed -/
  | failed (isrcopy : BitVec 32)
deriving DecidableEq, Repr

/-- The thread for the scheduler. -/
inductive Seat
  | on
  | out
  | queued
deriving DecidableEq, Repr

/-- Where `isr_callback` is. -/
inductive Callback
  | idle
  | xor
  | wake
deriving DecidableEq, Repr

inductive Event
  | post (which : BitVec 32)
  | pass (handled : List Nat)
deriving DecidableEq, Repr

/-- `waker p`: processor `p` is in `isr`, at its wake. -/
structure State (P : Type) where
  todo : BitVec 32
  isrLowest : Nat
  pc : Pc
  seat : Seat
  callback : Callback
  waker : P → Bool
  wakes : Nat
  log : List Event

inductive Act (P : Type)
  | isr (p : P) (which : BitVec 32)
  | isrWake (p : P)
  | callback
  | callbackWake
  /-- the scheduler gives the thread a processor -/
  | resume
  /-- the next step of `doisr` -/
  | go
  /-- `bmk_isr_rumpkernel` -/
  | register (intr : Nat)
deriving DecidableEq, Repr

/-- The steps that execute `bmk_sched_wake(isr_thread)`. -/
def Act.wakes {P : Type} : Act P → Bool
  | .isrWake _ => true
  | .callbackWake => true
  | _ => false

section
variable {P : Type}
variable {which todo : BitVec 32}

/-- `bmk_sched_wake(isr_thread)` -/
def State.wake (s : State P) : State P :=
  { s with seat := .queued, wakes := s.wakes + 1 }

/-- `doisr` -/
def go (s : State P) : Option (State P) :=
  match s.pc with
  | .block => some { s with pc := .first, seat := .out, callback := .xor, wakes := 0 }
  | .first => some { s with todo := isrHandlerTodo, pc := .pass s.todo s.todo }
  | .pass isrcopy totwork =>
    match handlers (levels - s.isrLowest) isrcopy with
    | none => some { s with pc := .failed isrcopy }
    | some l => some { s with pc := .again totwork, log := .pass l :: s.log }
  | .again totwork =>
    let isrcopy := s.todo ^^^ isrHandlerTodo
    if isrcopy = 0#32 then some { s with todo := isrHandlerTodo, pc := .ack totwork }
    else some { s with todo := isrHandlerTodo, pc := .pass isrcopy (totwork ||| isrcopy) }
  | .ack _ => some { s with pc := .block }
  | .failed _ => none

def step [DecidableEq P] (s : State P) : Act P → Option (State P)
  | .isr p which =>
    if s.waker p = false ∧ which ≠ 0#32 ∧ which.getLsbD 31 = false then
      some { s with
        todo := s.todo ||| which
        waker := update s.waker p (decide (s.todo = 0#32))
        log := .post which :: s.log }
    else none
  | .isrWake p =>
    if s.waker p = true then some { s.wake with waker := update s.waker p false }
    else none
  | .callback =>
    if s.callback = .xor then
      some { s with
        todo := s.todo ^^^ isrHandlerTodo
        callback := if s.todo ≠ isrHandlerTodo then .wake else .idle }
    else none
  | .callbackWake =>
    if s.callback = .wake then some { s.wake with callback := .idle } else none
  | .resume => if s.seat = .queued then some { s with seat := .on } else none
  | .go => if s.seat = .on then go s else none
  | .register intr =>
    if intr ≤ levels ∧ intr ≤ bmkMaxintr then
      some { s with isrLowest := if intr < s.isrLowest then intr else s.isrLowest }
    else none

/-- The thread has been created; no interrupt yet. -/
structure Init (s : State P) : Prop where
  todo : s.todo = isrHandlerTodo
  isrLowest : s.isrLowest = levels - 1
  pc : s.pc = .block
  seat : s.seat = .on
  callback : s.callback = .idle
  waker : ∀ p, s.waker p = false
  wakes : s.wakes = 0
  log : s.log = []

/-- Each bit that was posted has been handed to a handler pass that began after that. -/
def Handed (log : List Event) : Prop :=
  ∀ later earlier which i, log = later ++ .post which :: earlier → which.getLsbD i = true →
    ∃ handled, .pass handled ∈ later ∧ i ∈ handled

/-- The thread is out, and nobody is about to wake it. -/
structure Asleep (s : State P) : Prop where
  seat : s.seat = .out
  callback : s.callback = .idle
  waker : ∀ p, s.waker p = false

/-! ## The passes -/

theorem mem_handlers : ∀ (left : Nat) (isrcopy : BitVec 32) {l : List Nat} {i : Nat},
    handlers left isrcopy = some l → isrcopy.getLsbD i = true → i ∈ l
  | 0, isrcopy, l, i, hl, hi => by
    obtain ⟨rfl, -⟩ := ite_none_right_eq_some.mp hl
    simp at hi
  | left + 1, isrcopy, l, i, hl, hi => by
    rw [handlers] at hl
    split at hl
    · next hz =>
      rw [hz] at hi
      simp at hi
    · split at hl
      · exact mem_handlers left isrcopy hl hi
      · obtain ⟨l', hl', rfl⟩ := map_eq_some_iff.mp hl
        by_cases h : i = levels - (left + 1)
        · exact h ▸ mem_cons_self
        · refine mem_cons_of_mem _ (mem_handlers left _ hl' ?_)
          grind

/-- Interrupt `i` has been posted and no pass has handled it since. -/
def owed : List Event → Nat → Bool
  | [], _ => false
  | .post which :: log, i => which.getLsbD i || owed log i
  | .pass handled :: log, i => !handled.contains i && owed log i

theorem owed_append_post {later earlier : List Event} {i : Nat}
    (hi : which.getLsbD i = true) (h : owed (later ++ .post which :: earlier) i = false) :
    ∃ handled, .pass handled ∈ later ∧ i ∈ handled := by
  induction later with
  | nil => simp [owed, hi] at h
  | cons e later ih =>
    cases e with
    | post w =>
      simp only [cons_append, owed, Bool.or_eq_false_iff] at h
      obtain ⟨handled, hmem, hin⟩ := ih h.2
      exact ⟨handled, mem_cons_of_mem _ hmem, hin⟩
    | pass l =>
      by_cases hin : i ∈ l
      · exact ⟨l, mem_cons_self, hin⟩
      · simp only [cons_append, owed, Bool.and_eq_false_iff, Bool.not_eq_false',
          contains_iff_mem, hin, false_or] at h
        obtain ⟨handled, hmem, hin⟩ := ih h
        exact ⟨handled, mem_cons_of_mem _ hmem, hin⟩

theorem handed_of_owed {log : List Event} (h : ∀ i, owed log i = false) : Handed log := by
  rintro later earlier which i rfl hi
  exact owed_append_post hi (h i)

/-! ## The invariant -/

/-- The top bit of the word. -/
def up (todo : BitVec 32) : Bool := todo.getLsbD 31

@[simp] theorem up_isrHandlerTodo : up isrHandlerTodo = true := by decide

@[simp] theorem up_zero : up 0#32 = false := by decide

theorem up_or (h : which.getLsbD 31 = false) : up (todo ||| which) = up todo := by
  simp only [up, BitVec.getLsbD_or, h, Bool.or_false]

theorem up_xor (todo : BitVec 32) : up (todo ^^^ isrHandlerTodo) = !up todo := by
  simp [up, isrHandlerTodo]

theorem or_ne_zero (h : which ≠ 0#32) : todo ||| which ≠ 0#32 :=
  fun h0 => h (BitVec.or_eq_zero_iff.mp h0).2

theorem xor_eq_zero : todo ^^^ isrHandlerTodo = 0#32 ↔ todo = isrHandlerTodo :=
  BitVec.xor_eq_zero_iff

theorem getLsbD_isrHandlerTodo : ∀ {i : Nat}, i < 31 → isrHandlerTodo.getLsbD i = false := by
  decide

/-- Below the top bit, the exclusive or changes nothing. -/
theorem getLsbD_xor {i : Nat} (h : i < 31) :
    (todo ^^^ isrHandlerTodo).getLsbD i = todo.getLsbD i := by
  rw [BitVec.getLsbD_xor, getLsbD_isrHandlerTodo h, Bool.xor_false]

theorem lt_of_getLsbD {i : Nat} (h : which.getLsbD 31 = false)
    (hi : which.getLsbD i = true) : i < 31 := by
  have hlt : i < 32 := BitVec.lt_of_getLsbD hi
  have hne : i ≠ 31 := by
    rintro rfl
    exact Bool.false_ne_true (h.symm.trans hi)
  omega

/-- What the thread has taken out of the word and not handled yet. -/
def Pc.taken : Pc → BitVec 32
  | .pass isrcopy _ => isrcopy
  | .failed isrcopy => isrcopy
  | _ => 0#32

/-- How the word, the callback and the wakers fit where the thread is. -/
def Phase (s : State P) : Seat → Callback → Prop
  | .on, .idle => (∀ p, s.waker p = false) ∧ s.wakes ≤ 1 ∧
      if s.pc = .first then up s.todo = false ∧ s.todo ≠ 0#32 else up s.todo = true
  | .out, .xor => (∀ p, s.waker p = false) ∧ s.wakes = 0 ∧ s.pc = .first ∧ up s.todo = true
  | .out, .wake => (∀ p, s.waker p = false) ∧ s.wakes = 0 ∧ s.pc = .first ∧ up s.todo = false ∧
      s.todo ≠ 0#32
  | .out, .idle => s.wakes = 0 ∧ s.pc = .first ∧ up s.todo = false ∧
      if s.todo = 0#32 then ∀ p, s.waker p = false
      else ∃ p, s.waker p = true ∧ ∀ q, s.waker q = true → q = p
  | .queued, .idle => (∀ p, s.waker p = false) ∧ s.wakes = 1 ∧ s.pc = .first ∧ up s.todo = false ∧
      s.todo ≠ 0#32
  | _, _ => False

structure Inv (s : State P) : Prop where
  phase : Phase s s.seat s.callback
  owed : ∀ i, owed s.log i = true → i < 31 ∧ (s.todo.getLsbD i = true ∨ s.pc.taken.getLsbD i = true)

variable {s s' : State P}

theorem Init.inv (h : Init s) : Inv s where
  phase := by simp [h.seat, h.callback, Phase, h.waker, h.wakes, h.pc, h.todo]
  owed := by simp [h.log, Intr.owed]

theorem Inv.of_waker (h : Inv s) {p : P} (hp : s.waker p = true) :
    s.seat = .out ∧ s.callback = .idle ∧ s.todo ≠ 0#32 ∧ ∀ q, s.waker q = true → q = p := by
  have hphase := h.phase
  cases hseat : s.seat <;> cases hcb : s.callback <;>
    simp only [hseat, hcb, Phase] at hphase <;> try simp [hphase.1 p] at hp
  split at hphase
  · simp [hphase.2.2.2 p] at hp
  · next hz =>
    obtain ⟨-, -, -, r, -, hr⟩ := hphase
    exact ⟨rfl, rfl, hz, fun q hq => (hr q hq).trans (hr p hp).symm⟩

/-- The word is 0 only when the thread is out, its callback is done and no wake is on its
way. -/
theorem Inv.of_zero (h : Inv s) (hz : s.todo = 0#32) : s.seat = .out ∧ s.callback = .idle ∧
    s.wakes = 0 ∧ s.pc = .first ∧ ∀ p, s.waker p = false := by
  have hphase := h.phase
  cases hseat : s.seat <;> cases hcb : s.callback <;>
    simp only [hseat, hcb, Phase, hz, up_zero] at hphase <;> try grind

section
variable [DecidableEq P]

theorem Inv.isr (h : Inv s) {p : P} {which : BitVec 32} (hp : s.waker p = false)
    (hne : which ≠ 0#32) (htop : which.getLsbD 31 = false) :
    Inv { s with
      todo := s.todo ||| which
      waker := update s.waker p (decide (s.todo = 0#32))
      log := .post which :: s.log } where
  owed := by
    intro i hi
    simp only [Intr.owed, Bool.or_eq_true] at hi
    simp only [BitVec.getLsbD_or, Bool.or_eq_true]
    rcases hi with hi | hi
    · exact ⟨lt_of_getLsbD htop hi, .inl (.inr hi)⟩
    · obtain ⟨hlt, hb⟩ := h.owed i hi
      exact ⟨hlt, hb.imp_left .inl⟩
  phase := by
    have hne' : s.todo ||| which ≠ 0#32 := or_ne_zero hne
    by_cases hz : s.todo = 0#32
    · -- asleep: this processor is the one that wakes the thread
      obtain ⟨hseat, hcb, hwakes, hpc, hwaker⟩ := h.of_zero hz
      simp only [hseat, hcb, Phase, hwakes, hpc, up_or htop, hz, up_zero, decide_true, true_and]
      rw [if_neg (hz ▸ hne')]
      refine ⟨p, by simp, fun q hq => ?_⟩
      by_contra hqp
      simp [hqp, hwaker q] at hq
    · have hsame : update s.waker p (decide (s.todo = 0#32)) = s.waker := by
        rw [decide_eq_false hz, ← hp, Function.update_eq_self]
      have hphase := h.phase
      rw [hsame]
      cases hseat : s.seat <;> cases hcb : s.callback <;>
        simp only [hseat, hcb, Phase, up_or htop, hz, hne', if_false, ne_eq, not_false_eq_true]
          at hphase ⊢ <;> assumption

theorem Inv.isrWake (h : Inv s) {p : P} (hp : s.waker p = true) :
    Inv { s.wake with waker := update s.waker p false } := by
  obtain ⟨hseat, hcb, hz, hr⟩ := h.of_waker hp
  constructor
  case owed => exact h.owed
  case phase =>
    have hphase := h.phase
    simp only [hseat, hcb, Phase] at hphase
    obtain ⟨hwakes, hpc, hup, -⟩ := hphase
    simp only [State.wake, hcb, Phase, hwakes, hpc, hup]
    refine ⟨fun q => ?_, trivial, trivial, trivial, hz⟩
    by_cases hqp : q = p
    · simp [hqp]
    · simpa [hqp] using fun hq => hqp (hr q hq)

end

section
variable (h : Inv s)
include h

theorem Inv.callback (hcb : s.callback = .xor) :
    Inv { s with
      todo := s.todo ^^^ isrHandlerTodo
      callback := if s.todo ≠ isrHandlerTodo then .wake else .idle } where
  owed := by
    intro i hi
    obtain ⟨hlt, hb⟩ := h.owed i hi
    simp only [getLsbD_xor hlt]
    exact ⟨hlt, hb⟩
  phase := by
    have hphase := h.phase
    cases hseat : s.seat <;> simp only [hseat, hcb, Phase] at hphase
    obtain ⟨hwaker, hwakes, hpc, hup⟩ := hphase
    by_cases hdone : s.todo = isrHandlerTodo
    · simp [hdone, Phase, hwakes, hpc, hwaker]
    · simp [hdone, Phase, hwakes, hpc, hwaker, up_xor, hup]

theorem Inv.callbackWake (hcb : s.callback = .wake) : Inv { s.wake with callback := .idle } where
  owed := h.owed
  phase := by
    have hphase := h.phase
    cases hseat : s.seat <;> simp only [hseat, hcb, Phase] at hphase
    obtain ⟨hwaker, hwakes, hpc, hup, hz⟩ := hphase
    simp [State.wake, Phase, hwaker, hwakes, hpc, hup, hz]

theorem Inv.resume (hseat : s.seat = .queued) : Inv { s with seat := .on } where
  owed := h.owed
  phase := by
    have hphase := h.phase
    cases hcb : s.callback <;> simp only [hseat, hcb, Phase] at hphase
    obtain ⟨hwaker, hwakes, hpc, hup, hz⟩ := hphase
    simp [Phase, hwaker, hwakes, hpc, hup, hz]

/-- A handler pass: what was taken for it has been handed over. -/
theorem Inv.pass (hseat : s.seat = .on) {isrcopy totwork : BitVec 32} {l : List Nat}
    (hpc : s.pc = .pass isrcopy totwork) (hl : handlers (levels - s.isrLowest) isrcopy = some l) :
    Inv { s with pc := .again totwork, log := .pass l :: s.log } where
  phase := by
    have hphase := h.phase
    cases hcb : s.callback <;> simp [hseat, hcb, Phase, hpc] at hphase ⊢
    exact hphase
  owed := by
    intro i hi
    simp only [Intr.owed, Bool.and_eq_true, Bool.not_eq_true', contains_eq_mem,
      decide_eq_false_iff_not] at hi
    obtain ⟨hlt, hb⟩ := h.owed i hi.2
    refine ⟨hlt, hb.imp_right fun htaken => absurd ?_ hi.1⟩
    rw [hpc] at htaken
    exact mem_handlers _ _ hl htaken

theorem Inv.go (hseat : s.seat = .on) (hs : go s = some s') : Inv s' := by
  have hphase := h.phase
  cases hcb : s.callback <;> simp only [hseat, hcb, Phase] at hphase
  obtain ⟨hwaker, hwakes, hpc'⟩ := hphase
  have howed := h.owed
  cases hpc : s.pc with
  | block =>
    simp only [Intr.go, hpc, some.injEq] at hs
    subst hs
    simp only [hpc, reduceCtorEq, if_false] at hpc'
    exact ⟨⟨hwaker, rfl, rfl, hpc'⟩, fun i hi => by simpa [hpc, Pc.taken] using howed i hi⟩
  | first =>
    simp only [Intr.go, hpc, some.injEq] at hs
    subst hs
    refine ⟨?_, fun i hi => ?_⟩
    · simp [hseat, hcb, Phase, hwaker, hwakes]
    · obtain ⟨hlt, hb⟩ := howed i hi
      exact ⟨hlt, .inr (by simpa [hpc, Pc.taken] using hb)⟩
  | pass isrcopy totwork =>
    simp only [Intr.go, hpc] at hs
    cases hl : handlers (levels - s.isrLowest) isrcopy with
    | some l =>
      simp only [hl, some.injEq] at hs
      subst hs
      exact h.pass hseat hpc hl
    | none =>
      simp only [hl, some.injEq] at hs
      subst hs
      simp only [hpc, reduceCtorEq, if_false] at hpc'
      refine ⟨?_, fun i hi => ?_⟩
      · simp [hseat, hcb, Phase, hwaker, hwakes, hpc']
      · simpa [hpc, Pc.taken] using howed i hi
  | again totwork =>
    simp only [Intr.go, hpc] at hs
    split at hs
    · next hz =>
      cases hs
      refine ⟨?_, fun i hi => ?_⟩
      · simp [hseat, hcb, Phase, hwaker, hwakes]
      · obtain ⟨hlt, hb⟩ := howed i hi
        simp [hpc, Pc.taken, xor_eq_zero.mp hz, getLsbD_isrHandlerTodo hlt] at hb
    · cases hs
      refine ⟨?_, fun i hi => ?_⟩
      · simp [hseat, hcb, Phase, hwaker, hwakes]
      · obtain ⟨hlt, hb⟩ := howed i hi
        exact ⟨hlt, .inr (by simpa [hpc, Pc.taken, getLsbD_xor hlt] using hb)⟩
  | ack totwork =>
    simp only [Intr.go, hpc, some.injEq] at hs
    subst hs
    simp only [hpc, reduceCtorEq, if_false] at hpc'
    refine ⟨?_, fun i hi => ?_⟩
    · simp [hseat, hcb, Phase, hwaker, hwakes, hpc']
    · simpa [hpc, Pc.taken] using howed i hi
  | failed isrcopy => simp [Intr.go, hpc] at hs

theorem Inv.step [DecidableEq P] {a : Act P} (hs : step s a = some s') : Inv s' := by
  cases a with
  | isr p which =>
    obtain ⟨⟨hp, hne, htop⟩, ⟨⟩⟩ := ite_none_right_eq_some.mp hs
    exact h.isr hp hne htop
  | isrWake p =>
    obtain ⟨hp, ⟨⟩⟩ := ite_none_right_eq_some.mp hs
    exact h.isrWake hp
  | callback =>
    obtain ⟨hcb, ⟨⟩⟩ := ite_none_right_eq_some.mp hs
    exact h.callback hcb
  | callbackWake =>
    obtain ⟨hcb, ⟨⟩⟩ := ite_none_right_eq_some.mp hs
    exact h.callbackWake hcb
  | resume =>
    obtain ⟨hseat, ⟨⟩⟩ := ite_none_right_eq_some.mp hs
    exact h.resume hseat
  | go =>
    obtain ⟨hseat, hs⟩ := ite_none_right_eq_some.mp hs
    exact h.go hseat hs
  | register intr =>
    obtain ⟨-, ⟨⟩⟩ := ite_none_right_eq_some.mp hs
    exact ⟨h.phase, h.owed⟩

/-- At a wake the thread is out, and not queued: this is the first wake of the sleep. -/
theorem Inv.wake_out [DecidableEq P] {a : Act P} (ha : a.wakes = true)
    (hs : Intr.step s a = some s') : s.seat = .out := by
  cases a with
  | isrWake p =>
    obtain ⟨hp, -⟩ := ite_none_right_eq_some.mp hs
    exact (h.of_waker hp).1
  | callbackWake =>
    obtain ⟨hcb, -⟩ := ite_none_right_eq_some.mp hs
    have hphase := h.phase
    cases hseat : s.seat <;> simp only [hseat, hcb, Phase] at hphase
    rfl
  | _ => cases ha

theorem Inv.wakes_le : s.wakes ≤ 1 := by
  have hphase := h.phase
  cases hseat : s.seat <;> cases hcb : s.callback <;> simp only [hseat, hcb, Phase] at hphase <;>
    omega

theorem Inv.handed (hz : s.todo = 0#32) : Handed s.log := by
  refine handed_of_owed fun i => Bool.eq_false_iff.mpr fun hi => ?_
  obtain ⟨-, hb⟩ := h.owed i hi
  simp [hz, (h.of_zero hz).2.2.2.1, Pc.taken] at hb

theorem Inv.asleep (hout : Asleep s) : s.todo = 0#32 := by
  have hphase := h.phase
  simp only [hout.seat, hout.callback, Phase] at hphase
  by_contra hz
  rw [if_neg hz] at hphase
  obtain ⟨-, -, -, p, hp, -⟩ := hphase
  exact Bool.false_ne_true ((hout.waker p).symm.trans hp)

end

/-- The thread is woken only when it is scheduled out, at most once a sleep; when it is asleep
the word is 0, and whenever that is so each posted bit has been handed to a handler pass that
began after it was posted. -/
theorem isr_handoff [DecidableEq P] (h : Reach (step (P := P)) Trans.any Init s) :
    (∀ a s', a.wakes = true → step s a = some s' → s.seat = .out) ∧ s.wakes ≤ 1 ∧
      (Asleep s → s.todo = 0#32) ∧ (s.todo = 0#32 → Handed s.log) := by
  have hinv : Inv s := h.inv (fun _ h0 => h0.inv) fun _ _ _ hi _ hs => hi.step hs
  exact ⟨fun _ _ ha hs => hinv.wake_out ha hs, hinv.wakes_le, hinv.asleep, hinv.handed⟩

end

/-- The system at boot. -/
def boot : State Unit where
  todo := isrHandlerTodo
  isrLowest := levels - 1
  pc := .block
  seat := .on
  callback := .idle
  waker := fun _ => false
  wakes := 0
  log := []

/-- Interrupt 3 is posted before the callback, 5 while the pass for it runs; then the thread
goes to sleep. -/
def posts : List (Act Unit) :=
  [.register 3, .go, .isr () 8, .callback, .callbackWake, .resume, .go, .isr () 32, .go, .go, .go,
    .go, .go, .go, .callback]

theorem isr_handoff_posts : ∃ s : State Unit, Reach step Trans.any Init s ∧
    s.log = [.pass [5], .pass [3], .post 32, .post 8] ∧ Handed s.log := by
  obtain ⟨s, hreach, hz, hlog⟩ := any_finds (step) Init
    (fun s => s.todo = 0#32 ∧ s.log = [.pass [5], .pass [3], .post 32, .post 8])
    (s := boot) posts ⟨rfl, rfl, rfl, rfl, rfl, fun _ => rfl, rfl, rfl⟩
    (by decide)
  exact ⟨s, hreach, hlog, (isr_handoff hreach).2.2.2 hz⟩

end Librettos.Intr
