/-
# `Hw.IntrRegister` — an interrupt that comes while its handler is registered

`bmk_isr_rumpkernel` (`intr.c`) registers a handler in three steps that others can see, and a
handler pass of `doisr` on another processor may come between any two of them:

    cpu_intr_init(intr)      the line is unmasked: from here on it may fire
    SLIST_INSERT_HEAD        the handler is in the list
    isr_lowest = intr        if it was greater

A pass looks at the bits of `isrcopy` from `isr_lowest` upwards until none is left, so a bit
below `isr_lowest` takes it past the last one, and the assertion on `i` fails (`fires_early`).
A pass that begins when no bit of its own is below `isr_lowest` visits every one once and runs
the handlers that are registered for it (`pass_visits_each`).

With `BMK_SCREW_INTERRUPT_ROUTING` a pass goes on behind the last list after the first routed
interrupt, whatever bits are left.  The build has it commented out; it is the parameter `screw`.
-/
import Librettos.Hw.Intr

namespace Librettos.IntrRegister

open List Trans
open Function (update update_of_ne update_self)
open Intr (levels bmkMaxintr)

/-- `INTR_ROUTED_NOIDEA`, `INTR_ROUTED_YES`, `INTR_ROUTED_NO` -/
inductive Routed
  | noidea
  | yes
  | no
deriving DecidableEq, Repr

/-- `routeintr` -/
def routeintr (screw : Bool) (i : Nat) : Nat := if screw then bmkMaxintr else i

/-- The lines that `cpu_intr_init` has a gate for. -/
def gates : List Nat := [5, 7, 9, 10, 11, 12, 14, 15]

/-- Where `bmk_isr_rumpkernel` is, with the list that the handler is for. -/
inductive RegPc (H : Type)
  | idle
  /-- at `cpu_intr_init` -/
  | unmask (intr routedintr : Nat) (h : H)
  /-- at `SLIST_INSERT_HEAD` -/
  | link (intr routedintr : Nat) (h : H)
  /-- at the test of `isr_lowest` -/
  | lower (intr : Nat) (h : H)
  /-- in `bmk_platform_halt` -/
  | halted
deriving DecidableEq, Repr

/-- Where `doisr` is. -/
inductive PassPc
  | idle
  /-- `isrcopy` has been taken; at `i = isr_lowest` -/
  | taken (isrcopy : BitVec 32)
  /-- at the test of the loop -/
  | scan (i : Nat) (isrcopy : BitVec 32)
  /-- the assertion has failed -/
  | failed
deriving DecidableEq, Repr

/-- A bit that a pass has come to: the handlers it ran, and those that were registered for the
line by then. -/
structure Visit (H : Type) where
  line : Nat
  ran : List H
  due : List H
deriving DecidableEq, Repr

/-- `registered` has the handlers whose registration has come to its end; `whole` is what the
last pass took, and `visits` where it has been since. -/
structure State (H : Type) where
  unmasked : Nat → Bool
  isrRouted : Nat → Routed
  isrIh : Nat → List H
  isrLowest : Nat
  todo : BitVec 32
  reg : RegPc H
  pc : PassPc
  registered : List (H × Nat)
  whole : BitVec 32
  visits : List (Visit H)

inductive Act (H : Type)
  /-- `bmk_isr_rumpkernel` is called, up to `cpu_intr_init` -/
  | register (intr : Nat) (h : H) (routed : Bool)
  /-- its next step -/
  | reg
  /-- `isr(1 << intr)` -/
  | isr (intr : Nat)
  /-- `doisr` takes the pending interrupts -/
  | take
  /-- `i = isr_lowest` -/
  | start
  /-- the loop goes round once -/
  | visit
deriving DecidableEq, Repr

section
variable {H : Type}

/-- The list whose handlers a pass runs for a line. -/
def listOf (screw : Bool) (isrRouted : Nat → Routed) (i : Nat) : Nat :=
  if isrRouted i = .yes then routeintr screw i else i

/-- The handlers that are registered for a line. -/
def State.due (s : State H) (i : Nat) : List H :=
  (s.registered.filter fun p => p.2 = i).map Prod.fst

/-- The route that the flag `BMK_INTR_ROUTED` asks for. -/
def icheck (routed : Bool) : Routed := if routed then .yes else .no

/-- The routes, when a line without one is registered. -/
def enterRoute (isrRouted : Nat → Routed) (intr : Nat) (route : Routed) : Nat → Routed :=
  if isrRouted intr = .noidea then update isrRouted intr route else isrRouted

/-- The checks of `bmk_isr_rumpkernel`. -/
def register (screw : Bool) (s : State H) (intr : Nat) (h : H) (routed : Bool) : State H :=
  if levels < intr ∨ bmkMaxintr < intr then { s with reg := .halted }
  else
    let isrRouted := enterRoute s.isrRouted intr (icheck routed)
    if isrRouted intr ≠ icheck routed then { s with isrRouted := isrRouted, reg := .halted }
    else
      { s with
        isrRouted := isrRouted
        reg := .unmask intr (if routed then routeintr screw intr else intr) h }

/-- The rest of `bmk_isr_rumpkernel`. -/
def goReg (s : State H) : Option (State H) :=
  match s.reg with
  | .idle => none
  | .unmask intr routedintr h =>
    if intr ∈ gates then
      some { s with
        unmasked := update s.unmasked intr true
        reg := .link intr routedintr h }
    else some { s with reg := .halted }
  | .link intr routedintr h =>
    some { s with
      isrIh := update s.isrIh routedintr (h :: s.isrIh routedintr)
      reg := .lower intr h }
  | .lower intr h =>
    some { s with
      isrLowest := if intr < s.isrLowest then intr else s.isrLowest
      registered := (h, intr) :: s.registered
      reg := .idle }
  | .halted => none

/-- `isrcopy & ~(1<<i)` -/
def clearBit (isrcopy : BitVec 32) (i : Nat) : BitVec 32 := isrcopy &&& ~~~(1#32 <<< i)

/-- The body of the loop at `i`, with a bit to visit. -/
def visitBit (screw : Bool) (s : State H) (i : Nat) (isrcopy : BitVec 32) : State H :=
  { s with
    pc := .scan (listOf screw s.isrRouted i + 1) (clearBit isrcopy i)
    visits := ⟨i, s.isrIh (listOf screw s.isrRouted i), s.due i⟩ :: s.visits }

/-- The loop of the handler pass, once round. -/
def goVisit (screw : Bool) (s : State H) : Option (State H) :=
  match s.pc with
  | .scan i isrcopy =>
    if isrcopy = 0#32 then some { s with pc := .idle }
    else if levels ≤ i then some { s with pc := .failed }
    else if isrcopy.getLsbD i = false then some { s with pc := .scan (i + 1) isrcopy }
    else some (visitBit screw s i isrcopy)
  | _ => none

def step (screw : Bool) (s : State H) : Act H → Option (State H)
  | .register intr h routed =>
    match s.reg with
    | .idle => some (register screw s intr h routed)
    | _ => none
  | .reg => goReg s
  | .isr intr =>
    if s.unmasked intr = true then some { s with todo := s.todo ||| 1#32 <<< intr } else none
  | .take =>
    if s.pc = .idle ∧ s.todo ≠ 0#32 then
      some { s with todo := 0#32, pc := .taken s.todo, whole := s.todo, visits := [] }
    else none
  | .start =>
    match s.pc with
    | .taken isrcopy => some { s with pc := .scan s.isrLowest isrcopy }
    | _ => none
  | .visit => goVisit screw s

/-- After `intr_init`. -/
structure Init (s : State H) : Prop where
  unmasked : ∀ i, s.unmasked i = false
  isrRouted : ∀ i, s.isrRouted i = .noidea
  isrIh : ∀ i, s.isrIh i = []
  isrLowest : s.isrLowest = levels - 1
  todo : s.todo = 0#32
  reg : s.reg = .idle
  pc : s.pc = .idle
  registered : s.registered = []
  whole : s.whole = 0#32
  visits : s.visits = []

/-- `isrcopy`, in a pass. -/
def PassPc.isrcopy : PassPc → BitVec 32
  | .taken isrcopy => isrcopy
  | .scan _ isrcopy => isrcopy
  | .idle => 0#32
  | .failed => 0#32

/-- When a pass reads `isr_lowest`, none of its bits is below it; and where routing is screwed up,
a routed interrupt is the last one of its pass. -/
def timely (screw : Bool) (s : State H) : Act H → Prop
  | .start => ∀ i < levels, s.pc.isrcopy.getLsbD i = true → s.isrLowest ≤ i
  | .visit => screw = true → ∀ i < levels, s.pc = .scan i s.pc.isrcopy → s.isrRouted i = .yes →
      s.pc.isrcopy.getLsbD i = true → clearBit s.pc.isrcopy i = 0#32
  | _ => True

instance (screw : Bool) (s : State H) : (a : Act H) → Decidable (timely screw s a)
  | .start => inferInstanceAs
      (Decidable (∀ i < levels, s.pc.isrcopy.getLsbD i = true → s.isrLowest ≤ i))
  | .visit => inferInstanceAs (Decidable (screw = true → ∀ i < levels,
      s.pc = .scan i s.pc.isrcopy → s.isrRouted i = .yes → s.pc.isrcopy.getLsbD i = true →
        clearBit s.pc.isrcopy i = 0#32))
  | .register _ _ _ => isTrue trivial
  | .reg => isTrue trivial
  | .isr _ => isTrue trivial
  | .take => isTrue trivial

/-! ## The bits of a pass -/

theorem getLsbD_clearBit (isrcopy : BitVec 32) (i j : Nat) :
    (clearBit isrcopy i).getLsbD j = (isrcopy.getLsbD j && decide (i ≠ j)) := by
  by_cases hj : j < 32
  · simp only [clearBit, BitVec.getLsbD_and, BitVec.getLsbD_not, BitVec.getLsbD_shiftLeft,
      BitVec.getLsbD_one, hj]
    have hsub : j - i = 0 ∧ ¬j < i ↔ i = j := by omega
    grind
  · rw [BitVec.getLsbD_of_ge _ _ (Nat.not_lt.mp hj), BitVec.getLsbD_of_ge _ _ (Nat.not_lt.mp hj)]
    rfl

/-- The pass has come to `i`: the bits it took are the ones it has visited and the ones that are
left, and these are not behind it. -/
structure Scan (i : Nat) (isrcopy whole : BitVec 32) (lines : List Nat) : Prop where
  low : ∀ j, isrcopy.getLsbD j = true → i ≤ j
  split : ∀ j, whole.getLsbD j = true ↔ isrcopy.getLsbD j = true ∨ j ∈ lines
  past : ∀ j ∈ lines, isrcopy.getLsbD j = false
  nodup : lines.Nodup

/-- The pass has visited the bits it took. -/
structure Done (whole : BitVec 32) (lines : List Nat) : Prop where
  all : ∀ j, j ∈ lines ↔ whole.getLsbD j = true
  nodup : lines.Nodup

section
variable {i : Nat} {isrcopy whole : BitVec 32} {lines : List Nat}

theorem Scan.start (h : ∀ j < levels, whole.getLsbD j = true → i ≤ j) : Scan i whole whole [] where
  low j hj := h j (BitVec.lt_of_getLsbD hj) hj
  split j := by simp
  past j hj := absurd hj (by simp)
  nodup := nodup_nil

section
variable (h : Scan i isrcopy whole lines)
include h

/-- A bit that is set is not beyond the word, so the assertion holds. -/
theorem Scan.lt_levels (hne : isrcopy ≠ 0#32) : i < levels := by
  by_contra hge
  refine hne (BitVec.eq_of_getLsbD_eq fun j hj => ?_)
  rw [BitVec.getLsbD_zero, ← Bool.not_eq_true]
  intro hset
  have := h.low j hset
  simp only [levels] at hge
  omega

theorem Scan.skip (hclear : isrcopy.getLsbD i = false) : Scan (i + 1) isrcopy whole lines := by
  refine ⟨fun j hj => ?_, h.split, h.past, h.nodup⟩
  refine Nat.lt_of_le_of_ne (h.low j hj) ?_
  rintro rfl
  rw [hclear] at hj
  cases hj

theorem Scan.visit {k : Nat} (hset : isrcopy.getLsbD i = true)
    (hk : k ≤ i + 1 ∨ clearBit isrcopy i = 0#32) :
    Scan k (clearBit isrcopy i) whole (i :: lines) := by
  have hfresh : i ∉ lines := fun hmem => by
    have := h.past i hmem
    rw [hset] at this
    cases this
  constructor
  case low =>
    intro j hj
    rcases hk with hk | hzero
    · rw [getLsbD_clearBit, Bool.and_eq_true, decide_eq_true_eq] at hj
      have := h.low j hj.1
      omega
    · rw [hzero] at hj
      simp at hj
  case split =>
    intro j
    rw [h.split, getLsbD_clearBit, Bool.and_eq_true, decide_eq_true_eq, mem_cons]
    by_cases hij : i = j
    · subst hij
      simp [hset]
    · simp [hij, Ne.symm hij]
  case past =>
    intro j hj
    rw [getLsbD_clearBit]
    rcases mem_cons.mp hj with rfl | hj
    · simp
    · simp [h.past j hj]
  case nodup => exact nodup_cons.mpr ⟨hfresh, h.nodup⟩

end

theorem Scan.done (h : Scan i 0#32 whole lines) : Done whole lines where
  all j := by simp [h.split]
  nodup := h.nodup

end

/-! ## The invariant -/

/-- The lines that the pass has visited. -/
def State.lines (s : State H) : List Nat := s.visits.map Visit.line

/-- What is known of the pass, by where it is. -/
def PassOk (whole : BitVec 32) (lines : List Nat) : PassPc → Prop
  | .idle => Done whole lines
  | .taken isrcopy => whole = isrcopy ∧ lines = []
  | .scan i isrcopy => Scan i isrcopy whole lines
  | .failed => False

/-- A handler is where the passes look for it. -/
structure Linked (screw : Bool) (isrRouted : Nat → Routed) (isrIh : Nat → List H) (h : H)
    (i : Nat) : Prop where
  routed : isrRouted i ≠ .noidea
  mem : h ∈ isrIh (listOf screw isrRouted i)

/-- What is known of the registration, by where it is: the line has a route, and the handler
goes to the list the passes look at. -/
def RegOk (screw : Bool) (isrRouted : Nat → Routed) (isrIh : Nat → List H) : RegPc H → Prop
  | .unmask intr routedintr _ => isrRouted intr ≠ .noidea ∧ routedintr = listOf screw isrRouted intr
  | .link intr routedintr _ => isrRouted intr ≠ .noidea ∧ routedintr = listOf screw isrRouted intr
  | .lower intr h => Linked screw isrRouted isrIh h intr
  | .idle => True
  | .halted => True

structure Inv (screw : Bool) (s : State H) : Prop where
  pass : PassOk s.whole s.lines s.pc
  reg : RegOk screw s.isrRouted s.isrIh s.reg
  registered : ∀ p ∈ s.registered, Linked screw s.isrRouted s.isrIh p.1 p.2
  ran : ∀ v ∈ s.visits, ∀ h ∈ v.due, h ∈ v.ran

variable {screw : Bool} {s s' : State H}

theorem Init.inv (h : Init s) : Inv screw s where
  pass := by
    simp only [h.pc, State.lines, h.visits, h.whole]
    exact ⟨by simp, nodup_nil⟩
  reg := by simp [RegOk, h.reg]
  registered := by simp [h.registered]
  ran := by simp [h.visits]

theorem Linked.mono {isrRouted isrRouted' : Nat → Routed} {isrIh isrIh' : Nat → List H} {h : H}
    {i : Nat} (hlinked : Linked screw isrRouted isrIh h i) (hrouted : isrRouted' i = isrRouted i)
    (hih : ∀ j, isrIh j ⊆ isrIh' j) : Linked screw isrRouted' isrIh' h i := by
  refine ⟨hrouted ▸ hlinked.routed, ?_⟩
  rw [listOf, hrouted]
  exact hih _ hlinked.mem

theorem enterRoute_of_routed {isrRouted : Nat → Routed} {j : Nat} (intr : Nat) (route : Routed)
    (hj : isrRouted j ≠ .noidea) : enterRoute isrRouted intr route j = isrRouted j := by
  rw [enterRoute]
  split
  · next hi =>
    refine update_of_ne ?_ _ _
    rintro rfl
    exact hj hi
  · rfl

section
variable (hinv : Inv screw s)
include hinv

theorem Inv.register (intr : Nat) (h : H) (routed : Bool) :
    Inv screw (register screw s intr h routed) := by
  have hkeep : ∀ p ∈ s.registered,
      Linked screw (enterRoute s.isrRouted intr (icheck routed)) s.isrIh p.1 p.2 := by
    intro p hp
    have hlinked := hinv.registered p hp
    exact hlinked.mono (enterRoute_of_routed intr _ hlinked.routed) fun _ _ hmem => hmem
  rw [IntrRegister.register]
  split
  · exact { hinv with reg := trivial }
  · dsimp only
    split
    · exact ⟨hinv.pass, trivial, hkeep, hinv.ran⟩
    · next hroute =>
      refine ⟨hinv.pass, ?_, hkeep, hinv.ran⟩
      rw [not_not] at hroute
      simp only [RegOk, listOf, hroute]
      cases routed <;> simp [icheck]

theorem Inv.goReg (hs : goReg s = some s') : Inv screw s' := by
  have hreg := hinv.reg
  unfold IntrRegister.goReg at hs
  split at hs
  · cases hs
  · next intr routedintr h hpc =>
    rw [hpc] at hreg
    split at hs
    · cases hs
      exact { hinv with reg := hreg }
    · cases hs
      exact { hinv with reg := trivial }
  · next intr routedintr h hpc =>
    rw [hpc] at hreg
    obtain ⟨hrouted, rfl⟩ := hreg
    cases hs
    have hgrow : ∀ j, s.isrIh j ⊆ update s.isrIh (listOf screw s.isrRouted intr)
        (h :: s.isrIh (listOf screw s.isrRouted intr)) j := by
      intro j x hx
      rw [Function.update_apply]
      split
      · next hj => exact mem_cons_of_mem _ (hj ▸ hx)
      · exact hx
    refine ⟨hinv.pass, ⟨hrouted, ?_⟩, fun p hp => ?_, hinv.ran⟩
    · dsimp only
      rw [update_self]
      exact mem_cons_self
    · exact (hinv.registered p hp).mono rfl hgrow
  · next intr h hpc =>
    rw [hpc] at hreg
    cases hs
    refine ⟨hinv.pass, trivial, fun p hp => ?_, hinv.ran⟩
    rcases mem_cons.mp hp with rfl | hp
    · exact hreg
    · exact hinv.registered p hp
  · cases hs

/-- Every handler that is registered for the line is in the list that is run. -/
theorem Inv.mem_of_due (i : Nat) : ∀ h ∈ s.due i, h ∈ s.isrIh (listOf screw s.isrRouted i) := by
  intro h hh
  simp only [State.due, mem_map, mem_filter, decide_eq_true_eq] at hh
  obtain ⟨p, ⟨hp, rfl⟩, rfl⟩ := hh
  exact (hinv.registered p hp).mem

theorem Inv.goVisit (hok : timely screw s .visit)
    (hs : goVisit screw s = some s') : Inv screw s' := by
  have hpass := hinv.pass
  unfold IntrRegister.goVisit at hs
  split at hs
  · next i isrcopy hpc =>
    rw [hpc] at hpass
    simp only [PassOk] at hpass
    split at hs
    · next hzero =>
      cases hs
      exact { hinv with pass := (hzero ▸ hpass).done }
    · next hne =>
      rw [if_neg (Nat.not_le.mpr (hpass.lt_levels hne))] at hs
      split at hs
      · next hclear =>
        cases hs
        exact { hinv with pass := hpass.skip hclear }
      · next hset =>
        rw [Bool.not_eq_false] at hset
        cases hs
        refine ⟨hpass.visit hset ?_, hinv.reg, hinv.registered, ?_⟩
        · -- the pass goes on behind the bit, unless routing takes it to the last list
          rw [listOf, routeintr]
          split
          · next hrouted =>
            cases screw with
            | false => exact .inl le_rfl
            | true =>
              have hlast := hok rfl i (hpass.lt_levels hne)
              simp only [hpc, PassPc.isrcopy, true_implies] at hlast
              exact .inr (hlast hrouted hset)
          · exact .inl le_rfl
        · intro v hv
          rcases mem_cons.mp hv with rfl | hv
          · exact hinv.mem_of_due i
          · exact hinv.ran v hv
  · cases hs

theorem Inv.step {a : Act H} (hok : timely screw s a)
    (hs : step screw s a = some s') : Inv screw s' := by
  cases a with
  | register intr h routed =>
    simp only [IntrRegister.step] at hs
    split at hs
    · cases hs
      exact hinv.register intr h routed
    · cases hs
  | reg => exact hinv.goReg hs
  | isr intr =>
    obtain ⟨-, ⟨⟩⟩ := Option.ite_none_right_eq_some.mp hs
    exact { hinv with }
  | take =>
    obtain ⟨-, ⟨⟩⟩ := Option.ite_none_right_eq_some.mp hs
    exact ⟨⟨rfl, rfl⟩, hinv.reg, hinv.registered, by simp⟩
  | start =>
    simp only [IntrRegister.step] at hs
    split at hs
    · next isrcopy hpc =>
      have hpass := hinv.pass
      rw [hpc] at hpass
      obtain ⟨rfl, hlines⟩ := hpass
      cases hs
      refine { hinv with pass := ?_ }
      have hscan : Scan s.isrLowest s.whole s.whole [] :=
        .start fun j hj hset => hok j hj (by rwa [hpc])
      exact hlines ▸ hscan
    · cases hs
  | visit => exact hinv.goVisit hok hs

end

theorem le_listOf {i : Nat} (screw : Bool) (isrRouted : Nat → Routed) (hi : i < levels) :
    i ≤ listOf screw isrRouted i ∧ listOf screw isrRouted i ≤ levels := by
  simp only [listOf, routeintr, levels, bmkMaxintr] at *
  split_ifs <;> omega

/-- A pass that has begun goes on, and comes to its end by the last list. -/
theorem Inv.advances {i : Nat} {isrcopy : BitVec 32} (hinv : Inv screw s)
    (hpc : s.pc = .scan i isrcopy) :
    ∃ s', IntrRegister.step screw s .visit = some s' ∧ (s'.pc = .idle ∨
      ∃ j isrcopy', i < j ∧ j ≤ levels + 1 ∧ s'.pc = .scan j isrcopy') := by
  have hpass := hinv.pass
  rw [hpc] at hpass
  simp only [IntrRegister.step, IntrRegister.goVisit, hpc]
  split
  · exact ⟨_, rfl, .inl rfl⟩
  · next hne =>
    have hlt := Scan.lt_levels hpass hne
    rw [if_neg (Nat.not_le.mpr hlt)]
    split
    · exact ⟨_, rfl, .inr ⟨i + 1, isrcopy, Nat.lt_succ_self i, by omega, rfl⟩⟩
    · obtain ⟨hle, hge⟩ := le_listOf screw s.isrRouted hlt
      exact ⟨_, rfl, .inr ⟨_, _, Nat.lt_succ_of_le hle, Nat.succ_le_succ hge, rfl⟩⟩

/-- **Each bit once.**  In every run in which no pass begins with a bit below `isr_lowest`, the
assertion of the loop does not fail and the loop goes on to its end; a pass that has come there
has visited every bit it took, and each once; and at every visit the handlers were run whose
registration was complete. -/
theorem pass_visits_each (h : Reach (step screw) (timely screw) Init s) :
    s.pc ≠ .failed ∧
      (∀ i isrcopy, s.pc = .scan i isrcopy → ∃ s', step screw s .visit = some s' ∧
        (s'.pc = .idle ∨ ∃ j isrcopy', i < j ∧ j ≤ levels + 1 ∧ s'.pc = .scan j isrcopy')) ∧
      (s.pc = .idle → s.lines.Nodup ∧ ∀ j, j ∈ s.lines ↔ s.whole.getLsbD j = true) ∧
      ∀ v ∈ s.visits, ∀ h ∈ v.due, h ∈ v.ran := by
  have hinv : Inv screw s :=
    h.inv (I := Inv screw) (fun _ h0 => h0.inv) fun _ _ _ hi hok hs => hi.step hok hs
  have hpass := hinv.pass
  refine ⟨fun hpc => ?_, fun i isrcopy hpc => hinv.advances hpc, fun hpc => ?_, hinv.ran⟩
  · rw [hpc] at hpass
    exact hpass
  · rw [hpc] at hpass
    exact ⟨hpass.nodup, hpass.all⟩

end

/-- Nothing is registered yet. -/
def boot : State Nat where
  unmasked _ := false
  isrRouted _ := .noidea
  isrIh _ := []
  isrLowest := levels - 1
  todo := 0#32
  reg := .idle
  pc := .idle
  registered := []
  whole := 0#32
  visits := []

theorem boot_init : Init boot := ⟨fun _ => rfl, fun _ => rfl, fun _ => rfl, rfl, rfl, rfl, rfl,
  rfl, rfl, rfl⟩

/-- A handler is registered for line 9, and then the line fires. -/
theorem pass_visits_each_once : ∃ s : State Nat, Reach (step false) (timely false) Init s ∧
    s.visits = [⟨9, [1], [1]⟩] ∧ s.pc = .idle ∧ s.lines.Nodup := by
  obtain ⟨s, hreach, hvisits, hpc⟩ := run_finds (step false) (timely false) Init
    (fun s => s.visits = [⟨9, [1], [1]⟩] ∧ s.pc = .idle)
    [.register 9 1 false, .reg, .reg, .reg, .isr 9, .take, .start, .visit, .visit] boot_init
    (by decide) (by decide)
  exact ⟨s, hreach, hvisits, hpc, ((pass_visits_each hreach).2.2.1 hpc).1⟩

/-- **An interrupt fires early.**  The line is unmasked and fires before `isr_lowest` has been
lowered from 31: the pass starts above its bit. -/
theorem fires_early : ∃ s : State Nat, Reach (step false) Trans.any Init s ∧ s.pc = .failed := by
  exact any_finds (step false) Init _
    [.register 5 1 false, .reg, .isr 5, .take, .start, .visit, .visit] boot_init (by decide)

end Librettos.IntrRegister
