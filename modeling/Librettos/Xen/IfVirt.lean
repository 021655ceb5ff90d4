/-
# `Xen.IfVirt` — who has a packet that is being sent

The virtual interface of an application (`if_virt.c`, `xenif_user.c`, with `NETDOM_FRONTEND`).
`virtif_start` takes the packets off the queue of the interface and gives each of them to
`VIFHYPER_SEND`.  In the network server mode that copies the packet to the ring and returns 0, and
`virtif_start` frees it.  With direct access it hands the packet on to the physical interface
and returns -1, and `virtif_start` does not free it.

Sending to the ring gives up the CPU of the rump kernel, so other threads can be in `virtif_start`
at the same time, and between any two steps the mode can be switched and the interfaces
configured.  Each packet is in the hands of one thread, or with the physical interface, or freed:
how often it is dequeued is how often it is in one of these (`mbufs_disposed_iff`).  That stops
being so when the packet is handed to a physical interface that is not running:
`rump_virtif_pktforward_direct` returns, and nobody has the packet (`mbuf_lost`).

It is assumed that `if_transmit_lock` consumes its packet and `frontend_send` only reads it.
-/
import Librettos.Lib.Count
import Librettos.Lib.Trans

namespace Librettos.IfVirt

open List Trans

/-- The flags and the counters of `struct ifnet` that are used here. -/
structure Ifnet where
  running : Bool
  oactive : Bool
  oerrors : Nat
  opackets : Nat
deriving DecidableEq, Repr

/-- Where a thread is, and with which packet. -/
inductive Pc (M : Type)
  | out
  /-- before `IF_DEQUEUE` -/
  | loop
  /-- before `VIFHYPER_SEND` -/
  | got (m : M)
  /-- before `rump_virtif_pktforward_direct` -/
  | direct (m : M)
  /-- in `frontend_send` -/
  | sending (m : M)
  /-- before `m_freem` -/
  | sent (m : M)
deriving DecidableEq, Repr

/-- `dequeued`, `transmitted` and `freed` are the packets with which `IF_DEQUEUE`,
`if_transmit_lock` and `m_freem` have been called.  `halted` is set by an access through `NULL`. -/
structure State (T M : Type) where
  ifSnd : List M
  virt : Ifnet
  phys : Option Ifnet
  directAccess : Bool
  pc : T → Pc M
  dequeued : List M
  transmitted : List M
  freed : List M
  halted : Bool

inductive Act (T M : Type)
  /-- a packet is put on the queue -/
  | enqueue (m : M)
  | virtifStart (t : T)
  | dequeue (t : T)
  | vifhyperSend (t : T)
  /-- `if_transmit_lock` answers with `ret` -/
  | forward (t : T) (ret : Int)
  | frontendSend (t : T)
  | mFreem (t : T)
  /-- `rump_virtif_switch` -/
  | switch
  | virtifInit
  | virtifStop
  /-- `rumpuser_network_init` for a physical interface -/
  | networkInit (ifp : Ifnet)
  /-- the physical interface is started or stopped -/
  | physRunning (b : Bool)
deriving DecidableEq, Repr

section
variable {T M : Type} [DecidableEq T]

def State.goto (s : State T M) (t : T) (pc : Pc M) : State T M :=
  { s with pc := Function.update s.pc t pc }

/-- `IF_DEQUEUE`; the loop is left when the queue is empty. -/
def dequeue (s : State T M) (t : T) : State T M :=
  match s.ifSnd with
  | [] => { s with virt := { s.virt with oactive := false } }.goto t .out
  | m :: rest => { s with ifSnd := rest, dequeued := m :: s.dequeued }.goto t (.got m)

/-- `if_transmit_lock` has answered. -/
def Ifnet.transmitted (ifp : Ifnet) (ret : Int) : Ifnet :=
  if ret ≠ 0 then { ifp with oerrors := ifp.oerrors + 1 } else { ifp with opackets := ifp.opackets + 1 }

/-- `rump_virtif_pktforward_direct`, then `VIFHYPER_SEND` returns -1 -/
def forward (s : State T M) (t : T) (m : M) (ret : Int) : State T M :=
  match s.phys with
  | none => { s with halted := true }.goto t .out
  | some ifp =>
    if ifp.running = false then s.goto t .loop
    else { s with
      phys := some (ifp.transmitted ret), transmitted := m :: s.transmitted }.goto t .loop

def run (s : State T M) : Act T M → Option (State T M)
  | .enqueue m => some { s with ifSnd := s.ifSnd ++ [m] }
  | .virtifStart t =>
    match s.pc t with
    | .out => some ({ s with virt := { s.virt with oactive := true } }.goto t .loop)
    | _ => none
  | .dequeue t =>
    match s.pc t with
    | .loop => some (dequeue s t)
    | _ => none
  | .vifhyperSend t =>
    match s.pc t with
    | .got m => some (s.goto t (if s.directAccess then .direct m else .sending m))
    | _ => none
  | .forward t ret =>
    match s.pc t with
    | .direct m => some (forward s t m ret)
    | _ => none
  | .frontendSend t =>
    match s.pc t with
    | .sending m => some (s.goto t (.sent m))
    | _ => none
  | .mFreem t =>
    match s.pc t with
    | .sent m => some ({ s with freed := m :: s.freed }.goto t .loop)
    | _ => none
  | .switch => some { s with directAccess := !s.directAccess }
  | .virtifInit => some { s with virt := { s.virt with running := true } }
  | .virtifStop => some { s with virt := { s.virt with running := false } }
  | .networkInit ifp => some { s with phys := some ifp }
  | .physRunning b => some { s with phys := s.phys.map fun ifp => { ifp with running := b } }

def step (s : State T M) (a : Act T M) : Option (State T M) := if s.halted then none else run s a

/-- Any queue, any mode and any interfaces; nobody is in `virtif_start`. -/
structure Init (s : State T M) : Prop where
  pc : ∀ t, s.pc t = .out
  dequeued : s.dequeued = []
  transmitted : s.transmitted = []
  freed : s.freed = []
  halted : s.halted = false

/-- A packet is handed to a physical interface that is there and running. -/
def up (s : State T M) : Act T M → Prop
  | .forward _ _ => s.phys.any Ifnet.running = true
  | _ => True

instance (s : State T M) : (a : Act T M) → Decidable (up s a)
  | .forward _ _ => inferInstanceAs (Decidable (_ = true))
  | .enqueue _ | .virtifStart _ | .dequeue _ | .vifhyperSend _ | .frontendSend _ | .mFreem _
  | .switch | .virtifInit | .virtifStop | .networkInit _ | .physRunning _ => isTrue trivial

end

/-! ## The account of a packet -/

section
variable {T M : Type} [DecidableEq M]

/-- A thread has the packet. -/
def Pc.holds (m : M) : Pc M → Nat
  | .out | .loop => 0
  | .got x | .direct x | .sending x | .sent x => if x == m then 1 else 0

variable [Fintype T]

/-- How often the packet has been disposed of, or is in the hands of a thread. -/
def State.owned (s : State T M) (m : M) : Nat :=
  s.transmitted.count m + s.freed.count m + Count.wsum (Pc.holds m) s.pc

/-- Every packet that was dequeued has been transmitted or freed, once, or a thread has it. -/
def Accounted (s : State T M) : Prop := ∀ m, s.dequeued.count m = s.owned m

variable {s s' : State T M} {a : Act T M}

theorem owned_of_out (h : ∀ t, s.pc t = .out) (m : M) :
    s.owned m = s.transmitted.count m + s.freed.count m := by
  have hzero : Count.wsum (Pc.holds m) s.pc = 0 := by
    rw [Count.wsum_eq_zero_iff]
    intro t
    rw [h t, Pc.holds]
  rw [State.owned, hzero, Nat.add_zero]

variable [DecidableEq T]

omit [DecidableEq M] [Fintype T] in
theorem run_of_step (h : step s a = some s') : run s a = some s' := by
  rw [step] at h
  split at h
  · cases h
  · exact h

theorem owned_goto (s : State T M) (t : T) (pc : Pc M) (m : M) :
    (s.goto t pc).owned m + (s.pc t).holds m = s.owned m + pc.holds m := by
  have hsum := Count.wsum_update (Pc.holds m) s.pc t pc
  simp only [State.owned, State.goto]
  omega

theorem dequeue_balance {t : T} (hpc : s.pc t = .loop) (m : M) :
    (dequeue s t).dequeued.count m + s.owned m = s.dequeued.count m + (dequeue s t).owned m := by
  have hgo := owned_goto (s := s) t
  simp only [hpc, Pc.holds, Nat.add_zero] at hgo
  rw [dequeue]
  split
  · have hout : ({ s with virt := { s.virt with oactive := false } }.goto t .out).owned m =
        s.owned m := hgo .out m
    rw [hout]
    rfl
  · next x rest _ =>
    have hgot : ({ s with ifSnd := rest, dequeued := x :: s.dequeued }.goto t (.got x)).owned m =
        s.owned m + if x == m then 1 else 0 := hgo (.got x) m
    have hcount := count_cons (a := m) (b := x) (l := s.dequeued)
    rw [hgot]
    simp only [State.goto]
    omega

/-- A packet that is handed on is the physical interface's, if that is up. -/
theorem forward_balance {t : T} {x : M} (hpc : s.pc t = .direct x) (ret : Int) (m : M) :
    (forward s t x ret).dequeued = s.dequeued ∧ s.owned m = (forward s t x ret).owned m +
      if s.phys.any Ifnet.running then 0 else [x].count m := by
  have hone : [x].count m = if x == m then 1 else 0 := by rw [count_cons, count_nil, zero_add]
  have hgo := owned_goto (s := s) t
  rw [hpc] at hgo
  rw [forward]
  split
  · next hnone =>
    have hdown : ¬s.phys.any Ifnet.running = true := by simp [hnone]
    have hout : ({ s with halted := true }.goto t .out).owned m + (if x == m then 1 else 0) =
        s.owned m := hgo .out m
    rw [if_neg hdown, hone]
    exact ⟨rfl, hout.symm⟩
  · next ifp hsome =>
    split
    · next hdown =>
      have hdown : ¬s.phys.any Ifnet.running = true := by simp [hsome, hdown]
      rw [if_neg hdown, hone]
      exact ⟨rfl, (hgo .loop m).symm⟩
    · next hrunning =>
      have hup : s.phys.any Ifnet.running = true := by simpa [hsome] using hrunning
      have hloop := owned_goto
        { s with phys := some (ifp.transmitted ret), transmitted := x :: s.transmitted } t .loop m
      simp only [hpc, Pc.holds, State.owned, count_cons] at hloop
      rw [if_pos hup]
      refine ⟨rfl, ?_⟩
      simp only [State.owned]
      omega

/-- What one step does to the account: the packets `lost` leave it, and there is one exactly if
the packet is handed to an interface that is not up. -/
theorem step_balance (h : step s a = some s') : ∃ lost : List M,
    (∀ m, s'.dequeued.count m + s.owned m = s.dequeued.count m + s'.owned m + lost.count m) ∧
      (lost = [] ↔ up s a) := by
  have hrun := run_of_step h
  cases a with
  | enqueue | switch | virtifInit | virtifStop | networkInit | physRunning =>
    cases hrun
    exact ⟨[], fun m => rfl, by simp [up]⟩
  | virtifStart t =>
    rw [run] at hrun
    split at hrun
    · next hpc =>
      cases hrun
      refine ⟨[], fun m => ?_, by simp [up]⟩
      have hgo := owned_goto { s with virt := { s.virt with oactive := true } } t .loop m
      simp only [hpc, Pc.holds, Nat.add_zero] at hgo
      rw [hgo]
      rfl
    · cases hrun
  | dequeue t =>
    rw [run] at hrun
    split at hrun
    · next hpc =>
      cases hrun
      exact ⟨[], fun m => dequeue_balance hpc m, by simp [up]⟩
    · cases hrun
  | vifhyperSend t =>
    rw [run] at hrun
    split at hrun
    · next x hpc =>
      cases hrun
      refine ⟨[], fun m => ?_, by simp [up]⟩
      -- the packet stays with the thread in both modes
      have hsame : (if s.directAccess then Pc.direct x else .sending x).holds m =
          if x == m then 1 else 0 := by split <;> rfl
      have hgo := owned_goto s t (if s.directAccess then .direct x else .sending x) m
      rw [hsame, hpc, Pc.holds, Nat.add_right_cancel_iff] at hgo
      rw [hgo]
      rfl
    · cases hrun
  | forward t ret =>
    rw [run] at hrun
    split at hrun
    · next x hpc =>
      cases hrun
      refine ⟨if s.phys.any Ifnet.running then [] else [x], fun m => ?_, by simp [up]⟩
      obtain ⟨hsame, howned⟩ := forward_balance hpc ret m
      rw [hsame, howned]
      split <;> simp [Nat.add_assoc]
    · cases hrun
  | frontendSend t =>
    rw [run] at hrun
    split at hrun
    · next x hpc =>
      cases hrun
      refine ⟨[], fun m => ?_, by simp [up]⟩
      have hgo := owned_goto s t (.sent x) m
      rw [hpc] at hgo
      simp only [Pc.holds, Nat.add_right_cancel_iff] at hgo
      rw [hgo]
      rfl
    · cases hrun
  | mFreem t =>
    rw [run] at hrun
    split at hrun
    · next x hpc =>
      cases hrun
      refine ⟨[], fun m => ?_, by simp [up]⟩
      have hgo := owned_goto { s with freed := x :: s.freed } t .loop m
      simp only [hpc, Pc.holds, State.owned, count_cons] at hgo
      simp only [State.owned, count_nil]
      simp only [State.goto] at hgo ⊢
      omega
    · cases hrun

theorem run_balance : ∀ (acts : List (Act T M)) {s s' : State T M},
    Trans.exec step s acts = some s' → ∃ lost : List M,
      (∀ m, s'.dequeued.count m + s.owned m = s.dequeued.count m + s'.owned m + lost.count m) ∧
        (lost = [] ↔ okRun step up s acts)
  | [], s, s', h => by
    cases h
    exact ⟨[], fun m => rfl, by simp [okRun]⟩
  | a :: acts, s, s', h => by
    obtain ⟨t, hstep, hrest⟩ := Option.bind_eq_some_iff.mp h
    obtain ⟨lost, hcount, hup⟩ := step_balance hstep
    obtain ⟨lost', hcount', hup'⟩ := run_balance acts hrest
    refine ⟨lost ++ lost', fun m => ?_, ?_⟩
    · have h1 := hcount m
      have h2 := hcount' m
      rw [count_append]
      omega
    · simp only [append_eq_nil_iff, okRun, hup, hup', hstep, Option.some.injEq, forall_eq']

omit [DecidableEq M] [Fintype T] in
theorem virtifStart_goes_on {t : T} (h : s.halted = false) (hin : s.pc t ≠ .out) :
    ∃ a ∈ [Act.dequeue t, .vifhyperSend t, .forward t 0, .frontendSend t, .mFreem t],
      (step s a).isSome := by
  cases hpc : s.pc t with
  | out => exact absurd hpc hin
  | loop => exact ⟨.dequeue t, by simp, by simp [step, run, h, hpc]⟩
  | got m => exact ⟨.vifhyperSend t, by simp, by simp [step, run, h, hpc]⟩
  | direct m => exact ⟨.forward t 0, by simp, by simp [step, run, h, hpc]⟩
  | sending m => exact ⟨.frontendSend t, by simp, by simp [step, run, h, hpc]⟩
  | sent m => exact ⟨.mFreem t, by simp, by simp [step, run, h, hpc]⟩

/-- **Packets are disposed of once.**  From any queue, in any mode and with any interfaces, however
the threads in `virtif_start`, the switching of the mode and the configuration of the interfaces are
interleaved: every packet that was dequeued has been handed to `if_transmit_lock` or freed, once,
or is still in the hands of a thread, exactly if every packet that was handed on with direct
access found a physical interface that was there and running.  When the threads have returned none
is in their hands, and until then they can go on. -/
theorem mbufs_disposed_iff {acts : List (Act T M)} (h0 : Init s)
    (h : Trans.exec step s acts = some s') :
    (Accounted s' ↔ okRun step up s acts) ∧
      ((∀ t, s'.pc t = .out) → ∀ m, s'.owned m = s'.transmitted.count m + s'.freed.count m) ∧
      ∀ t, s'.halted = false → s'.pc t ≠ .out →
        ∃ a ∈ [Act.dequeue t, .vifhyperSend t, .forward t 0, .frontendSend t, .mFreem t],
          (step s' a).isSome := by
  refine ⟨?_, owned_of_out, fun _ => virtifStart_goes_on⟩
  obtain ⟨lost, hcount, hup⟩ := run_balance acts h
  have hzero : ∀ m, s.owned m = 0 := by
    intro m
    rw [owned_of_out h0.pc, h0.transmitted, h0.freed, count_nil]
  have hlost : Accounted s' ↔ ∀ m, lost.count m = 0 := by
    refine forall_congr' fun m => ?_
    have hm := hcount m
    rw [hzero m, h0.dequeued, count_nil] at hm
    omega
  rw [hlost, ← hup, eq_nil_iff_forall_not_mem]
  exact forall_congr' fun m => count_eq_zero

end

/-! ## Runs -/

/-- Two packets are waiting. -/
def waiting (directAccess running : Bool) : State Unit Nat where
  ifSnd := [1, 2]
  virt := ⟨true, false, 0, 0⟩
  phys := some ⟨running, false, 0, 0⟩
  directAccess := directAccess
  pc := fun _ => .out
  dequeued := []
  transmitted := []
  freed := []
  halted := false

theorem waiting_init (directAccess running : Bool) : Init (waiting directAccess running) :=
  ⟨fun _ => rfl, rfl, rfl, rfl, rfl⟩

/-- One packet goes to the ring; then the mode is switched, and the other one goes to the physical
interface. -/
theorem mbufs_disposed_iff_both : ∃ s : State Unit Nat, s.dequeued = [2, 1] ∧
    s.transmitted = [2] ∧ s.freed = [1] ∧ Accounted s := by
  have hrun : ∃ s, Trans.exec step (waiting false true) [.virtifStart (), .dequeue (),
      .vifhyperSend (), .frontendSend (), .mFreem (), .switch, .dequeue (), .vifhyperSend (),
      .forward () 0, .dequeue ()] = some s ∧ s.dequeued = [2, 1] ∧ s.transmitted = [2] ∧
        s.freed = [1] := ⟨_, rfl, rfl, rfl, rfl⟩
  obtain ⟨s, hexec, hdequeued, htransmitted, hfreed⟩ := hrun
  exact ⟨s, hdequeued, htransmitted, hfreed,
    (mbufs_disposed_iff (waiting_init false true) hexec).1.mpr (by decide)⟩

/-- **A packet is lost.**  With direct access and a physical interface that is not running
`virtif_start` takes both packets off the queue and returns; they are neither transmitted nor
freed. -/
theorem mbuf_lost : ∃ s : State Unit Nat,
    Trans.exec step (waiting true false) [.virtifStart (), .dequeue (), .vifhyperSend (),
      .forward () 0, .dequeue (), .vifhyperSend (), .forward () 0, .dequeue ()] = some s ∧
    s.pc () = .out ∧ s.dequeued = [2, 1] ∧ s.transmitted = [] ∧ s.freed = [] :=
  ⟨_, rfl, rfl, rfl, rfl, rfl⟩

end Librettos.IfVirt
