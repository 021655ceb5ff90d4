/-
# `Xen.Netdom` — one direction of the packet channel between two domains

A ring set lies in shared memory: a free ring and an available ring of slot
indices, the slots' buffer, and the word `readers` of the receiving end.  A sender
(`frontend_send`, `backend_forward_send`) takes an index from the free ring, fills
the slot, puts the index on the available ring and notifies the other side if
`readers` says that it sleeps or is about to.  The receiver (`frontend_receiver`,
`backend_forward_receiver`) takes indices from the available ring, delivers the
slots and gives the indices back; when it has found nothing often enough it goes
to sleep in the way of `Lib.Sleeper`, on the word `readers`.

Both ends reach the ring set through a pointer that they read anew at each use,
and `frontend_reconnecter` replaces the pointers while the ends are running.  So
the ring sets are numbered by generation, and reading a pointer is a step of its
own.  The rings are taken as queues, which is what `Core.LfringFifo` and
`Core.LfringConc` are about; a new free ring holds what `lfring_init_full` puts
into it.

This file has the model.  What holds of it is in `Xen.NetdomSleep` (the receiver's
sleep), `Xen.NetdomSlots` (where the slot indices are) and `Xen.NetdomPackets` (what
is delivered).
-/
import Librettos.Lib.Sleeper
import Librettos.Lib.Bytes
import Librettos.Lib.Trans
import Librettos.Core.LfringFifo

namespace Librettos.Netdom

open Function (update)
open Option Sleeper

/-! ## Ring sets -/

/-- `NETDOM_RING_ORDER`. -/
def ringOrder : ℕ := 9

/-- `NETDOM_RING_SIZE`. -/
def ringSize : ℕ := 2 ^ ringOrder

/-- `NETDOM_DATA_SIZE`. -/
def dataSize : ℕ := 9216

/-- `BMK_PCPU_PAGE_SIZE`. -/
def pageSize : ℕ := 4096

/-- `NETDOM_RING_DATA_PAGES`. -/
def ringDataPages : ℕ := (dataSize * ringSize + pageSize - 1) / pageSize

/-- The longest packet: the slot without its length word. -/
def maxPacket : ℕ := dataSize - 8

/-- A slot's offset in the buffer. -/
def slot (i : ℕ) : ℕ := i * dataSize

/-- A packet: the contents of the mbufs of a chain. -/
abbrev Chain := List (List UInt8)

/-- A ring set without `readers`.  `entered` are the packets in the order in which
their slots entered the available ring, `delivered` what the receiver delivered. -/
structure Rings where
  free : List ℕ
  avail : List ℕ
  buf : Bytes.Mem
  entered : List (List UInt8)
  delivered : List (List UInt8)

/-- `frontend_init_ring`: the buffer is as the page allocator left it. -/
def Rings.init (buf : Bytes.Mem) : Rings where
  free := Lfring.fullQueue ringOrder
  avail := []
  buf := buf
  entered := []
  delivered := []

/-! ## The sender -/

/-- Where a sender is, with its local variables: `c` what is left of the chain, `i`
the index, `gd`, `g` and `gb` the generations of the free ring it came from, of the
pointer last read and of the buffer it fills, `off` how far `data` is into it. -/
inductive TxPc
  | idle
  /-- `if (!tx_fring)` -/
  | check (c : Chain)
  | ptrDeq (c : Chain)
  | deq (g : ℕ) (c : Chain)
  | ptrBuf (gd i : ℕ) (c : Chain)
  /-- `slot[0] = 0` -/
  | zero (gd gb i : ℕ) (c : Chain)
  /-- `slot[0] += m->m_len` and the check of the length -/
  | add (gd gb i off : ℕ) (c : Chain)
  /-- `bmk_mempcpy` of the mbuf `b` -/
  | copy (gd gb i off : ℕ) (b : List UInt8) (c : Chain)
  /-- in `bmk_platform_halt` -/
  | halt (gd gb i : ℕ)
  | ptrEnq (gd gb i : ℕ)
  | enq (gd gb g i : ℕ)
  | ptrLook
  /-- `atomic_load(&readers)` -/
  | look (g : ℕ)
  | notify
deriving DecidableEq, Repr

/-- What a sender's step does outside the ring sets. -/
inductive Signal
  | none
  /-- `minios_notify_remote_via_evtchn` -/
  | notify
  /-- `bmk_platform_halt` -/
  | halt
deriving DecidableEq, Repr

/-- The ring set of the generation `g` changes. -/
def onRing (ring : ℕ → Rings) (g : ℕ) (f : Rings → Rings) : ℕ → Rings :=
  update ring g (f (ring g))

/-- The outcome of a sender's step. -/
structure TxOut where
  ring : ℕ → Rings
  pc : TxPc
  signal : Signal

/-- One step of a sender; `pkt` is the packet it was called with. -/
def txGo (txp : Option ℕ) (ring : ℕ → Rings) (flag : ℕ → ℤ) (pkt : List UInt8) :
    TxPc → Option TxOut
  | .idle => none
  | .check c =>
    match txp with
    | none => some ⟨ring, .idle, .none⟩
    | some _ => some ⟨ring, .ptrDeq c, .none⟩
  | .ptrDeq c => txp.map fun g => ⟨ring, .deq g c, .none⟩
  | .deq g c =>
    match (ring g).free with
    | [] => some ⟨ring, .idle, .none⟩
    | i :: rest => some ⟨onRing ring g fun r => { r with free := rest }, .ptrBuf g i c, .none⟩
  | .ptrBuf gd i c => txp.map fun g => ⟨ring, .zero gd g i c, .none⟩
  | .zero gd gb i c =>
    some ⟨onRing ring gb fun r => { r with buf := Bytes.storeWord r.buf (slot i) 0 },
      .add gd gb i 0 c, .none⟩
  | .add gd gb i _ [] => some ⟨ring, .ptrEnq gd gb i, .none⟩
  | .add gd gb i off (b :: c) =>
    let len := (Bytes.loadWord (ring gb).buf (slot i) + b.length) % 2 ^ 64
    let ring' := onRing ring gb fun r => { r with buf := Bytes.storeWord r.buf (slot i) len }
    if maxPacket < len then some ⟨ring', .halt gd gb i, .halt⟩
    else some ⟨ring', .copy gd gb i off b c, .none⟩
  | .copy gd gb i off b c =>
    some ⟨onRing ring gb fun r => { r with buf := Bytes.write r.buf (slot i + 8 + off) b },
      .add gd gb i (off + b.length) c, .none⟩
  | .halt _ _ _ => none
  | .ptrEnq gd gb i => txp.map fun g => ⟨ring, .enq gd gb g i, .none⟩
  | .enq _ _ g i =>
    some ⟨onRing ring g fun r =>
      { r with avail := r.avail ++ [i], entered := r.entered ++ [pkt] }, .ptrLook, .none⟩
  | .ptrLook => txp.map fun g => ⟨ring, .look g, .none⟩
  | .look g => some ⟨ring, if flag g ≤ 0 then .notify else .idle, .none⟩
  | .notify => some ⟨ring, .idle, .notify⟩

/-! ## The receiver -/

/-- Where the receiver is; `f` is `fails`, `n` the length it has read. -/
inductive RxPc
  /-- `if (atomic_load(&frontend_terminating)) return` -/
  | start
  | ptrUp
  /-- `atomic_store(&readers, 1)` -/
  | up (g : ℕ)
  | loop (f : ℕ)
  | deq (f g : ℕ)
  | yield (f : ℕ)
  | yielded (f : ℕ)
  | got (gd i : ℕ)
  /-- `len = slot[0]` -/
  | len (gd g i : ℕ)
  /-- `rump_virtif_pktdeliver`, `rump_virtif_pktforward` -/
  | deliver (gd g i n : ℕ)
  | ptrGive (gd i : ℕ)
  | give (gd g i : ℕ)
  | down
  /-- `atomic_store(&readers, -1)` -/
  | store (g : ℕ)
  | last
  | deqLast (g : ℕ)
  /-- `bmk_sched_block` -/
  | block
  | asleep
  | done
deriving DecidableEq, Repr

/-- Whose receiver it is: only the frontend's can be told to terminate. -/
inductive Side
  | frontend
  | backend
deriving DecidableEq, Repr

/-- The outcome of the receiver's step. -/
structure RxOut (H : Type) where
  ring : ℕ → Rings
  bed : Bed ℕ H
  pc : RxPc

/-- One step of the receiver. -/
def rxGo {H : Type} (side : Side) (terminating : Bool) (rxp : ℕ) (ring : ℕ → Rings)
    (bed : Bed ℕ H) : RxPc → Option (RxOut H)
  | .start => some ⟨ring, bed, if side = .frontend ∧ terminating then .done else .ptrUp⟩
  | .ptrUp => some ⟨ring, bed, .up rxp⟩
  | .up g => some ⟨ring, bed.store g 1, .loop 0⟩
  | .loop f => some ⟨ring, bed, .deq f rxp⟩
  | .deq f g =>
    match (ring g).avail with
    | [] => some ⟨ring, bed, if f + 1 < 256 then .yield (f + 1) else .down⟩
    | i :: rest => some ⟨onRing ring g fun r => { r with avail := rest }, bed, .got g i⟩
  | .yield f => some ⟨ring, bed.yield, .yielded f⟩
  | .yielded f => some ⟨ring, bed, .loop f⟩
  | .got gd i => some ⟨ring, bed, .len gd rxp i⟩
  | .len gd g i => some ⟨ring, bed, .deliver gd g i (Bytes.loadWord (ring g).buf (slot i))⟩
  | .deliver gd g i n =>
    some ⟨onRing ring gd fun r =>
      { r with delivered := r.delivered ++ [Bytes.read (ring g).buf (slot i + 8) n] },
      bed, .ptrGive gd i⟩
  | .ptrGive gd i => some ⟨ring, bed, .give gd rxp i⟩
  | .give _ g i => some ⟨onRing ring g fun r => { r with free := r.free ++ [i] }, bed, .loop 0⟩
  | .down => some ⟨ring, bed, .store rxp⟩
  | .store g => some ⟨ring, bed.store g (-1), .last⟩
  | .last => some ⟨ring, bed, .deqLast rxp⟩
  | .deqLast g =>
    match (ring g).avail with
    | [] => some ⟨ring, bed, .block⟩
    | i :: rest => some ⟨onRing ring g fun r => { r with avail := rest }, bed, .got g i⟩
  | .block => some ⟨ring, bed.leave, .asleep⟩
  | .asleep => some ⟨ring, bed, if side = .frontend ∧ terminating then .done else .loop 0⟩
  | .done => none

/-! ## The system -/

/-- An interrupt handler before its exchange; between the exchange and the wake it
is in the bed's `waking`. -/
inductive HdPc
  | idle
  | enter
  | exch (g : ℕ)
deriving DecidableEq, Repr

/-- The receiving end's event channel. -/
inductive Port
  | unbound
  | masked
  | open
deriving DecidableEq, Repr

/-- Senders `S`, and processors `H` that take interrupts of the receiving end.
`txp` and `rxp` are the ends' pointers, `txp = none` for `NULL`; `gen` is the number
of ring sets made so far; `cb` is the pointer that the receiver's post-switch
callback has read; `pkt` the packet each sender was called with. -/
structure State (S H : Type) where
  ring : ℕ → Rings
  gen : ℕ
  txp : Option ℕ
  rxp : ℕ
  bed : Bed ℕ H
  rx : RxPc
  cb : Option ℕ
  tx : S → TxPc
  pkt : S → List UInt8
  hd : H → HdPc
  port : Port
  pending : Bool
  terminating : Bool
  halted : Bool

inductive Act (S H : Type)
  /-- a sender is called with a chain of mbufs -/
  | send (x : S) (c : Chain)
  | tx (x : S)
  | rx
  /-- `receiver_callback` -/
  | callback
  | requeue
  | resume
  /-- the other domain raises the event without having sent -/
  | event
  /-- the event is delivered to the processor `h` -/
  | deliver (h : H)
  /-- the interrupt handler -/
  | handler (h : H)
  | wake (h : H)
  /-- `frontend_terminate` -/
  | terminate (h : H)
  | bind
  | unmask
  /-- `frontend_init_ring` for the next generation -/
  | newRings
  | setRx
  | setTx
deriving DecidableEq, Repr

section
variable {S H : Type} [DecidableEq S] [DecidableEq H]

/-- Raising the event of an unbound channel is lost. -/
def State.raise (s : State S H) : State S H :=
  { s with pending := s.pending || decide (s.port ≠ .unbound) }

def stepTx (s : State S H) (x : S) : Option (State S H) :=
  (txGo s.txp s.ring s.bed.flag (s.pkt x) (s.tx x)).map fun o =>
    let s' := { s with ring := o.ring, tx := update s.tx x o.pc }
    match o.signal with
    | .none => s'
    | .notify => s'.raise
    | .halt => { s' with halted := true }

def stepRx (side : Side) (s : State S H) : Option (State S H) :=
  if s.bed.seat = .up then
    (rxGo side s.terminating s.rxp s.ring s.bed s.rx).map fun o =>
      { s with ring := o.ring, bed := o.bed, rx := o.pc }
  else none

/-- The callback reads the pointer, then does its compare-exchange. -/
def stepCallback (s : State S H) : Option (State S H) :=
  if s.bed.seat = .leaving then
    match s.cb with
    | none => some { s with cb := some s.rxp }
    | some g => some { s with bed := s.bed.settle g, cb := none }
  else none

/-- The handler reads the pointer, then does its exchange. -/
def stepHandler (s : State S H) (h : H) : Option (State S H) :=
  match s.hd h with
  | .idle => none
  | .enter => some { s with hd := update s.hd h (.exch s.rxp) }
  | .exch g => some { s with bed := s.bed.call g h, hd := update s.hd h .idle }

/-- A processor that is in no handler. -/
def State.calm (s : State S H) (h : H) : Prop := s.hd h = .idle ∧ s.bed.waking h = false

instance (s : State S H) (h : H) : Decidable (s.calm h) := inferInstanceAs (Decidable (_ ∧ _))

/-- The whole system's step.  Nothing happens after a halt. -/
def step (side : Side) (s : State S H) (a : Act S H) : Option (State S H) :=
  if s.halted then none else
  match a with
  | .send x c =>
    -- `m_len` is an `int`
    if s.tx x = .idle ∧ ∀ b ∈ c, b.length < 2 ^ 31 then
      some { s with tx := update s.tx x (.check c), pkt := update s.pkt x c.flatten }
    else none
  | .tx x => stepTx s x
  | .rx => stepRx side s
  | .callback => stepCallback s
  | .requeue => if s.bed.seat = .turning then some { s with bed := s.bed.turn } else none
  | .resume =>
    if s.bed.seat = .out ∧ 0 < s.bed.queued then some { s with bed := s.bed.resume } else none
  | .event => some s.raise
  | .deliver h =>
    if s.port = .open ∧ s.pending = true ∧ s.calm h then
      some { s with pending := false, hd := update s.hd h .enter }
    else none
  | .handler h => stepHandler s h
  | .wake h => if s.bed.waking h = true then some { s with bed := s.bed.wake h } else none
  | .terminate h =>
    if side = .frontend ∧ s.calm h then
      some { s with terminating := true, hd := update s.hd h .enter }
    else none
  | .bind => if s.port = .unbound then some { s with port := .masked } else none
  | .unmask => if s.port = .masked then some { s with port := .open } else none
  | .newRings =>
    some { s with
      ring := update s.ring s.gen (.init (s.ring s.gen).buf)
      bed := s.bed.renew s.gen
      gen := s.gen + 1 }
  | .setRx => some { s with rxp := s.gen - 1 }
  | .setTx => some { s with txp := some (s.gen - 1) }

/-- The first ring set has been made and `rx_fring` points to it; the receiver's
thread has been created and is on its run queue. -/
structure Init (s : State S H) : Prop where
  ring : s.ring 0 = .init (s.ring 0).buf
  gen : s.gen = 1
  txp : s.txp = none
  rxp : s.rxp = 0
  flag : ∀ g, s.bed.flag g = 0
  used : ∀ g, s.bed.used g = false
  seat : s.bed.seat = .out
  queued : s.bed.queued = 1
  waking : ∀ h, s.bed.waking h = false
  rx : s.rx = .start
  cb : s.cb = none
  tx : ∀ x, s.tx x = .idle
  hd : ∀ h, s.hd h = .idle
  pending : s.pending = false
  terminating : s.terminating = false
  halted : s.halted = false

/-- The steps one by one, with what each of them found. -/
inductive Moved (side : Side) (s : State S H) : Act S H → State S H → Prop
  | send (x : S) (c : Chain) (hidle : s.tx x = .idle) (hlen : ∀ b ∈ c, b.length < 2 ^ 31) :
      Moved side s (.send x c) { s with
        tx := update s.tx x (.check c), pkt := update s.pkt x c.flatten }
  | tx {s' : State S H} (x : S) (h : stepTx s x = some s') : Moved side s (.tx x) s'
  | rx {s' : State S H} (h : stepRx side s = some s') : Moved side s .rx s'
  | callback {s' : State S H} (h : stepCallback s = some s') : Moved side s .callback s'
  | requeue (hseat : s.bed.seat = .turning) : Moved side s .requeue { s with bed := s.bed.turn }
  | resume (hseat : s.bed.seat = .out) (hq : 0 < s.bed.queued) :
      Moved side s .resume { s with bed := s.bed.resume }
  | event : Moved side s .event s.raise
  | deliver (h : H) (hport : s.port = .open) (hp : s.pending = true) (hc : s.calm h) :
      Moved side s (.deliver h) { s with
        pending := false, hd := update s.hd h .enter }
  | handler {s' : State S H} (h : H) (hh : stepHandler s h = some s') : Moved side s (.handler h) s'
  | wake (h : H) (hw : s.bed.waking h = true) : Moved side s (.wake h) { s with bed := s.bed.wake h }
  | terminate (h : H) (hside : side = .frontend) (hc : s.calm h) :
      Moved side s (.terminate h) { s with
        terminating := true, hd := update s.hd h .enter }
  | bind (hport : s.port = .unbound) : Moved side s .bind { s with port := .masked }
  | unmask (hport : s.port = .masked) : Moved side s .unmask { s with port := .open }
  | newRings : Moved side s .newRings { s with
      ring := update s.ring s.gen (.init (s.ring s.gen).buf)
      bed := s.bed.renew s.gen
      gen := s.gen + 1 }
  | setRx : Moved side s .setRx { s with rxp := s.gen - 1 }
  | setTx : Moved side s .setTx { s with txp := some (s.gen - 1) }

theorem step_moved {side : Side} {s s' : State S H} {a : Act S H} (h : step side s a = some s') :
    Moved side s a s' := by
  simp only [step] at h
  split at h
  next => exact absurd h (by simp)
  next =>
    cases a with
    | tx x => exact .tx x h
    | rx => exact .rx h
    | callback => exact .callback h
    | handler x => exact .handler x h
    | event =>
      cases h
      exact .event
    | newRings =>
      cases h
      exact .newRings
    | setRx =>
      cases h
      exact .setRx
    | setTx =>
      cases h
      exact .setTx
    | send x c =>
      obtain ⟨hc, ⟨⟩⟩ := ite_none_right_eq_some.mp h
      exact .send x c hc.1 hc.2
    | requeue =>
      obtain ⟨hc, ⟨⟩⟩ := ite_none_right_eq_some.mp h
      exact .requeue hc
    | resume =>
      obtain ⟨hc, ⟨⟩⟩ := ite_none_right_eq_some.mp h
      exact .resume hc.1 hc.2
    | deliver x =>
      obtain ⟨hc, ⟨⟩⟩ := ite_none_right_eq_some.mp h
      exact .deliver x hc.1 hc.2.1 hc.2.2
    | wake x =>
      obtain ⟨hc, ⟨⟩⟩ := ite_none_right_eq_some.mp h
      exact .wake x hc
    | terminate x =>
      obtain ⟨hc, ⟨⟩⟩ := ite_none_right_eq_some.mp h
      exact .terminate x hc.1 hc.2
    | bind =>
      obtain ⟨hc, ⟨⟩⟩ := ite_none_right_eq_some.mp h
      exact .bind hc
    | unmask =>
      obtain ⟨hc, ⟨⟩⟩ := ite_none_right_eq_some.mp h
      exact .unmask hc

variable {s s' : State S H}

omit [DecidableEq H] in
theorem stepTx_cases {x : S} (h : stepTx s x = some s') : ∃ o pending halted,
    txGo s.txp s.ring s.bed.flag (s.pkt x) (s.tx x) = some o ∧
    s' = { s with
      ring := o.ring, tx := update s.tx x o.pc, pending := pending, halted := halted } ∧
    (s.pending = true ∨ o.signal = .notify ∧ s.port ≠ .unbound → pending = true) ∧
    (halted = true → s.halted = true ∨ o.signal = .halt) := by
  obtain ⟨o, hgo, rfl⟩ := map_eq_some_iff.mp h
  cases hsig : o.signal with
  | none | notify => exact ⟨o, _, _, hgo, rfl, by simp [hsig], .inl⟩
  | halt => exact ⟨o, _, _, hgo, rfl, by simp [hsig], fun _ => .inr hsig⟩

section
omit [DecidableEq S] [DecidableEq H]

theorem stepRx_cases {side : Side} (h : stepRx side s = some s') : s.bed.seat = .up ∧ ∃ o,
    rxGo side s.terminating s.rxp s.ring s.bed s.rx = some o ∧
    s' = { s with ring := o.ring, bed := o.bed, rx := o.pc } := by
  obtain ⟨hup, h⟩ := ite_none_right_eq_some.mp h
  obtain ⟨o, hgo, rfl⟩ := map_eq_some_iff.mp h
  exact ⟨hup, o, hgo, rfl⟩

theorem stepCallback_cases (h : stepCallback s = some s') : s.bed.seat = .leaving ∧
    (s.cb = none ∧ s' = { s with cb := some s.rxp } ∨
      ∃ g, s.cb = some g ∧ s' = { s with bed := s.bed.settle g, cb := none }) := by
  obtain ⟨hseat, h⟩ := ite_none_right_eq_some.mp h
  split at h <;> cases h
  · next hcb => exact ⟨hseat, .inl ⟨hcb, rfl⟩⟩
  · next g hcb => exact ⟨hseat, .inr ⟨g, hcb, rfl⟩⟩

end

omit [DecidableEq S] in
theorem stepHandler_cases {x : H} (h : stepHandler s x = some s') :
    s.hd x = .enter ∧ s' = { s with hd := update s.hd x (.exch s.rxp) } ∨
      ∃ g, s.hd x = .exch g ∧
        s' = { s with bed := s.bed.call g x, hd := update s.hd x .idle } := by
  unfold stepHandler at h
  split at h <;> cases h
  · next hpc => exact .inl ⟨hpc, rfl⟩
  · next g hpc => exact .inr ⟨g, hpc, rfl⟩

end

/-- The first state, with one sender and one processor. -/
def boot : State Unit Unit where
  ring := fun _ => .init fun _ => 0
  gen := 1
  txp := none
  rxp := 0
  bed := { flag := fun _ => 0, used := fun _ => false, seat := .out, queued := 1, waking := fun _ => false }
  rx := .start
  cb := none
  tx := fun _ => .idle
  pkt := fun _ => []
  hd := fun _ => .idle
  port := .open
  pending := false
  terminating := false
  halted := false

theorem boot_init (p : Port) : Init { boot with port := p } where
  ring := rfl
  gen := rfl
  txp := rfl
  rxp := rfl
  flag _ := rfl
  used _ := rfl
  seat := rfl
  queued := rfl
  waking _ := rfl
  rx := rfl
  cb := rfl
  tx _ := rfl
  hd _ := rfl
  pending := rfl
  terminating := rfl
  halted := rfl

end Librettos.Netdom
