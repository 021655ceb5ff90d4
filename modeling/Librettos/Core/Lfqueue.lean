/-
# `Core.Lfqueue` — the markable queue under a block queue

`lfqueue.h` is a linked queue with a sentinel, whose nodes are recycled: a dequeue returns
the old sentinel, the woken thread keeps it for its next block, and that block
may be on another queue.  The link at the end of a queue is not `NULL` but an odd
value that counts the wakes nobody was waiting for.  What makes this safe are
stamps: every shared word is a pair of a stamp and a value, and a compare-exchange
is on the pair.

`bmk_block_queue_wake` dequeues with `mark = true`, and `block_queue_callback`
enqueues with `mark = true` the node of the thread that was switched out.

Every access of shared memory is one step.  A load of a pair is two steps, stamp
first (`__lfaba_load`); a reload compares the stamp alone (`__lfaba_reload`); the
store of the new node's link bumps the stamp and then writes the value, two steps
(`__lfaba_store_value`); a compare-exchange is one step, and a failing one leaves
the pair it found in the caller's copy.

This file has the model: memory, control points, the steps, and the history of
the effects that the steps have on the queues as a client sees them.
-/
import Librettos.Lib.Linked
import Librettos.Lib.Trans
import Librettos.Core.BlockQueue

namespace Librettos.Lfqueue

open Function (update)

/-! ## Words -/

/-- A stamp is an `unsigned long`. -/
def bump (stamp : ℕ) : ℕ := (stamp + 1) % 2 ^ 64

/-- One more wake is counted: `next.value - __LFQ_INC`.  The value `-1 - 2 k`
stands for the count `k`, so there are `2 ^ 63` of them; `__LFQ_NULL` is the
count 0. -/
def oneMore (k : ℕ) : ℕ := (k + 1) % 2 ^ 63

theorem bump_eq {k : ℕ} (h : k + 1 < 2 ^ 64) : bump k = k + 1 := Nat.mod_eq_of_lt h

theorem lt_bump {α : Type*} {w : ℕ × α} {k : ℕ} {v : α} (h : w.1 + 1 < 2 ^ 64) (hw : w = (k, v)) :
    w.1 < bump k := by
  subst hw
  rw [bump_eq h]
  exact Nat.lt_succ_self k

theorem oneMore_eq {k : ℕ} (h : k + 1 < 2 ^ 63) : oneMore k = k + 1 := Nat.mod_eq_of_lt h

/-! ## Memory -/

/-- Queues `Q`, nodes `N` and threads `T`.  `node` is a thread's
`bt_block_node`, and `free t` says that `t` is running or in a run queue. -/
structure Mem (Q N T : Type) where
  head : Q → ℕ × N
  tail : Q → ℕ × N
  next : N → ℕ × Link N
  object : N → T
  node : T → N
  free : T → Bool

/-- The effect a step has on a queue as its clients see it. -/
inductive Ev (Q T : Type)
  /-- the thread was appended to the waiters -/
  | waits (q : Q) (t : T)
  /-- a counted wake was used up, the thread goes on -/
  | passes (q : Q) (t : T)
  /-- the thread was taken from the waiters -/
  | releases (q : Q) (t : T)
  /-- nobody waited, the wake was counted -/
  | banks (q : Q)
deriving DecidableEq, Repr

/-- Where a context is in `block_queue_callback` or `bmk_block_queue_wake`, with
its local variables: `ts`, `h` and `nt` are the stamps of its copies of `tail`,
`head` and `next`.  Each point is named for the access it is about to make. -/
inductive Pc (Q N T : Type)
  | idle
  -- lfqueue_enqueue of the node `m` of the thread `t`
  | storeStamp (t : T) (q : Q) (m : N)
  | storeValue (t : T) (q : Q) (m : N)
  | tailStamp (t : T) (q : Q) (m : N)
  | tailValue (t : T) (q : Q) (m : N) (ts : ℕ)
  | nextStamp (t : T) (q : Q) (m : N) (ts : ℕ) (tv : N)
  | nextValue (t : T) (q : Q) (m : N) (ts : ℕ) (tv : N) (nt : ℕ)
  | helpTail (t : T) (q : Q) (m : N) (ts : ℕ) (tv : N) (n : N)
  | reloadTail (t : T) (q : Q) (m : N) (ts : ℕ) (tv : N) (nt : ℕ) (k : ℕ)
  | casNext (t : T) (q : Q) (m : N) (ts : ℕ) (tv : N) (nt : ℕ) (k : ℕ)
  | casTail (q : Q) (m : N) (ts : ℕ) (tv : N)
  -- bmk_sched_wake of a thread that need not wait
  | goOn (t : T) (m : N)
  -- lfqueue_dequeue; `n` is the sentinel it saw
  | headStamp (q : Q)
  | headValue (q : Q) (h : ℕ)
  | endStamp (q : Q) (h : ℕ) (n : N)
  | endValue (q : Q) (h : ℕ) (n : N) (ts : ℕ)
  | linkStamp (q : Q) (h : ℕ) (n : N) (ts : ℕ) (tv : N)
  | linkValue (q : Q) (h : ℕ) (n : N) (ts : ℕ) (tv : N) (nt : ℕ)
  | reloadHead (q : Q) (h : ℕ) (n : N) (ts : ℕ) (tv : N) (nt : ℕ) (v : Link N)
  | bank (q : Q) (h : ℕ) (n : N) (ts : ℕ) (tv : N) (nt : ℕ) (k : ℕ)
  | casEnd (q : Q) (h : ℕ) (n : N) (ts : ℕ) (m : N)
  | readObject (q : Q) (h : ℕ) (n m : N)
  | casHead (q : Q) (h : ℕ) (n m : N) (x : T)
  | setObject (n : N) (x : T)
  -- the rest of bmk_block_queue_wake
  | getObject (n : N)
  | setNode (x : T) (n : N)
  | ready (x : T) (n : N)
deriving DecidableEq, Repr

section
variable {Q N T : Type} [DecidableEq Q] [DecidableEq N] [DecidableEq T]

namespace Mem

@[simps -fullyApplied] def setHead (m : Mem Q N T) (q : Q) (w : ℕ × N) : Mem Q N T :=
  { m with head := update m.head q w }

@[simps -fullyApplied] def setTail (m : Mem Q N T) (q : Q) (w : ℕ × N) : Mem Q N T :=
  { m with tail := update m.tail q w }

@[simps -fullyApplied] def setNext (m : Mem Q N T) (n : N) (w : ℕ × Link N) : Mem Q N T :=
  { m with next := update m.next n w }

@[simps -fullyApplied] def setObject (m : Mem Q N T) (n : N) (x : T) : Mem Q N T :=
  { m with object := update m.object n x }

@[simps -fullyApplied] def setNode (m : Mem Q N T) (x : T) (n : N) : Mem Q N T :=
  { m with node := update m.node x n }

@[simps -fullyApplied] def setFree (m : Mem Q N T) (x : T) (b : Bool) : Mem Q N T :=
  { m with free := update m.free x b }

end Mem

/-! ## Steps -/

/-- The inner loop of `lfqueue_enqueue`, from its head: a pointer in the link
means that `tail` lags behind. -/
def inner (t : T) (q : Q) (m : N) (ts : ℕ) (tv : N) (nt : ℕ) : Link N → Pc Q N T
  | .ptr n => .helpTail t q m ts tv n
  | .cnt k => .reloadTail t q m ts tv nt k

/-- What a step of a context makes of the memory and of its control point, and
the effect it has on a queue. -/
abbrev Outcome (Q N T : Type) := Mem Q N T × Pc Q N T × Option (Ev Q T)

/-- One step of a context. -/
def go (mark : Bool) (s : Mem Q N T) : Pc Q N T → Option (Outcome Q N T)
  | .idle => none
  | .storeStamp t q m =>
    some (s.setNext m (bump (s.next m).1, (s.next m).2), .storeValue t q m, none)
  | .storeValue t q m => some (s.setNext m ((s.next m).1, .cnt 0), .tailStamp t q m, none)
  | .tailStamp t q m => some (s, .tailValue t q m (s.tail q).1, none)
  | .tailValue t q m ts => some (s, .nextStamp t q m ts (s.tail q).2, none)
  | .nextStamp t q m ts tv => some (s, .nextValue t q m ts tv (s.next tv).1, none)
  | .nextValue t q m ts tv nt => some (s, inner t q m ts tv nt (s.next tv).2, none)
  | .helpTail t q m ts tv n =>
    if s.tail q = (ts, tv) then
      some (s.setTail q (bump ts, n), .nextStamp t q m (bump ts) n, none)
    else some (s, .nextStamp t q m (s.tail q).1 (s.tail q).2, none)
  | .reloadTail t q m ts tv nt k =>
    if (s.tail q).1 = ts then some (s, .casNext t q m ts tv nt k, none)
    else some (s, .tailValue t q m (s.tail q).1, none)
  | .casNext t q m ts tv nt k =>
    if s.next tv = (nt, .cnt k) then
      if mark ∧ k ≠ 0 then
        some (s.setNext tv (bump nt, .cnt (k - 1)), .goOn t m, some (.passes q t))
      else some (s.setNext tv (bump nt, .ptr m), .casTail q m ts tv, some (.waits q t))
    else some (s, inner t q m ts tv (s.next tv).1 (s.next tv).2, none)
  | .casTail q m ts tv =>
    if s.tail q = (ts, tv) then some (s.setTail q (bump ts, m), .idle, none)
    else some (s, .idle, none)
  | .goOn t _ => some (s.setFree t true, .idle, none)
  | .headStamp q => some (s, .headValue q (s.head q).1, none)
  | .headValue q h => some (s, .endStamp q h (s.head q).2, none)
  | .endStamp q h n => some (s, .endValue q h n (s.tail q).1, none)
  | .endValue q h n ts => some (s, .linkStamp q h n ts (s.tail q).2, none)
  | .linkStamp q h n ts tv => some (s, .linkValue q h n ts tv (s.next n).1, none)
  | .linkValue q h n ts tv nt => some (s, .reloadHead q h n ts tv nt (s.next n).2, none)
  | .reloadHead q h n ts tv nt v =>
    if (s.head q).1 = h then
      match v with
      | .cnt k => some (s, if mark then .bank q h n ts tv nt k else .idle, none)
      | .ptr m => some (s, if n = tv then .casEnd q h n ts m else .readObject q h n m, none)
    else some (s, .headValue q (s.head q).1, none)
  | .bank q h n ts tv nt k =>
    if s.next n = (nt, .cnt k) then
      some (s.setNext n (bump nt, .cnt (oneMore k)), .idle, some (.banks q))
    else some (s, .reloadHead q h n ts tv (s.next n).1 (s.next n).2, none)
  | .casEnd q h n ts m =>
    if s.tail q = (ts, n) then some (s.setTail q (bump ts, m), .readObject q h n m, none)
    else some (s, .readObject q h n m, none)
  | .readObject q h n m => some (s, .casHead q h n m (s.object m), none)
  | .casHead q h n m x =>
    if s.head q = (h, n) then
      some (s.setHead q (bump h, m), .setObject n x, some (.releases q x))
    else some (s, .endStamp q (s.head q).1 (s.head q).2, none)
  | .setObject n x => some (s.setObject n x, .getObject n, none)
  | .getObject n => some (s, .setNode (s.object n) n, none)
  | .setNode x n => some (s.setNode x n, .ready x n, none)
  | .ready x _ => some (s.setFree x true, .idle, none)

end

/-! ## The system -/

/-- A call of a context. -/
inductive Call (Q T : Type)
  /-- `block_queue_callback` for a thread that was switched out -/
  | block (q : Q) (t : T)
  /-- `bmk_block_queue_wake` -/
  | wake (q : Q)
deriving DecidableEq, Repr

/-- The memory, the contexts `C` that run the two functions, and what was
observed: all effects so far, each context's last call, and the effect of that
call once it had one. -/
structure Sys (Q N T C : Type) where
  mem : Mem Q N T
  pc : C → Pc Q N T
  hist : List (Ev Q T)
  asked : C → Option (Call Q T)
  did : C → Option (Ev Q T)

/-- The next thing that happens: an idle context begins a call, or a context
takes a step. -/
inductive Act (Q T C : Type)
  | call (c : C) (f : Call Q T)
  | go (c : C)
deriving DecidableEq, Repr

section
variable {Q N T C : Type} [DecidableEq Q] [DecidableEq N] [DecidableEq T] [DecidableEq C]

/-- A context that does nothing begins a call.  A thread that blocks is not
waiting already: it was running. -/
def begin (s : Sys Q N T C) (c : C) : Call Q T → Option (Sys Q N T C)
  | .block q t =>
    if s.pc c = .idle ∧ s.mem.free t then
      some { s with
        mem := s.mem.setFree t false
        pc := update s.pc c (.storeStamp t q (s.mem.node t))
        asked := update s.asked c (some (.block q t))
        did := update s.did c none }
    else none
  | .wake q =>
    if s.pc c = .idle then
      some { s with
        pc := update s.pc c (.headStamp q)
        asked := update s.asked c (some (.wake q))
        did := update s.did c none }
    else none

/-- The state after a step of the context `c`. -/
def Sys.after (s : Sys Q N T C) (c : C) (o : Outcome Q N T) : Sys Q N T C where
  mem := o.1
  pc := update s.pc c o.2.1
  hist := s.hist ++ o.2.2.toList
  asked := s.asked
  did := match o.2.2 with
    | none => s.did
    | some e => update s.did c (some e)

/-- The whole system's step. -/
def step (mark : Bool) (s : Sys Q N T C) : Act Q T C → Option (Sys Q N T C)
  | .call c f => begin s c f
  | .go c => (go mark s.mem (s.pc c)).map (s.after c)

/-- Block queues after `bmk_block_queue_init`, threads that run, nobody inside.
Queues and threads have nodes of their own. -/
structure Init (s : Sys Q N T C) : Prop where
  queue : ∀ q, ∃ n, s.mem.head q = (0, n) ∧ s.mem.tail q = (0, n) ∧ s.mem.next n = (0, .cnt 0)
  apart : ∀ q q', (s.mem.head q).2 = (s.mem.head q').2 → q = q'
  owned : ∀ q t, (s.mem.head q).2 ≠ s.mem.node t
  node : ∀ t t', s.mem.node t = s.mem.node t' → t = t'
  object : ∀ t, s.mem.object (s.mem.node t) = t
  free : ∀ t, s.mem.free t = true
  pc : ∀ c, s.pc c = .idle
  hist : s.hist = []
  asked : ∀ c, s.asked c = none
  did : ∀ c, s.did c = none

/-- No counter is about to wrap around. -/
structure Roomy (m : Mem Q N T) : Prop where
  head : ∀ q, (m.head q).1 + 1 < 2 ^ 64
  tail : ∀ q, (m.tail q).1 + 1 < 2 ^ 64
  next : ∀ n, (m.next n).1 + 1 < 2 ^ 64
  count : ∀ n k, (m.next n).2 = .cnt k → k + 1 < 2 ^ 63

end

/-! ## What the history says -/

section
variable {Q T : Type} [DecidableEq Q] [DecidableEq T]

/-- An effect as a step of the block queues: `none` if a block queue would not
have behaved like this. -/
def replayOne (a : Q → BlockQueue T) : Ev Q T → Option (Q → BlockQueue T)
  | .waits q t =>
    if ((a q).block t).2 then some (update a q ((a q).block t).1) else none
  | .passes q t =>
    if ((a q).block t).2 then none else some (update a q ((a q).block t).1)
  | .releases q t =>
    if (a q).wake.2 = some t then some (update a q (a q).wake.1) else none
  | .banks q => if (a q).wake.2 = none then some (update a q (a q).wake.1) else none

/-- The block queues after a history of effects on empty ones. -/
def replay (hist : List (Ev Q T)) : Option (Q → BlockQueue T) :=
  Trans.exec replayOne (fun _ => .empty) hist

/-- The call that an effect answers. -/
def Ev.call : Ev Q T → Call Q T
  | .waits q t => .block q t
  | .passes q t => .block q t
  | .releases q _ => .wake q
  | .banks q => .wake q

end

end Librettos.Lfqueue
