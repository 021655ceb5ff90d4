/-
# `Core.BlockNodes` — the nodes of the block queues

There are `BMK_MAX_BLOCKQ` nodes.  A thread gets one when it is created, in
`bt_block_node`, and a block queue one when it is initialised, as its sentinel.  A
thread that blocks leaves its node in the queue; the wake gives it the queue's old
sentinel, and the node that it had left becomes the new one.  A destroyed queue gives
its sentinel back to the ring `nodes`.

Nothing gives a thread's node back.  When the thread exits and its slot is reused,
`bt_block_node` is overwritten, so that each exit loses a node, and after
`BMK_MAX_BLOCKQ` of them the system halts with nothing left alive (`nodes_leak`).  As
long as no thread exits, every node has exactly one owner and the system halts only
when the live threads and queues have used up all nodes (`nodes_conserved`).
-/
import Librettos.Lib.Trans
import Librettos.Lib.Places
import Librettos.Core.BlockQueue
import Librettos.Core.LfringFifo

namespace Librettos.BlockNodes

open Function (update update_of_ne update_self)
open List Places Trans

/-- `BMK_MAX_BLOCKQ_ORDER`. -/
def maxBlockqOrder : ℕ := 17

/-- `BMK_MAX_BLOCKQ`. -/
def maxBlockq : ℕ := 2 ^ maxBlockqOrder

/-- A block queue: its sentinel, and its waiters with the nodes they have left. -/
structure Queue (T : Type) where
  sentinel : ℕ
  entries : BlockQueue (ℕ × T)

/-- The nodes a queue owns. -/
def Queue.nodes {T : Type} (q : Queue T) : List ℕ := q.sentinel :: q.entries.waiters.map Prod.fst

/-- Thread slots `T` and block queues `Q`.  `threads` and `queues` are those alive,
`zombies` the threads on `zombieq`; `blockedOn` says in which queue a thread waits. -/
structure State (T Q : Type) where
  nodes : List ℕ
  threads : List T
  zombies : List T
  queues : List Q
  blockNode : T → ℕ
  blockedOn : T → Option Q
  queue : Q → Queue T
  halted : Bool

inductive Act (T Q : Type)
  | create (t : T)
  | exit (t : T)
  | reap (t : T)
  /-- `bmk_block_queue_init` -/
  | init (q : Q)
  /-- `bmk_block_queue_destroy` -/
  | destroy (q : Q)
  | block (t : T) (q : Q)
  /-- `bmk_block_queue_wake` -/
  | wake (q : Q)
deriving DecidableEq, Repr

section
variable {T Q : Type} [DecidableEq T] [DecidableEq Q]
variable {s : State T Q}

/-- `do_block_node_alloc`, and what is done with the node. -/
def State.alloc (s : State T Q) (f : State T Q → ℕ → State T Q) : State T Q :=
  match s.nodes with
  | [] => { s with halted := true }
  | n :: rest => f { s with nodes := rest } n

/-- `do_sched_create_withtls`, with a slot from `freeq`. -/
def create (s : State T Q) (t : T) : State T Q :=
  s.alloc fun s n => { s with
    threads := t :: s.threads
    blockNode := update s.blockNode t n
    blockedOn := update s.blockedOn t none }

def blockQueueInit (s : State T Q) (q : Q) : State T Q :=
  s.alloc fun s n => { s with
    queues := q :: s.queues
    queue := update s.queue q ⟨n, .empty⟩ }

def blockQueueDestroy (s : State T Q) (q : Q) : State T Q :=
  { s with nodes := s.nodes ++ [(s.queue q).sentinel], queues := s.queues.erase q }

/-- A thread blocks: `block_queue_callback`. -/
def blockQueueBlock (s : State T Q) (t : T) (q : Q) : State T Q :=
  let r := (s.queue q).entries.block (s.blockNode t, t)
  let s := { s with queue := update s.queue q { s.queue q with entries := r.1 } }
  if r.2 then { s with blockedOn := update s.blockedOn t (some q) } else s

/-- `bmk_block_queue_wake`: `lfqueue_dequeue` returns the old sentinel, with the waiter as
its object, and the waiter's node takes its place. -/
def blockQueueWake (s : State T Q) (q : Q) : State T Q :=
  let r := (s.queue q).entries.wake
  match r.2 with
  | none => { s with queue := update s.queue q { s.queue q with entries := r.1 } }
  | some (n, u) => { s with
      queue := update s.queue q ⟨n, r.1⟩
      blockNode := update s.blockNode u (s.queue q).sentinel
      blockedOn := update s.blockedOn u none }

def step (s : State T Q) (a : Act T Q) : Option (State T Q) :=
  if s.halted then none else
  match a with
  | .create t => if t ∉ s.threads ∧ t ∉ s.zombies then some (create s t) else none
  | .exit t =>
    if t ∈ s.threads ∧ s.blockedOn t = none then
      some { s with threads := s.threads.erase t, zombies := s.zombies ++ [t] }
    else none
  | .reap t => if t ∈ s.zombies then some { s with zombies := s.zombies.erase t } else none
  | .init q => if q ∉ s.queues then some (blockQueueInit s q) else none
  | .destroy q =>
    if q ∈ s.queues ∧ (s.queue q).entries.waiters = [] then some (blockQueueDestroy s q) else none
  | .block t q =>
    if t ∈ s.threads ∧ s.blockedOn t = none ∧ q ∈ s.queues then some (blockQueueBlock s t q)
    else none
  | .wake q => if q ∈ s.queues then some (blockQueueWake s q) else none

/-- After `bmk_sched_init`. -/
structure Init (s : State T Q) : Prop where
  nodes : s.nodes = Lfring.fullQueue maxBlockqOrder
  threads : s.threads = []
  zombies : s.zombies = []
  queues : s.queues = []
  halted : s.halted = false

/-- No thread exits. -/
def noExit (_ : State T Q) : Act T Q → Prop
  | .exit _ => False
  | _ => True

/-! ## Owners -/

/-- Who can own a node. -/
inductive Owner (T Q : Type)
  | ring
  | thread (t : T)
  | queue (q : Q)

/-- The node `i` belongs to the owner: it is on the ring, it is the node of a live thread
that does not wait, or it is in a live queue. -/
def At (s : State T Q) (i : ℕ) : Owner T Q → Prop
  | .ring => i ∈ s.nodes
  | .thread t => t ∈ s.threads ∧ s.blockedOn t = none ∧ s.blockNode t = i
  | .queue q => q ∈ s.queues ∧ i ∈ (s.queue q).nodes

/-- Every node has one owner and is there once; the waiters of a queue are the threads
that are blocked on it; and the nodes off the ring are as many as the live threads and
queues. -/
structure Conserved (s : State T Q) : Prop where
  once : Once (· < maxBlockq) (At s)
  ring : s.nodes.Nodup
  queue : ∀ q ∈ s.queues, (s.queue q).nodes.Nodup
  waiter : ∀ q ∈ s.queues, ∀ t,
    t ∈ (s.queue q).entries.waiters.map Prod.snd ↔ t ∈ s.threads ∧ s.blockedOn t = some q
  live : ∀ t ∈ s.threads, ∀ q, s.blockedOn t = some q → q ∈ s.queues
  waiters : ∀ q ∈ s.queues, ((s.queue q).entries.waiters.map Prod.snd).Nodup
  threads : s.threads.Nodup
  queues : s.queues.Nodup
  count : s.nodes.length + s.threads.length + s.queues.length = maxBlockq
  halt : s.halted = true → s.nodes = []

section
omit [DecidableEq T] [DecidableEq Q]

theorem Conserved.apart {i : ℕ} {p q : Owner T Q} (hs : Conserved s)
    (hp : At s i p) (hne : p ≠ q) : ¬ At s i q := hs.once.apart hp hne

theorem conserved_init (h : Init s) : Conserved s := by
  have hperm : (Lfring.fullQueue maxBlockqOrder).Perm (range maxBlockq) :=
    Lfring.fullIdx_perm (by decide) (by decide)
  constructor
  case once =>
    refine ⟨fun _ => .ring, fun i p => ?_⟩
    cases p with
    | ring => simp [At, h.nodes, hperm.mem_iff]
    | thread t => simp [At, h.threads]
    | queue q => simp [At, h.queues]
  case ring =>
    rw [h.nodes]
    exact hperm.nodup_iff.mpr nodup_range
  case queue => simp [h.queues]
  case waiter => simp [h.queues]
  case live => simp [h.threads]
  case waiters => simp [h.queues]
  case threads => simp [h.threads]
  case queues => simp [h.queues]
  case count =>
    rw [h.nodes, h.threads, h.queues, hperm.length_eq, length_range]
    simp
  case halt => exact fun hh => absurd hh (by simp [h.halted])

end

section
variable (hs : Conserved s)
include hs

omit [DecidableEq T] [DecidableEq Q] in
/-- Without a node the system halts; otherwise the first one leaves the ring. -/
theorem Conserved.alloc {f : State T Q → ℕ → State T Q}
    (h : ∀ n rest, s.nodes = n :: rest → n ∉ rest → Conserved (f { s with nodes := rest } n)) :
    Conserved (s.alloc f) := by
  unfold State.alloc
  split
  next hn => exact { hs with halt := fun _ => hn }
  next n rest hn => exact h n rest hn (nodup_cons.mp (hn ▸ hs.ring)).1

omit [DecidableEq Q] in
theorem Conserved.create {t : T} (ht : t ∉ s.threads) : Conserved (create s t) := by
  refine hs.alloc fun n rest hn hnot => ?_
  have hcount := hs.count
  rw [hn, length_cons] at hcount
  refine { hs with
    once := ?once
    ring := (nodup_cons.mp (hn ▸ hs.ring)).2
    waiter := ?waiter
    live := ?live
    threads := nodup_cons.mpr ⟨ht, hs.threads⟩
    count := by simp only [length_cons]; omega
    halt := fun hh => absurd (hs.halt hh) (by simp [hn]) }
  case once =>
    refine hs.once.move (i := n) (p := .ring) (q := .thread t) (by simp [At, hn]) fun j r => ?_
    cases r with
    | ring =>
      have : j ∈ rest → j ≠ n := fun hj hjn => hnot (hjn ▸ hj)
      simp only [At, hn, mem_cons]
      tauto
    | thread u =>
      by_cases hu : u = t
      · subst hu
        simp [At, ht, eq_comm]
      · simp [At, hu]
    | queue q => simp [At]
  case waiter =>
    intro q hq u
    rw [hs.waiter q hq u]
    by_cases hu : u = t
    · subst hu
      simp [ht]
    · simp [hu]
  case live =>
    intro u hu p hp
    by_cases hut : u = t
    · simp [hut] at hp
    · exact hs.live u (by simpa [hut] using hu) p (by simpa [update_of_ne hut] using hp)

section
omit [DecidableEq T]

theorem Conserved.init {q : Q} (hq : q ∉ s.queues) : Conserved (blockQueueInit s q) := by
  refine hs.alloc fun n rest hn hnot => ?_
  have hcount := hs.count
  rw [hn, length_cons] at hcount
  -- the other queues are what they were
  have hne : ∀ p ∈ s.queues, p ≠ q := by
    rintro p hp rfl
    exact hq hp
  refine { hs with
    once := ?once
    ring := (nodup_cons.mp (hn ▸ hs.ring)).2
    queue := ?queue
    waiter := ?waiter
    live := fun t ht p hp => mem_cons_of_mem _ (hs.live t ht p hp)
    waiters := ?waiters
    queues := nodup_cons.mpr ⟨hq, hs.queues⟩
    count := by simp only [length_cons]; omega
    halt := fun hh => absurd (hs.halt hh) (by simp [hn]) }
  case once =>
    refine hs.once.move (i := n) (p := .ring) (q := .queue q) (by simp [At, hn]) fun j r => ?_
    cases r with
    | ring =>
      have : j ∈ rest → j ≠ n := fun hj hjn => hnot (hjn ▸ hj)
      simp only [At, hn, mem_cons]
      tauto
    | thread u => simp [At]
    | queue p =>
      by_cases hp : p = q
      · subst hp
        simp [At, hq, Queue.nodes, BlockQueue.empty]
      · simp [At, hp]
  case queue =>
    intro p hp
    rcases mem_cons.mp hp with rfl | hp
    · simp [Queue.nodes, BlockQueue.empty]
    · simpa [update_of_ne (hne p hp)] using hs.queue p hp
  case waiter =>
    intro p hp t
    rcases mem_cons.mp hp with rfl | hp
    · simp only [update_self, BlockQueue.empty, map_nil, not_mem_nil, false_iff]
      exact fun h => hq (hs.live t h.1 p h.2)
    · simpa only [update_of_ne (hne p hp)] using hs.waiter p hp t
  case waiters =>
    intro p hp
    rcases mem_cons.mp hp with rfl | hp
    · simp [BlockQueue.empty]
    · simpa only [update_of_ne (hne p hp)] using hs.waiters p hp

theorem Conserved.destroy (hh : s.halted = false) {q : Q}
    (hq : q ∈ s.queues) (hidle : (s.queue q).entries.waiters = []) :
    Conserved (blockQueueDestroy s q) := by
  have hat : At s (s.queue q).sentinel (.queue q) := ⟨hq, by simp [Queue.nodes]⟩
  have hnot : (s.queue q).sentinel ∉ s.nodes := hs.apart (q := .ring) hat (by simp)
  have hmem : ∀ p, p ∈ s.queues.erase q ↔ p ∈ s.queues ∧ p ≠ q := fun p => by
    rw [hs.queues.mem_erase_iff]
    tauto
  have hlen := length_erase_of_mem hq
  have hpos := length_pos_of_mem hq
  have hcount := hs.count
  refine { hs with
    once := ?once
    ring := by simpa [blockQueueDestroy] using hs.ring.concat hnot
    queue := fun p hp => hs.queue p ((hmem p).mp hp).1
    waiter := fun p hp => hs.waiter p ((hmem p).mp hp).1
    live := ?live
    waiters := fun p hp => hs.waiters p ((hmem p).mp hp).1
    queues := hs.queues.erase q
    count := ?count
    halt := fun h => absurd h (by simp [blockQueueDestroy, hh]) }
  case once =>
    refine hs.once.move (q := .ring) hat fun j r => ?_
    cases r with
    | ring =>
      simp only [At, blockQueueDestroy, mem_append, mem_singleton]
      tauto
    | thread u => simp [At, blockQueueDestroy]
    | queue p =>
      simp only [At, blockQueueDestroy, hmem, Owner.queue.injEq, reduceCtorEq, and_false, or_false]
      by_cases hp : p = q
      · subst hp
        simp [Queue.nodes, hidle]
      · simp [hp]
  case live =>
    refine fun t ht p hp => (hmem p).mpr ⟨hs.live t ht p hp, ?_⟩
    rintro rfl
    have := (hs.waiter p hq t).mpr ⟨ht, hp⟩
    simp [hidle] at this
  case count =>
    simp only [blockQueueDestroy, length_append, length_singleton]
    omega

theorem Conserved.setQueue {q : Q} (hq : q ∈ s.queues)
    {x : Queue T} {node : T → ℕ} {on : T → Option Q} (hnodes : x.nodes.Nodup)
    (hwaiter : ∀ t, t ∈ x.entries.waiters.map Prod.snd ↔ t ∈ s.threads ∧ on t = some q)
    (hwaiters : (x.entries.waiters.map Prod.snd).Nodup)
    (hon : ∀ t p, p ≠ q → (on t = some p ↔ s.blockedOn t = some p)) (honce : Once (· < maxBlockq)
      (At { s with queue := update s.queue q x, blockNode := node, blockedOn := on })) :
    Conserved { s with queue := update s.queue q x, blockNode := node, blockedOn := on } := by
  refine { hs with
    once := honce, queue := fun p hp => ?_, waiter := fun p hp t => ?_, live := fun t ht p hp => ?_,
    waiters := fun p hp => ?_ } <;> by_cases hpq : p = q
  · simpa [hpq] using hnodes
  · simpa [hpq] using hs.queue p hp
  · simpa [hpq] using hwaiter t
  · simpa [hpq, hon t p hpq] using hs.waiter p hp t
  · exact hpq ▸ hq
  · exact hs.live t ht p ((hon t p hpq).mp hp)
  · simpa [hpq] using hwaiters
  · simpa [hpq] using hs.waiters p hp

theorem Conserved.banked {q : Q} (hq : q ∈ s.queues)
    {e : BlockQueue (ℕ × T)} (he : e.waiters = (s.queue q).entries.waiters) :
    Conserved { s with queue := update s.queue q { s.queue q with entries := e } } := by
  have hnodes : Queue.nodes { s.queue q with entries := e } = (s.queue q).nodes := by
    simp [Queue.nodes, he]
  refine hs.setQueue hq (hnodes ▸ hs.queue q hq) (he ▸ hs.waiter q hq) (he ▸ hs.waiters q hq)
    (fun _ _ _ => .rfl) (hs.once.congr fun i p => ?_)
  cases p with
  | queue p =>
    by_cases hp : p = q
    · subst hp
      simp [At, hnodes]
    · simp [At, hp]
  | _ => simp [At]

end

/-- A thread blocks: its node goes to the queue, or a banked wake lets it go on. -/
theorem Conserved.block {t : T} {q : Q} (ht : t ∈ s.threads)
    (hrun : s.blockedOn t = none) (hq : q ∈ s.queues) : Conserved (blockQueueBlock s t q) := by
  rcases (s.queue q).entries.block_cases (s.blockNode t, t) with
    ⟨_, htrue, hw, _⟩ | ⟨_, hfalse, hw, hw', _⟩
  · have hat : At s (s.blockNode t) (.thread t) := ⟨ht, hrun, rfl⟩
    have hnot : s.blockNode t ∉ (s.queue q).nodes := fun h =>
      hs.apart (q := .queue q) hat (by simp) ⟨hq, h⟩
    have hnotw : t ∉ (s.queue q).entries.waiters.map Prod.snd := fun h =>
      absurd ((hs.waiter q hq t).mp h).2 (by simp [hrun])
    simp only [blockQueueBlock, htrue, if_true]
    generalize hr : ((s.queue q).entries.block (s.blockNode t, t)).1 = r at hw ⊢
    have hnodes : Queue.nodes { s.queue q with entries := r } = (s.queue q).nodes ++ [s.blockNode t] := by
      simp [Queue.nodes, hw]
    refine hs.setQueue hq ?_ (fun u => ?_) ?_ (fun u p hp => ?_) ?_
    · simpa [hnodes] using (hs.queue q hq).concat hnot
    · by_cases hu : u = t
      · subst hu
        simp [hw, ht]
      · simpa [hw, hu] using hs.waiter q hq u
    · simpa [hw] using (hs.waiters q hq).concat hnotw
    · by_cases hu : u = t
      · simp [hu, hrun, Ne.symm hp]
      · simp [hu]
    · refine hs.once.move (q := .queue q) hat fun j r' => ?_
      cases r' with
      | ring => simp [At]
      | thread u =>
        by_cases hu : u = t
        · subst hu
          simp [At, ht, hrun, eq_comm]
        · simp [At, hu]
      | queue p =>
        by_cases hp : p = q
        · subst hp
          simp [At, hnodes, hq]
        · simp [At, hp]
  · simp only [blockQueueBlock, hfalse, Bool.false_eq_true, if_false]
    exact hs.banked hq (hw'.trans hw.symm)

/-- A wake: the old sentinel goes to the waiter, whose node takes its place. -/
theorem Conserved.wake {q : Q} (hq : q ∈ s.queues) : Conserved (blockQueueWake s q) := by
  rcases (s.queue q).entries.wake_cases with ⟨hw, hnone, hw', _⟩ | ⟨⟨n, u⟩, rest, hw, hsome, hw', _, _⟩
  · simp only [blockQueueWake, hnone]
    exact hs.banked hq (hw'.trans hw.symm)
  · simp only [blockQueueWake, hsome]
    generalize (s.queue q).entries.wake.1 = r at hw' ⊢
    have hu : u ∈ s.threads ∧ s.blockedOn u = some q := (hs.waiter q hq u).mp (by simp [hw])
    have hnodes : (s.queue q).nodes = (s.queue q).sentinel :: Queue.nodes ⟨n, r⟩ := by
      simp [Queue.nodes, hw, hw']
    have hnodup := hs.queue q hq
    have hnodup' := hs.waiters q hq
    rw [hnodes, nodup_cons] at hnodup
    rw [hw, map_cons, nodup_cons] at hnodup'
    have hat : At s (s.queue q).sentinel (.queue q) := ⟨hq, by simp [hnodes]⟩
    refine hs.setQueue hq hnodup.2 (fun v => ?_) (by simpa [hw'] using hnodup'.2) (fun v p hp => ?_) ?_
    · by_cases hv : v = u
      · subst hv
        simpa [hw'] using hnodup'.1
      · simpa [hw, hw', hv] using hs.waiter q hq v
    · by_cases hv : v = u
      · simp [hv, hu.2, Ne.symm hp]
      · simp [hv]
    · refine hs.once.move (q := .thread u) hat fun j r' => ?_
      cases r' with
      | ring => simp [At]
      | thread v =>
        by_cases hv : v = u
        · subst hv
          simp [At, hu, eq_comm]
        · simp [At, hv]
      | queue p =>
        by_cases hp : p = q
        · subst hp
          have : j ∈ Queue.nodes ⟨n, r⟩ → j ≠ (s.queue p).sentinel := fun hj hjs => hnodup.1 (hjs ▸ hj)
          simp only [At, update_self, hnodes, mem_cons]
          tauto
        · simp [At, hp]

theorem Conserved.step {s' : State T Q} {a : Act T Q} (hok : noExit s a)
    (h : step s a = some s') : Conserved s' := by
  simp only [BlockNodes.step] at h
  split at h
  next => cases h
  next hh =>
    cases a with
    | create t =>
      obtain ⟨hc, ⟨⟩⟩ := Option.ite_none_right_eq_some.mp h
      exact hs.create hc.1
    | exit t => exact hok.elim
    | reap t =>
      obtain ⟨_, ⟨⟩⟩ := Option.ite_none_right_eq_some.mp h
      exact { hs with }
    | init q =>
      obtain ⟨hc, ⟨⟩⟩ := Option.ite_none_right_eq_some.mp h
      exact hs.init hc
    | destroy q =>
      obtain ⟨hc, ⟨⟩⟩ := Option.ite_none_right_eq_some.mp h
      exact hs.destroy (by simpa using hh) hc.1 hc.2
    | block t q =>
      obtain ⟨hc, ⟨⟩⟩ := Option.ite_none_right_eq_some.mp h
      exact hs.block hc.1 hc.2.1 hc.2.2
    | wake q =>
      obtain ⟨hc, ⟨⟩⟩ := Option.ite_none_right_eq_some.mp h
      exact hs.wake hc

end

/-- **Block nodes are conserved** in every run in which no thread exits: each of the
`BMK_MAX_BLOCKQ` nodes has exactly one owner, and is there once; and the system halts for
want of a node only when live threads and live queues together are as many as nodes. -/
theorem nodes_conserved {s : State T Q} (hs : Reach step noExit Init s) :
    (∀ i < maxBlockq, ∃! o, At s i o) ∧ s.nodes.Nodup ∧ (∀ q ∈ s.queues, (s.queue q).nodes.Nodup) ∧
    (s.halted = true → s.threads.length + s.queues.length = maxBlockq) := by
  have hinv : Conserved s := Reach.inv (fun _ h => conserved_init h)
    (fun _ _ _ h hok hstep => h.step hok hstep) hs
  refine ⟨fun i hi => hinv.once.existsUnique hi, hinv.ring, hinv.queue, fun hh => ?_⟩
  have hcount := hinv.count
  rw [hinv.halt hh, length_nil] at hcount
  omega

end

/-- The first state, with one thread slot and one queue. -/
def boot (nodes : List ℕ) : State Unit Unit where
  nodes := nodes
  threads := []
  zombies := []
  queues := []
  blockNode := fun _ => 0
  blockedOn := fun _ => none
  queue := fun _ => ⟨0, .empty⟩
  halted := false

theorem boot_init {l : List ℕ} (hl : l = Lfring.fullQueue maxBlockqOrder) : Init (boot l) :=
  ⟨hl, rfl, rfl, rfl, rfl⟩

theorem length_fullQueue : (Lfring.fullQueue maxBlockqOrder).length = maxBlockq := by
  rw [Lfring.fullQueue, length_map, length_range, maxBlockq]

/-- A thread blocks in a queue. -/
theorem nodes_conserved_block : ∃ s : State Unit Unit, Reach step noExit Init s ∧
    s.blockedOn () = some () ∧ ∀ i < maxBlockq, ∃! o, At s i o := by
  obtain ⟨l, hl⟩ : ∃ l, l = Lfring.fullQueue maxBlockqOrder := ⟨_, rfl⟩
  have hlen : l.length = maxBlockq := hl ▸ length_fullQueue
  have hi := boot_init hl
  match l, hlen with
  | [], h | [_], h => cases h
  | m :: n :: rest, _ =>
      obtain ⟨s, hs, hp⟩ := run_finds step noExit Init (fun s => s.blockedOn () = some ())
        [.create (), .init (), .block () ()] hi
        (okRun_of_forall _ _ fun a ha t => by
          simp at ha
          rcases ha with rfl | rfl | rfl <;> trivial)
        rfl
      exact ⟨s, hs, hp, (nodes_conserved hs).1⟩

/-- A thread is created, exits and is reaped: its node is gone. -/
theorem leak_one {s : State Unit Unit} {n : ℕ} {rest : List ℕ} (hn : s.nodes = n :: rest)
    (ht : s.threads = []) (hz : s.zombies = []) (hh : s.halted = false) :
    ∃ s', exec step s [.create (), .exit (), .reap ()] = some s' ∧ s'.nodes = rest ∧
      s'.threads = [] ∧ s'.zombies = [] ∧ s'.queues = s.queues ∧ s'.halted = false := by
  simp [exec, step, hh, ht, hz, create, State.alloc, hn]

/-- As often as there are nodes; the induction is on the ring. -/
theorem leak_all : ∀ (l : List ℕ) {s : State Unit Unit}, Reach step any Init s →
    s.nodes = l → s.threads = [] → s.zombies = [] → s.halted = false →
    ∃ s' : State Unit Unit, Reach step any Init s' ∧ s'.nodes = [] ∧ s'.threads = [] ∧
      s'.zombies = [] ∧ s'.queues = s.queues ∧ s'.halted = false
  | [], s, hs, hn, ht, hz, hh => ⟨s, hs, hn, ht, hz, rfl, hh⟩
  | n :: rest, s, hs, hn, ht, hz, hh => by
    obtain ⟨t, hrun, h1, h2, h3, h4, h5⟩ := leak_one hn ht hz hh
    obtain ⟨s', hs', g1, g2, g3, g4, g5⟩ :=
      leak_all rest (hs.exec _ (okRun_any _ _) hrun) h1 h2 h3 h5
    exact ⟨s', hs', g1, g2, g3, g4.trans h4, g5⟩

/-- **Block nodes leak.**  Once the one thread there was has exited and been reaped, its
node has no owner; and after enough such threads the next creation halts the system,
although no thread and no queue is alive. -/
theorem nodes_leak :
    (∃ s : State Unit Unit, Reach step Trans.any Init s ∧
      ∃ i < maxBlockq, ∀ o, ¬ At s i o) ∧
    ∃ s : State Unit Unit, Reach step Trans.any Init s ∧ s.halted = true ∧
      s.threads = [] ∧ s.queues = [] := by
  obtain ⟨l, hl⟩ : ∃ l, l = Lfring.fullQueue maxBlockqOrder := ⟨_, rfl⟩
  have hperm : l.Perm (range maxBlockq) := hl ▸ Lfring.fullIdx_perm (by decide) (by decide)
  have hi : Reach step any Init (boot l) := .start (boot_init hl)
  constructor
  · match l, hperm with
    | [], h => exact absurd h.length_eq (by simp [maxBlockq, maxBlockqOrder])
    | n :: rest, h =>
        obtain ⟨s, hrun, h1, h2, _, h4, _⟩ := leak_one (s := boot (n :: rest)) rfl rfl rfl rfl
        refine ⟨s, hi.exec _ (okRun_any _ _) hrun, n,
          mem_range.mp (h.mem_iff.mp (by simp)), fun o => ?_⟩
        have hnodup := h.nodup_iff.mpr nodup_range
        cases o with
        | ring => simpa [At, h1] using (nodup_cons.mp hnodup).1
        | thread t => simp [At, h2]
        | queue q => simp [At, h4, boot]
  · obtain ⟨s, hs, h1, h2, h3, h4, h5⟩ := leak_all l hi rfl rfl rfl rfl
    refine ⟨{ s with halted := true }, .next hs trivial (a := .create ()) ?_, rfl, h2, h4⟩
    simp [step, h5, h2, h3, create, State.alloc, h1]

end Librettos.BlockNodes
