/-
# `Core.Join` — joining and reaping threads

A joinable thread has two words of the kind of `Lib.Rendezvous`.  On `bt_join` the
joiner waits for the thread to exit, on `bt_exit` the exiting thread waits for the
joiner to have finished with its structure.  An exiting thread then switches away
for good; the callback that runs on the next thread's stack puts it on `zombieq`, and
the reaper, in any later call of `schedule`, frees its stack and puts its index on
`freeq`, from where it is created anew.

The model has processors `P` and thread slots `T`.  A processor executes on the stack
of `cur`, `none` standing for its idle thread; after a switch it first runs the
callback `cb` of the thread it has left, still on the new thread's stack.  The code is
cooperative: a thread gives up its processor only in `schedule`, by blocking,
yielding or exiting.  Which thread is taken from the run queues is left open, and so
is when the reaper runs.  A thread is joined at most once.

That the protocol does what it is for is in `Core.JoinSafe`.
-/
import Librettos.Lib.Trans
import Librettos.Lib.Places
import Librettos.Lib.Rendezvous

namespace Librettos.Join

open Function (update)
open Places Rendezvous

/-! ## The program -/

/-- Where a thread is.  How far it is inside `join_wait` and `join_post` is recorded in
the rendezvous. -/
inductive Pc (T : Type)
  | run
  /-- in `join_wait(&u->bt_join)` of `bmk_sched_join` -/
  | join (u : T)
  /-- in `join_post(&u->bt_exit)` of `bmk_sched_join` -/
  | post (u : T)
  /-- in `join_post(&thread->bt_join)` of `bmk_sched_exit_withtls` -/
  | exit
  /-- in `join_wait(&thread->bt_exit)` of `bmk_sched_exit_withtls` -/
  | wait
  /-- at `schedule(&exit_data)` -/
  | bye
  | dead
deriving DecidableEq, Repr

/-- The callback of a thread that has been switched out. -/
inductive Cb (T : Type)
  | yield (t : T)
  /-- `join_callback` for `bt_join` of `u` -/
  | join (t u : T)
  /-- `join_callback` for its own `bt_exit` -/
  | wait (t : T)
  | exit (t : T)
deriving DecidableEq, Repr

def Cb.thread {T : Type} : Cb T → T
  | .yield t | .join t _ | .wait t | .exit t => t

/-- The reaper's hands: a thread whose stack is to be freed, or is to be put on
`freeq`. -/
inductive Hand (T : Type)
  | free (t : T)
  | put (t : T)
deriving DecidableEq, Repr

def Hand.thread {T : Type} : Hand T → T
  | .free t | .put t => t

/-- `joinable` is `THR_MUSTJOIN`, `extStack` is `THR_EXTSTACK`.  The last three are
ghosts: whether the stack is with the page allocator, who joins the thread, and whether
that join has returned. -/
structure State (P T : Type) where
  freeq : List T
  zombieq : List T
  runq : List T
  cur : P → Option T
  cb : P → Option (Cb T)
  hand : P → Option (Hand T)
  pc : T → Pc T
  join : T → Meet T
  exit : T → Meet T
  joinable : T → Bool
  extStack : T → Bool
  freed : T → Bool
  joiner : T → Option T
  returned : T → Bool

/-- What processor `p` does next. -/
inductive Act (P T : Type)
  /-- `bmk_sched_create` -/
  | create (p : P) (t : T) (joinable extStack : Bool)
  /-- `bmk_sched_join` -/
  | join (p : P) (u : T)
  /-- `bmk_sched_exit_withtls` -/
  | exit (p : P)
  /-- the next step of the thread, inside a join or an exit -/
  | go (p : P)
  /-- the thread yields, blocks or dies, and `next` is taken from the run queue -/
  | yield (p : P) (next : Option T)
  | block (p : P) (next : Option T)
  /-- the idle thread finds `t` on the run queue -/
  | dispatch (p : P) (t : T)
  | callback (p : P)
  /-- the reaper -/
  | reap (p : P)
deriving DecidableEq, Repr

section
variable {P T : Type} [DecidableEq P] [DecidableEq T]

/-- A processor that is neither in a callback nor in the reaper. -/
def State.ready (s : State P T) (p : P) : Prop := s.cb p = none ∧ s.hand p = none

instance (s : State P T) (p : P) : Decidable (s.ready p) := inferInstanceAs (Decidable (_ ∧ _))

/-- `sched_switch` to `next`, or to the idle thread; the callback is still to run. -/
def State.switch (s : State P T) (p : P) (next : Option T) (c : Cb T) : Option (State P T) :=
  match next with
  | none => some { s with cur := update s.cur p none, cb := update s.cb p (some c) }
  | some t =>
    if t ∈ s.runq then
      some { s with
        runq := s.runq.erase t
        cur := update s.cur p (some t)
        cb := update s.cb p (some c) }
    else none

def State.setJoin (s : State P T) (u : T) (m : Meet T) : State P T :=
  { s with join := update s.join u m }

def State.setExit (s : State P T) (u : T) (m : Meet T) : State P T :=
  { s with exit := update s.exit u m }

def State.setPc (s : State P T) (t : T) (c : Pc T) : State P T :=
  { s with pc := update s.pc t c }

/-- `bmk_sched_wake`. -/
def State.wake (s : State P T) (t : T) : State P T := { s with runq := s.runq ++ [t] }

/-- `bmk_sched_join` returns. -/
def State.ret (s : State P T) (t u : T) : State P T :=
  { s.setPc t .run with returned := update s.returned u true }

/-- The next step of the thread `t` inside a join or an exit. -/
def go (s : State P T) (t : T) : Option (State P T) :=
  match s.pc t with
  | .join u =>
    match (s.join u).waiter with
    | .before =>
      let m := (s.join u).wait
      some ((s.setJoin u m).setPc t (if m.waiter = .through then .post u else .join u))
    | .woken => some ((s.setJoin u (s.join u).resume).setPc t (.post u))
    | _ => none
  | .post u =>
    match (s.exit u).poster with
    | .before =>
      let m := (s.exit u).post
      if m.poster = .done then some ((s.setExit u m).ret t u) else some (s.setExit u m)
    | .waking w => some (((s.setExit u (s.exit u).wake).wake w).ret t u)
    | .done => none
  | .exit =>
    match (s.join t).poster with
    | .before =>
      let m := (s.join t).post
      some ((s.setJoin t m).setPc t (if m.poster = .done then .wait else .exit))
    | .waking w => some (((s.setJoin t (s.join t).wake).wake w).setPc t .wait)
    | .done => none
  | .wait =>
    match (s.exit t).waiter with
    | .before =>
      let m := (s.exit t).wait
      some ((s.setExit t m).setPc t (if m.waiter = .through then .bye else .wait))
    | .woken => some ((s.setExit t (s.exit t).resume).setPc t .bye)
    | _ => none
  | .run | .bye | .dead => none

/-- The thread `t` gives up its processor in `join_wait` or for good. -/
def block (s : State P T) (p : P) (t : T) (next : Option T) : Option (State P T) :=
  match s.pc t with
  | .join u =>
    if (s.join u).waiter = .slow then
      (s.setJoin u (s.join u).leave).switch p next (.join t u)
    else none
  | .wait =>
    if (s.exit t).waiter = .slow then (s.setExit t (s.exit t).leave).switch p next (.wait t)
    else none
  | .bye => (s.setPc t .dead).switch p next (.exit t)
  | .run | .post _ | .exit | .dead => none

/-- The callback on processor `p` is done. -/
def State.finish (s : State P T) (p : P) : State P T := { s with cb := update s.cb p none }

/-- The next step of the callback `c` on processor `p`. -/
def callback (s : State P T) (p : P) : Cb T → Option (State P T)
  | .yield t => some ((s.wake t).finish p)
  | .join t u =>
    match (s.join u).waiter with
    | .leaving =>
      let m := (s.join u).settle t
      if m.waiter = .due then some (s.setJoin u m) else some ((s.setJoin u m).finish p)
    | .due => some (((s.setJoin u (s.join u).requeue).wake t).finish p)
    | _ => none
  | .wait t =>
    match (s.exit t).waiter with
    | .leaving =>
      let m := (s.exit t).settle t
      if m.waiter = .due then some (s.setExit t m) else some ((s.setExit t m).finish p)
    | .due => some (((s.setExit t (s.exit t).requeue).wake t).finish p)
    | _ => none
  | .exit t => some ({ s with zombieq := s.zombieq ++ [t] }.finish p)

/-- Processor `p` is at the end of `schedule`: its thread has just been switched to. -/
def State.resumed (s : State P T) (p : P) : Bool :=
  match s.cur p with
  | none => true
  | some t =>
    match s.pc t with
    | .run => true
    | .join u => (s.join u).waiter = .woken
    | .wait => (s.exit t).waiter = .woken
    | .post _ | .exit | .bye | .dead => false

/-- The next step of the reaper on processor `p`. -/
def reap (s : State P T) (p : P) : Option (State P T) :=
  match s.hand p with
  | none =>
    match s.zombieq with
    | [] => none
    | t :: rest =>
      some { s with zombieq := rest, hand := update s.hand p (some (.free t)) }
  | some (.free t) =>
    some { s with
      freed := if s.extStack t then s.freed else update s.freed t true
      hand := update s.hand p (some (.put t)) }
  | some (.put t) =>
    some { s with freeq := s.freeq ++ [t], hand := update s.hand p none }

/-- `do_sched_create_withtls` in the slot `t`. -/
def create (s : State P T) (t : T) (joinable extStack : Bool) : State P T :=
  { s with
    freeq := s.freeq.erase t
    runq := s.runq ++ [t]
    pc := update s.pc t .run
    join := update s.join t .init
    exit := update s.exit t .init
    joinable := update s.joinable t joinable
    extStack := update s.extStack t extStack
    freed := update s.freed t false
    joiner := update s.joiner t none
    returned := update s.returned t false }

/-- The running thread of `p` is in its own code. -/
def State.runs (s : State P T) (p : P) (t : T) : Prop := s.ready p ∧ s.cur p = some t ∧ s.pc t = .run

instance (s : State P T) (p : P) (t : T) : Decidable (s.runs p t) :=
  inferInstanceAs (Decidable (_ ∧ _))

def step (s : State P T) : Act P T → Option (State P T)
  | .create p t joinable extStack =>
    if s.ready p ∧ t ∈ s.freeq then some (create s t joinable extStack) else none
  | .join p u =>
    match s.cur p with
    | none => none
    | some t =>
      if s.runs p t ∧ s.joinable u = true ∧ s.joiner u = none then
        some { s.setPc t (.join u) with joiner := update s.joiner u (some t) }
      else none
  | .exit p =>
    match s.cur p with
    | none => none
    | some t =>
      if s.runs p t then some (s.setPc t (if s.joinable t then .exit else .bye)) else none
  | .go p =>
    match s.cur p with
    | none => none
    | some t => if s.ready p then go s t else none
  | .yield p next =>
    match s.cur p with
    | none => none
    | some t => if s.runs p t then s.switch p next (.yield t) else none
  | .block p next =>
    match s.cur p with
    | none => none
    | some t => if s.ready p then block s p t next else none
  | .dispatch p t =>
    if s.ready p ∧ s.cur p = none ∧ t ∈ s.runq then
      some { s with runq := s.runq.erase t, cur := update s.cur p (some t) }
    else none
  | .callback p =>
    match s.cb p with
    | none => none
    | some c => callback s p c
  | .reap p => if s.cb p = none ∧ s.resumed p then reap s p else none

/-- The threads of the first program: not joinable, in their own code, on a processor or
a run queue; the other slots are free. -/
structure Init (s : State P T) : Prop where
  once : Once (fun _ : T => True) fun t (x : Option (Option P)) => match x with
    | none => t ∈ s.freeq
    | some none => t ∈ s.runq
    | some (some p) => s.cur p = some t
  freeq : s.freeq.Nodup
  runq : s.runq.Nodup
  zombieq : s.zombieq = []
  cb : ∀ p, s.cb p = none
  hand : ∀ p, s.hand p = none
  pc : ∀ t, s.pc t = .run
  joinable : ∀ t, s.joinable t = false
  freed : ∀ t, s.freed t = true → t ∈ s.freeq
  returned : ∀ t, s.returned t = false

end

end Librettos.Join
