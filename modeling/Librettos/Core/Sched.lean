/-
# `Core.Sched` — the scheduler with mutexes and condition variables

Processors `P`, thread slots `T`, kernel mutexes `M` and condition variables `C`, each of
these used with one mutex.  A thread slot is on `freeq`, on a run queue, on a processor,
on the block queue of a mutex, on a timer queue, asleep on a condition variable, or on
`zombieq`; the program moves it about in the functions modelled here: `schedule` with its
timeouts, callbacks and reaper, `bmk_sched_create`, `bmk_sched_yield`, `bmk_sched_block`,
`bmk_sched_wake`, `bmk_sched_wake_timeq`, `bmk_block_queue_wake` and the exit of a thread
(`sched.c`), and the mutexes and condition variables of `rumpuser_synch.c`.

Every atomic operation and every section under `timeq_lock` is one step.  A processor
executes its thread, or is in `schedule` on behalf of that thread, or in the callback of
the thread it has left, or in the reaper; the code is cooperative.  The queues are indexed
by `Option P`, where `none` is the queue `MAXCPUS` that all processors share.  The idle
thread of a processor, which is on no queue ever, is `none` in `cur`.  Block queues are
taken at their specification (`Core.BlockQueue`).

`token` is a ghost.  It says who has a mutex: nobody, a thread or the callback of a
thread that waits on a condition variable; or that the mutex has been given back and its
wake is owed, or banked, or has released a thread that has not run yet.
-/
import Librettos.Lib.Trans
import Librettos.Core.BlockQueue
import Librettos.Core.Timeq

namespace Librettos.Sched

open Function (update)
open Timeq

/-! ## States -/

/-- What a thread does once it has a mutex. -/
inductive After (C : Type)
  | user
  /-- the end of `rumpuser_cv_wait` or `rumpuser_cv_timedwait` -/
  | cv (c : C) (timed : Bool)
deriving DecidableEq, Repr

/-- Where a thread is. -/
inductive Pc (T M C : Type)
  /-- created, and has never run -/
  | start
  | run
  | yield
  /-- `rumpuser_mutex_enter` and `cv_mutex_enter`: at the fetch-add; at `bmk_sched_block`;
  from there until it runs again -/
  | enter (m : M) (k : After C)
  | slow (m : M) (k : After C)
  | blocked (m : M) (k : After C)
  /-- `rumpuser_mutex_enter_nowrap`: at the load; at the compare-exchange -/
  | load (m : M) (k : After C)
  | cas (m : M) (k : After C)
  /-- `rumpuser_mutex_exit`: at the fetch-sub; at `bmk_block_queue_wake` -/
  | exit (m : M)
  | exitWake (m : M)
  /-- `rumpuser_cv_wait` and `rumpuser_cv_timedwait`: at `TAILQ_INSERT_TAIL`; at
  `bmk_sched_block`; in `schedule`; switched out, with the callback still to come -/
  | insert (c : C) (timed : Bool) (deadline : Int)
  | sleep (c : C) (timed : Bool) (deadline : Int)
  | leave (c : C) (timed : Bool)
  | left (c : C) (timed : Bool)
  /-- asleep; woken, until it runs again; with the mutex again -/
  | asleep (c : C) (timed : Bool)
  | awake (c : C) (timed : Bool)
  | relocked (c : C) (timed : Bool)
  /-- `rumpuser_cv_signal`, or with `all` `rumpuser_cv_broadcast`: at `TAILQ_FIRST`; at
  `w->wake(thread)` -/
  | signal (c : C) (all : Bool)
  | wake (c : C) (u : T) (timed all : Bool)
  /-- `bmk_sched_exit_withtls` has called `schedule` -/
  | dead
deriving DecidableEq, Repr

/-- The block data with which a thread calls `schedule`. -/
inductive Data (M C : Type)
  | yield
  | mutex (m : M)
  | cv (c : C) (timed : Bool)
  | exit
deriving DecidableEq, Repr

/-- A callback, or what is still to do of it. -/
inductive Cb (T M C : Type)
  /-- `yield_callback` -/
  | yield (t : T)
  /-- `block_queue_callback` -/
  | queue (t : T) (m : M)
  /-- `cv_callback_timeout`, at `bmk_insert_timeq` -/
  | timeq (t : T) (c : C)
  /-- `cv_callback`, at the fetch-sub of `rumpuser_mutex_exit` -/
  | exit (t : T) (c : C)
  /-- `cv_callback_timeout`, at the fetch-sub -/
  | exitTimed (m : M)
  /-- either of them at `bmk_block_queue_wake` -/
  | exitWake (m : M)
  /-- `exit_callback` -/
  | zombie (t : T)
deriving DecidableEq, Repr

/-- What a processor executes.  In `schedule` the block data is `none` for the idle
thread, which has no callback. -/
inductive Mode (T M C : Type)
  | user
  /-- at the dequeue from its own run queue -/
  | pick (d : Option (Data M C))
  /-- at the dequeue from the shared run queue -/
  | pickAll (d : Option (Data M C))
  | clock (d : Option (Data M C))
  /-- about to take `timeq_lock` -/
  | expire (d : Option (Data M C)) (curtime : Int)
  | callback (c : Cb T M C)
  | reap
deriving DecidableEq, Repr

/-- A thread that a processor has taken from one queue and is about to put on another: on
its run queue, or on `freeq`. -/
inductive Hand (T : Type)
  | run (t : T)
  | free (t : T)
deriving DecidableEq, Repr

inductive Agent (P T : Type)
  | thread (t : T)
  | callback (p : P)
deriving DecidableEq, Repr

inductive Token (P T : Type)
  | free
  | held (a : Agent P T)
  /-- given back, and `a` is about to wake somebody -/
  | owes (a : Agent P T)
  | banked
  /-- handed to `t` -/
  | ready (t : T)
deriving DecidableEq, Repr

/-- `wakeup`, `timedout` and `cpuidx` are the fields of a thread, `wthread` says whether
`w.thread` of its waiter is not `NULL`, `result` is what `bmk_sched_block` has returned in
`rumpuser_cv_timedwait`. -/
structure State (P T M C : Type) where
  freeq : List T
  zombieq : List T
  runq : Option P → List T
  timeq : Option P → List T
  cur : P → Option T
  mode : P → Mode T M C
  hand : P → Option (Hand T)
  pc : T → Pc T M C
  cpuidx : T → Option P
  wakeup : T → Int
  timedout : T → Bool
  result : T → Bool
  wthread : T → Bool
  counter : M → ℕ
  queue : M → BlockQueue T
  waiters : C → List (T × Bool)
  token : M → Token P T

section
variable {P T M C : Type} [DecidableEq P] [DecidableEq T] [DecidableEq M] [DecidableEq C]

def State.setPc (s : State P T M C) (t : T) (c : Pc T M C) : State P T M C :=
  { s with pc := update s.pc t c }

def State.setMode (s : State P T M C) (p : P) (d : Mode T M C) : State P T M C :=
  { s with mode := update s.mode p d }

def State.setToken (s : State P T M C) (m : M) (k : Token P T) : State P T M C :=
  { s with token := update s.token m k }

/-! ## Waking -/

/-- Where a thread is that has been put on its run queue. -/
def Pc.woken : Pc T M C → Pc T M C
  | .asleep c timed => .awake c timed
  | c => c

/-- `bmk_sched_wake`: `lfring_enqueue` on the run queue of the thread. -/
def State.enqueue (s : State P T M C) (t : T) : State P T M C :=
  { s with runq := update s.runq (s.cpuidx t) (s.runq (s.cpuidx t) ++ [t]) }

/-- The section of `bmk_sched_wake_timeq`: `TAILQ_REMOVE`, unless `bt_timedout` is set.  The
wake is still to come. -/
def State.wakeTimeq (s : State P T M C) (p : P) (u : T) : State P T M C :=
  if s.timedout u then s
  else { s.setPc u (s.pc u).woken with
    timeq := update s.timeq (s.cpuidx u) (removeTimeq u (s.timeq (s.cpuidx u)))
    hand := update s.hand p (some (.run u)) }

/-- The fetch-sub of `rumpuser_mutex_exit`. -/
def State.sub (s : State P T M C) (m : M) (a : Agent P T) : State P T M C :=
  { s.setToken m (if s.counter m = 1 then .free else .owes a) with
    counter := update s.counter m (s.counter m - 1) }

/-- `bmk_block_queue_wake`, up to the run queue. -/
def State.wakeQueue (s : State P T M C) (p : P) (m : M) : State P T M C :=
  let s₁ := { s with queue := update s.queue m (s.queue m).wake.1 }
  match (s.queue m).wake.2 with
  | none => s₁.setToken m .banked
  | some u => { s₁.setToken m (.ready u) with hand := update s.hand p (some (.run u)) }

/-! ## `schedule` -/

/-- The callback of the block data of `t`. -/
def Data.callback (t : T) : Data M C → Cb T M C
  | .yield => .yield t
  | .mutex m => .queue t m
  | .cv c timed => if timed then .timeq t c else .exit t c
  | .exit => .zombie t

/-- A thread that waits on a condition variable leaves the mutex to its callback. -/
def State.leave (s : State P T M C) (mtx : C → M) (p : P) (t : T) : Data M C → State P T M C
  | .cv c timed => (s.setPc t (.left c timed)).setToken (mtx c) (.held (.callback p))
  | .yield | .mutex _ | .exit => s

/-- `sched_switch` to `next`, or to the idle thread. -/
def State.switch (s : State P T M C) (mtx : C → M) (p : P) (next : Option T)
    (d : Option (Data M C)) : State P T M C :=
  match s.cur p, d with
  | some t, some d =>
    if next = some t then s.setMode p .reap
    else { (s.leave mtx p t d).setMode p (.callback (d.callback t)) with
      cur := update s.cur p next }
  | _, _ => { s.setMode p .reap with cur := update s.cur p next }

/-- A dequeue from the run queue `x`; `miss` is what comes next if it is empty. -/
def State.dequeue (s : State P T M C) (mtx : C → M) (p : P) (x : Option P)
    (d : Option (Data M C)) (miss : Mode T M C) : State P T M C :=
  match s.runq x with
  | [] => s.setMode p miss
  | t :: rest => { s with runq := update s.runq x rest }.switch mtx p (some t) d

/-- A thread of the timer queue `x` times out. -/
def State.expireOne (x : Option P) (s : State P T M C) (t : T) : State P T M C :=
  { s.setPc t (s.pc t).woken with
    timedout := update s.timedout t true
    timeq := update s.timeq x (removeTimeq t (s.timeq x)) }.enqueue t

/-- The loop over one timer queue. -/
def State.expireQueue (s : State P T M C) (x : Option P) (curtime : Int) : State P T M C :=
  ((s.timeq x).takeWhile fun t => s.wakeup t ≤ curtime).foldl (State.expireOne x) s

/-! ## Callbacks -/

/-- The next step of a callback on processor `p`. -/
def callback (mtx : C → M) (s : State P T M C) (p : P) : Cb T M C → State P T M C
  | .yield t => (s.enqueue t).setMode p .reap
  | .queue t m =>
    let s₁ := { s with queue := update s.queue m ((s.queue m).block t).1 }.setMode p .reap
    if ((s.queue m).block t).2 then s₁
    else { s₁.setToken m (.ready t) with hand := update s.hand p (some (.run t)) }
  | .timeq t c =>
    { (s.setPc t (.asleep c true)).setMode p (.callback (.exitTimed (mtx c))) with
      timeq := update s.timeq (s.cpuidx t)
        (insertTimeq s.wakeup t (s.timeq (s.cpuidx t))) }
  | .exit t c =>
    ((s.setPc t (.asleep c false)).sub (mtx c) (.callback p)).setMode p
      (if s.counter (mtx c) = 1 then .reap else .callback (.exitWake (mtx c)))
  | .exitTimed m =>
    (s.sub m (.callback p)).setMode p
      (if s.counter m = 1 then .reap else .callback (.exitWake m))
  | .exitWake m => (s.wakeQueue p m).setMode p .reap
  | .zombie t => { s with zombieq := s.zombieq ++ [t] }.setMode p .reap

/-! ## Threads -/

/-- Where a thread is that has acquired a mutex. -/
def After.got : After C → Pc T M C
  | .user => .run
  | .cv c timed => .relocked c timed

/-- A thread acquires the mutex `m`. -/
def State.acquire (s : State P T M C) (t : T) (m : M) (k : After C) : State P T M C :=
  (s.setPc t k.got).setToken m (.held (.thread t))

/-- The signaller goes on. -/
def State.next (s : State P T M C) (t : T) (c : C) (all : Bool) : State P T M C :=
  s.setPc t (if all then .signal c true else .run)

/-- `rumpuser_mutex_enter`, or `cv_mutex_enter`. -/
def enterPc (spin : M → Bool) (m : M) (k : After C) : Pc T M C :=
  if spin m then .load m k else .enter m k

/-- The next step of the thread `t`, which executes on `p`; `fail` is a spurious failure of
the weak compare-exchange. -/
def thread (mtx : C → M) (spin : M → Bool) (s : State P T M C) (p : P) (t : T) (fail : Bool) :
    Option (State P T M C) :=
  match s.pc t with
  | .start | .yield => some (s.setPc t .run)
  | .enter m k =>
    if s.counter m = 0 then
      some { s.acquire t m k with counter := update s.counter m 1 }
    else some { s.setPc t (.slow m k) with
      counter := update s.counter m (s.counter m + 1) }
  | .slow m k =>
    some { (s.setPc t (.blocked m k)).setMode p (.pick (some (.mutex m))) with
      wakeup := update s.wakeup t infTime
      timedout := update s.timedout t false }
  | .blocked m k => some (s.acquire t m k)
  | .load m k => some (s.setPc t (if s.counter m = 0 then .cas m k else .load m k))
  | .cas m k =>
    if s.counter m = 0 ∧ fail = false then
      some { s.acquire t m k with counter := update s.counter m 1 }
    else some (s.setPc t (.load m k))
  | .exit m =>
    some ((s.sub m (.thread t)).setPc t (if s.counter m = 1 then .run else .exitWake m))
  | .exitWake m => some ((s.wakeQueue p m).setPc t .run)
  | .insert c timed deadline =>
    some { s.setPc t (.sleep c timed deadline) with
      waiters := update s.waiters c (s.waiters c ++ [(t, timed)])
      wthread := update s.wthread t true }
  | .sleep c timed deadline =>
    some { (s.setPc t (.leave c timed)).setMode p (.pick (some (.cv c timed))) with
      wakeup := update s.wakeup t (if timed then deadline else infTime)
      timedout := update s.timedout t false }
  | .leave c timed | .left c timed | .asleep c timed | .awake c timed =>
    some { s.setPc t (enterPc spin (mtx c) (.cv c timed)) with
      result := update s.result t (s.timedout t) }
  | .relocked c timed =>
    some { s.setPc t .run with
      waiters := if timed && s.wthread t then
        update s.waiters c ((s.waiters c).erase (t, timed)) else s.waiters }
  | .signal c all =>
    match s.waiters c with
    | [] => some (s.setPc t .run)
    | (u, timed) :: rest =>
      some { s.setPc t (.wake c u timed all) with
        waiters := update s.waiters c rest
        wthread := update s.wthread u false }
  | .wake c u timed all =>
    if timed then some ((s.wakeTimeq p u).next t c all)
    else some (((s.setPc u (s.pc u).woken).enqueue u).next t c all)
  | .run | .dead => none

/-! ## Processors -/

/-- What the label of a step says: which processor it is, and what its thread calls from
its own code, or else that the processor goes on. -/
inductive Act (P T M C : Type)
  /-- `bmk_sched_create`, for the run queue `x` -/
  | create (p : P) (x : Option P)
  | yield (p : P)
  | exit (p : P)
  /-- `rumpuser_mutex_enter`, or with `nowrap` `rumpuser_mutex_enter_nowrap` -/
  | enter (p : P) (m : M) (nowrap : Bool)
  | leave (p : P) (m : M)
  | wait (p : P) (c : C) (timed : Bool) (deadline : Int)
  | signal (p : P) (c : C) (all : Bool)
  /-- the next step; `now` is what the clock says -/
  | go (p : P) (now : Int) (fail : Bool)
deriving DecidableEq, Repr

/-- Processor `p` has switched to a thread that has never run. -/
def State.virgin (s : State P T M C) (p : P) : Bool :=
  match s.cur p with
  | none => false
  | some t => s.pc t = .start

/-- The next step of processor `p`. -/
def go (mtx : C → M) (spin : M → Bool) (s : State P T M C) (p : P) (now : Int) (fail : Bool) :
    Option (State P T M C) :=
  match s.hand p with
  | some (.run t) => some ({ s with hand := update s.hand p none }.enqueue t)
  | some (.free t) =>
    some { s with hand := update s.hand p none, freeq := s.freeq ++ [t] }
  | none =>
    match s.mode p with
    | .user =>
      match s.cur p with
      | none => some (s.setMode p (.pick none))
      | some t => thread mtx spin s p t fail
    | .pick d => some (s.dequeue mtx p (some p) d (.pickAll d))
    | .pickAll d => some (s.dequeue mtx p none d (.clock d))
    | .clock d => some (s.setMode p (.expire d now))
    | .expire d curtime =>
      let s₁ := (s.expireQueue (some p) curtime).expireQueue none curtime
      match s.cur p with
      | none => some (s₁.setMode p (.pick d))
      | some _ => some (s₁.switch mtx p none d)
    | .callback c => some (callback mtx s p c)
    | .reap =>
      -- a thread that has never run does not come from `schedule`
      if s.virgin p then some (s.setMode p .user)
      else match s.zombieq with
        | [] => some (s.setMode p .user)
        | t :: rest =>
          some { s with
            zombieq := rest
            hand := update s.hand p (some (.free t)) }

/-- The thread of `p` that is in its own code. -/
def State.runs (s : State P T M C) (p : P) : Option T :=
  match s.cur p with
  | none => none
  | some t => if s.hand p = none ∧ s.mode p = .user ∧ s.pc t = .run then some t else none

/-- `do_sched_create_withtls` in the slot `u`. -/
def State.create (s : State P T M C) (p : P) (u : T) (x : Option P) : State P T M C :=
  { s.setPc u .start with
    cpuidx := update s.cpuidx u x
    wakeup := update s.wakeup u infTime
    timedout := update s.timedout u false
    hand := update s.hand p (some (.run u)) }

def step (mtx : C → M) (spin : M → Bool) (s : State P T M C) :
    Act P T M C → Option (State P T M C)
  | .create p x =>
    match s.runs p, s.freeq with
    | some _, u :: rest => some ({ s with freeq := rest }.create p u x)
    | _, _ => none
  | .yield p => (s.runs p).map fun t => (s.setPc t .yield).setMode p (.pick (some .yield))
  | .exit p => (s.runs p).map fun t => (s.setPc t .dead).setMode p (.pick (some .exit))
  | .enter p m nowrap => (s.runs p).map fun t =>
    s.setPc t (if nowrap then .load m .user else enterPc spin m .user)
  | .leave p m =>
    match s.runs p with
    | none => none
    | some t => if s.token m = .held (.thread t) then some (s.setPc t (.exit m)) else none
  | .wait p c timed deadline =>
    match s.runs p with
    | none => none
    | some t =>
      if s.token (mtx c) = .held (.thread t) then some (s.setPc t (.insert c timed deadline))
      else none
  | .signal p c all =>
    match s.runs p with
    | none => none
    | some t =>
      if s.token (mtx c) = .held (.thread t) then some (s.setPc t (.signal c all)) else none
  | .go p now fail => go mtx spin s p now fail

end

end Librettos.Sched
