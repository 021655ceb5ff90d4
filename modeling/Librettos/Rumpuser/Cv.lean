/-
# `Rumpuser.Cv` — signals and timeouts of a condition variable

A `rumpuser_cv` is a list of waiters, each with its thread and the function that wakes
it, and everybody who touches the list holds the mutex.  A waiter gives up its processor
with the mutex held; the callback that runs on the next thread's stack puts a timed
waiter on the timer queue and then leaves the mutex.  `rumpuser_cv_signal` takes the
first waiter off the list, clears its `thread` field and wakes it.

A timeout takes the thread off the timer queue and puts it on its run queue, but not off
the list of waiters: that the thread does itself, when it has the mutex again.  Until then
a signal can take the waiter that has already timed out, and `bmk_sched_wake_timeq`, which
sees `bt_timedout`, then wakes nobody.

The model is one condition variable with its mutex and any set of threads.  The mutex is
taken at its specification (`Rumpuser.Mutex`): it is acquired when it is free, or else the
thread waits and is handed the mutex by an exit.  When a timeout expires is left open.

`Core.Sched` reads the same functions with the queues of the scheduler and says where a thread is.
Here the question is what becomes of a wait call, whose number is a ghost that `Core.Sched` does not
have, and the scheduler is left open: whoever is not blocked may go on.  These are two readings of
the code, and no result of one is used for the other.
-/
import Librettos.Lib.Trans

namespace Librettos.Cv

open Function (update)

/-! ## The program -/

/-- Who holds the mutex: a thread, or the callback of a thread that waits. -/
inductive Agent (T : Type)
  | thread (t : T)
  | callback (t : T)
deriving DecidableEq, Repr

/-- Where a thread is.  `timed` tells `rumpuser_cv_timedwait` from `rumpuser_cv_wait`,
`all` tells `rumpuser_cv_broadcast` from `rumpuser_cv_signal`. -/
inductive Pc (T : Type)
  | out
  /-- `rumpuser_mutex_enter`; it was locked; blocked on it -/
  | enter
  | enterSlow
  | enterQueued
  /-- the mutex is held -/
  | held
  /-- at `TAILQ_INSERT_TAIL` -/
  | insert (timed : Bool)
  /-- at `bmk_sched_block` -/
  | block (timed : Bool)
  /-- switched out, the callback is still to run -/
  | leaving (timed : Bool)
  | asleep (timed : Bool)
  /-- on its run queue again -/
  | ready (timed : Bool)
  /-- `cv_sched_enter` -/
  | relock (timed : Bool)
  | relockSlow (timed : Bool)
  | relockQueued (timed : Bool)
  /-- the mutex is held again -/
  | relocked (timed : Bool)
  | signal (all : Bool)
  /-- at `w->wake(thread)` -/
  | wake (u : T) (timed all : Bool)
  /-- at `bmk_sched_wake` in `bmk_sched_wake_timeq` -/
  | put (u : T) (all : Bool)
deriving DecidableEq, Repr

/-- `timedout` is `bt_timedout`, `result` what `bmk_sched_block` has returned, `wthread`
whether `w.thread` is not `NULL`.  The last five are ghosts: the number of the wait call a
thread is in, the number of wait calls so far, the calls whose waiters were taken by a
signal, in the order of the signals, and the calls that have returned 0 and
`BMK_ETIMEDOUT`. -/
structure State (T : Type) where
  holder : Option (Agent T)
  queue : List T
  waiters : List (T × Bool)
  timeq : List T
  timedout : T → Bool
  result : T → Bool
  wthread : T → Bool
  pc : T → Pc T
  call : T → ℕ
  calls : ℕ
  took : List ℕ
  zero : List ℕ
  late : List ℕ

inductive Act (T : Type)
  | enter (t : T)
  | exit (t : T)
  | wait (t : T) (timed : Bool)
  | signal (t : T) (all : Bool)
  | go (t : T)
  | callback (t : T)
  /-- the timeout expires, in somebody's `schedule` -/
  | expire (t : T)
deriving DecidableEq, Repr

section
variable {T : Type} [DecidableEq T]

def State.setPc (s : State T) (t : T) (c : Pc T) : State T :=
  { s with pc := update s.pc t c }

/-- The mutex is free and is acquired. -/
def State.acquire (s : State T) (t : T) (c : Pc T) : State T :=
  { s.setPc t c with holder := some (.thread t) }

/-- Where a thread is that has been handed the mutex. -/
def Pc.handed : Pc T → Pc T
  | .enterQueued => .held
  | .relockQueued timed => .relocked timed
  | c => c

/-- `rumpuser_mutex_exit`. -/
def State.release (s : State T) : State T :=
  match s.queue with
  | [] => { s with holder := none }
  | t :: ts => { s.setPc t (s.pc t).handed with holder := some (.thread t), queue := ts }

/-- Where a thread is that has been put on its run queue. -/
def Pc.woken : Pc T → Pc T
  | .asleep timed => .ready timed
  | c => c

/-- `bmk_sched_wake`. -/
def State.wake (s : State T) (u : T) : State T := s.setPc u (s.pc u).woken

/-- The signaller goes on. -/
def State.next (s : State T) (t : T) (all : Bool) : State T :=
  s.setPc t (if all then .signal true else .held)

/-- An attempt at the mutex: `got` is where the thread goes on with it, `slow` where it is
about to block.  A spin mutex is tried again. -/
def State.attempt (s : State T) (spin : Bool) (t : T) (got slow : Pc T) : State T :=
  if s.holder = none then s.acquire t got else if spin then s else s.setPc t slow

/-- `bmk_sched_block` on the mutex, which is `got` if it has been given back meanwhile. -/
def State.blockOn (s : State T) (t : T) (got wait : Pc T) : State T :=
  let s := { s with timedout := update s.timedout t false }
  if s.holder = none then s.acquire t got else { s.setPc t wait with queue := s.queue ++ [t] }

/-- The next step of the thread `t`. -/
def go (spin : Bool) (s : State T) (t : T) : Option (State T) :=
  match s.pc t with
  | .enter => some (s.attempt spin t .held .enterSlow)
  | .enterSlow => some (s.blockOn t .held .enterQueued)
  | .insert timed =>
    some { s.setPc t (.block timed) with
      waiters := s.waiters ++ [(t, timed)]
      wthread := update s.wthread t true
      call := update s.call t s.calls
      calls := s.calls + 1 }
  | .block timed =>
    some { s.setPc t (.leaving timed) with
      timedout := update s.timedout t false
      holder := some (.callback t) }
  | .ready timed =>
    some { s.setPc t (.relock timed) with
      result := update s.result t (s.timedout t) }
  | .relock timed => some (s.attempt spin t (.relocked timed) (.relockSlow timed))
  | .relockSlow timed => some (s.blockOn t (.relocked timed) (.relockQueued timed))
  | .relocked timed =>
    some { s.setPc t .held with
      waiters := if timed && s.wthread t then s.waiters.erase (t, timed) else s.waiters
      zero := if timed && s.result t then s.zero else s.zero ++ [s.call t]
      late := if timed && s.result t then s.late ++ [s.call t] else s.late }
  | .signal all =>
    match s.waiters with
    | [] => some (s.setPc t .held)
    | (u, timed) :: rest =>
      some { s.setPc t (.wake u timed all) with
        waiters := rest
        wthread := update s.wthread u false
        took := s.took ++ [s.call u] }
  | .wake u timed all =>
    if timed then
      -- `bmk_sched_wake_timeq`
      if s.timedout u then some (s.next t all)
      else some { s.setPc t (.put u all) with timeq := s.timeq.erase u }
    else some ((s.wake u).next t all)
  | .put u all => some ((s.wake u).next t all)
  | .out | .enterQueued | .held | .leaving _ | .asleep _ | .relockQueued _ => none

/-- The next step of the callback of `t`: `cv_callback` or `cv_callback_timeout`. -/
def callback (s : State T) (t : T) : State T :=
  match s.pc t with
  | .leaving true => { s.setPc t (.asleep true) with timeq := s.timeq ++ [t] }
  | .leaving false => (s.setPc t (.asleep false)).release
  | _ => s.release

def step (spin : Bool) (s : State T) : Act T → Option (State T)
  | .enter t => if s.pc t = .out then some (s.setPc t .enter) else none
  | .exit t => if s.pc t = .held then some ((s.setPc t .out).release) else none
  | .wait t timed => if s.pc t = .held then some (s.setPc t (.insert timed)) else none
  | .signal t all => if s.pc t = .held then some (s.setPc t (.signal all)) else none
  | .go t => go spin s t
  | .callback t => if s.holder = some (.callback t) then some (callback s t) else none
  | .expire t =>
    if t ∈ s.timeq then
      some ({ s with
        timeq := s.timeq.erase t
        timedout := update s.timedout t true }.wake t)
    else none

structure Init (s : State T) : Prop where
  holder : s.holder = none
  queue : s.queue = []
  waiters : s.waiters = []
  timeq : s.timeq = []
  pc : ∀ t, s.pc t = .out
  took : s.took = []
  zero : s.zero = []
  late : s.late = []

end

end Librettos.Cv
