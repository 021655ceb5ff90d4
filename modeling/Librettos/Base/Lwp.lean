/-
# `Base.Lwp` — parking and unparking of `_lwp.c`

An LWP parks by exchanging `rl_value` to `PARK` and blocking; the callback that
runs on the next thread's stack puts it on the timeout queue if the park has a
deadline, and then publishes that it is scheduled out by flipping the `PARK`
bit, which leaves 0.  Whoever unparks it exchanges `rl_value` to `UNPARK`, and
wakes the thread only if it found that 0.

A timed park has a second waker: the timeout pass of `schedule` sets
`bt_timedout`, takes the thread off the queue and calls `_lwp_wake_timeq`, which
decides by the same exchange.  The first kind of waker goes through
`bmk_sched_wake_timeq`, which decides by `bt_timedout` under `timeq_lock`.  So
there are two deciders, and each stands back when it believes the other one
acts.

Here every exchange, compare-exchange and fetch-xor is one step, and so is every
section under `timeq_lock`, except the timeout pass, which holds the lock over
many steps.  The wakers are contexts of their own: any code on any CPU that
unparks, wakes up or runs a timeout pass, plus the LWPs themselves where
`_lwp_park` unparks another one first or its callback has to wake the thread it
has just scheduled out.  LWPs are created with `cpuidx` -1, so they share one
run queue and one timeout queue.

**Proved here.**

    an expiry that does not find 0 loses the thread                  (`lwp_park_timeout_lost`)
    if every expiry finds 0, every wakeup is delivered exactly once   (`lwp_wakeup_delivered`)
-/
import Librettos.Lib.Trans
import Librettos.Lib.Count
import Librettos.Core.Timeq

namespace Librettos.Lwp

open Function (update update_of_ne update_self)
open Count List Option Timeq Trans

/-! ## The program -/

/-- `RL_MASK_UNPARK`. -/
def maskUnpark : Nat := 1

/-- `RL_MASK_PARK`. -/
def maskPark : Nat := 2

/-- What `rl_wake` points to. -/
inductive WakeFn where
  | null | wake | wakeTimeq
  deriving DecidableEq, Repr

/-- What `_lwp_park` ends with: 0, or -1 and this in `errno`. -/
inductive Rv where
  | ok | already | timedout
  deriving DecidableEq, Repr

/-- The fields of `rumprun_lwp` and of its thread that parking uses.  The last
two are ghosts about the park call the LWP is in: whether an unpark, a wakeup or
an expiry has hit it since it went past its exchange, and how often the thread
has been put on a run queue since. -/
structure Rl where
  value : Nat
  wake : WakeFn
  wakeupTime : Int
  timedout : Bool
  rv : Rv
  hit : Bool
  woken : Nat
  deriving DecidableEq, Repr

/-- Where an LWP stands.  From `callback` to `cbWake` it is scheduled out and
the code that runs is `_lwp_park_callback` on another stack. -/
inductive Pc where
  | run
  | unparking (ts : Option Int)
  | exchange (ts : Option Int)
  | prepare (ts : Option Int)
  | block
  | switch
  | callback
  | cbXor
  | cbWake
  | parked
  | blockRet
  | store (timedout : Bool)
  deriving DecidableEq, Repr

/-- What a waker is about to do. -/
inductive Code (L : Type*) where
  /-- the exchange of `_lwp_unpark` -/
  | unpark (l : L)
  /-- the compare-exchange of `_lwp_wakeup` -/
  | wakeup (l : L)
  /-- the call through `rl_wake` -/
  | callWake (l : L)
  /-- the locked section of `bmk_sched_wake_timeq` -/
  | wakeTimeq (l : L)
  /-- `bmk_sched_wake` -/
  | wake (l : L)
  /-- the timeout pass of `schedule`, before the lock -/
  | pass (now : Int)
  /-- the pass, at the head of its loop -/
  | passLoop (now : Int)
  /-- the exchange of `_lwp_wake_timeq`, called by the pass -/
  | passExchange (now : Int) (l : L)
  /-- `bmk_sched_wake`, called by `_lwp_wake_timeq` -/
  | passWake (now : Int) (l : L)
  deriving DecidableEq, Repr

/-- LWPs `L` and other contexts `W`; each context may be inside waking code. -/
structure State (L W : Type*) where
  rl : L → Rl
  pc : L → Pc
  code : L ⊕ W → Option (Code L)
  runq : List L
  timeq : List L
  lock : Option (L ⊕ W)

/-- A step: LWP `l` calls `_lwp_park`, or moves on in it; context `w` starts to
unpark, to wake up or to run a timeout pass; a context moves on in its waking
code; some CPU takes the next thread off the run queue. -/
inductive Act (L W : Type*) where
  | park (l : L) (ts : Option Int) (unpark : Option L)
  | go (l : L)
  | unpark (w : W) (l : L)
  | wakeup (w : W) (l : L)
  | pass (w : W) (now : Int)
  | work (c : L ⊕ W)
  | dispatch

section
variable {L W : Type*} [DecidableEq L] [DecidableEq W]

/-- LWP `l` moves on to `p` with its fields set to `r`. -/
def State.put (s : State L W) (l : L) (r : Rl) (p : Pc) : State L W :=
  { s with rl := update s.rl l r, pc := update s.pc l p }

/-- The fields of `l` change, its place does not. -/
def State.setRl (s : State L W) (l : L) (r : Rl) : State L W :=
  { s with rl := update s.rl l r }

/-- Context `c` goes on with `k`. -/
def State.setCode (s : State L W) (c : L ⊕ W) (k : Code L) : State L W :=
  { s with code := update s.code c (some k) }

/-- The waking code was called from `_lwp_park` or from its callback. -/
def resume : Pc → Pc
  | .unparking ts => .exchange ts
  | .cbWake => .parked
  | p => p

/-- Context `c` is done; an LWP returns to where it called from. -/
def State.finish (s : State L W) (c : L ⊕ W) : State L W :=
  { s with
    code := update s.code c none
    pc := match c with
      | .inl l => update s.pc l (resume (s.pc l))
      | .inr _ => s.pc }

/-- The next step of LWP `l` in `_lwp_park` or of its callback. -/
def go (s : State L W) (l : L) : Option (State L W) :=
  let r := s.rl l
  match s.pc l with
  | .exchange ts =>
    if r.value = maskUnpark then some (s.put l { r with value := maskPark, rv := .already } .run)
    else some (s.put l { r with value := maskPark, hit := false, woken := 0 } (.prepare ts))
  | .prepare (some nsecs) =>
    some (s.put l { r with wakeupTime := nsecs, wake := .wakeTimeq } .block)
  | .prepare none =>
    some (s.put l { r with wakeupTime := infTime, wake := .wake } .block)
  | .block => some (s.put l { r with timedout := false } .switch)
  | .switch => some (s.put l r .callback)
  | .callback =>
    if r.wake = .wakeTimeq then
      -- the assertion of `bmk_insert_timeq` halts the system
      if s.lock = none ∧ r.wakeupTime ≠ infTime then
        some { s.put l r .cbXor with
          timeq := insertTimeq (fun m => (s.rl m).wakeupTime) l s.timeq }
      else none
    else some (s.put l r .cbXor)
  | .cbXor =>
    if r.value = maskPark then some (s.put l { r with value := r.value ^^^ maskPark } .parked)
    else some ((s.put l { r with value := r.value ^^^ maskPark } .cbWake).setCode (.inl l)
      (.callWake l))
  | .blockRet => some (s.put l r (.store r.timedout))
  | .store timedout =>
    some (s.put l { r with value := maskPark, rv := if timedout then .timedout else .ok } .run)
  | .run | .unparking _ | .cbWake | .parked => none

/-- `lfring_enqueue` of `l` on its run queue. -/
def State.enqueue (s : State L W) (l : L) : State L W :=
  { s.setRl l { s.rl l with woken := (s.rl l).woken + 1 } with runq := s.runq ++ [l] }

/-- The exchange of `rl_value` with `UNPARK`. -/
def State.claim (s : State L W) (l : L) : State L W :=
  s.setRl l { s.rl l with value := maskUnpark, hit := true }

/-- The next step of context `c` in its waking code. -/
def work (s : State L W) (c : L ⊕ W) : Option (State L W) :=
  match s.code c with
  | none => none
  | some (.unpark l) =>
    if (s.rl l).value = 0 then some ((s.claim l).setCode c (.callWake l))
    else some ((s.claim l).finish c)
  | some (.wakeup l) =>
    if (s.rl l).value = 0 then some ((s.claim l).setCode c (.callWake l))
    else some (s.finish c)
  | some (.callWake l) =>
    match (s.rl l).wake with
    | .null => none
    | .wake => some (s.setCode c (.wake l))
    | .wakeTimeq => some (s.setCode c (.wakeTimeq l))
  | some (.wakeTimeq l) =>
    if s.lock = none then
      if (s.rl l).timedout then some (s.finish c)
      else some ({ s with timeq := removeTimeq l s.timeq }.setCode c (.wake l))
    else none
  | some (.wake l) => some ((s.enqueue l).finish c)
  | some (.pass now) =>
    if s.lock = none then some ({ s with lock := some c }.setCode c (.passLoop now)) else none
  | some (.passLoop now) =>
    match s.timeq with
    | [] => some ({ s with lock := none }.finish c)
    | l :: q =>
      if (s.rl l).wakeupTime ≤ now then
        some ({ s.setRl l { s.rl l with timedout := true, hit := true } with timeq := q }.setCode c
          (.passExchange now l))
      else some ({ s with lock := none }.finish c)
  | some (.passExchange now l) =>
    if (s.rl l).value = 0 then some ((s.claim l).setCode c (.passWake now l))
    else some ((s.claim l).setCode c (.passLoop now))
  | some (.passWake now l) => some ((s.enqueue l).setCode c (.passLoop now))

/-- Context `w` starts on `k` if it is not inside waking code already. -/
def State.begin (s : State L W) (w : W) (k : Code L) : Option (State L W) :=
  if s.code (.inr w) = none then some (s.setCode (.inr w) k) else none

/-- One step of the system. -/
def step (s : State L W) : Act L W → Option (State L W)
  | .park l ts unpark =>
    if s.pc l = .run then
      match unpark with
      | none => some (s.put l (s.rl l) (.exchange ts))
      | some m => some ((s.put l (s.rl l) (.unparking ts)).setCode (.inl l) (.unpark m))
    else none
  | .go l => go s l
  | .unpark w l => s.begin w (.unpark l)
  | .wakeup w l => s.begin w (.wakeup l)
  | .pass w now => s.begin w (.pass now)
  | .work c => work s c
  | .dispatch =>
    match s.runq with
    | [] => none
    | l :: q => some { s.put l (s.rl l) .blockRet with runq := q }

/-- Every LWP runs; `rl_value` is `PARK` and the rest is as `calloc` leaves it. -/
def Init (s : State L W) : Prop :=
  (∀ l, s.pc l = .run ∧ (s.rl l).value = maskPark ∧ (s.rl l).woken = 0) ∧
  (∀ c, s.code c = none) ∧ s.runq = [] ∧ s.timeq = [] ∧ s.lock = none

/-- A timeout pass that makes its exchange finds the thread parked. -/
def findsParked (rl : L → Rl) : Option (Code L) → Bool
  | some (.passExchange _ l) => (rl l).value == 0
  | _ => true

/-- The condition on a step of the system. -/
def expiryFindsParked (s : State L W) : Act L W → Prop
  | .work c => findsParked s.rl (s.code c) = true
  | _ => True

instance (s : State L W) (a : Act L W) : Decidable (expiryFindsParked s a) :=
  match a with
  | .work c => inferInstanceAs (Decidable (findsParked s.rl (s.code c) = true))
  | .park .. | .go _ | .unpark .. | .wakeup .. | .pass .. | .dispatch => isTrue trivial

/-! ## Who is about to wake whom

For one LWP the wakers matter in three ways: those that have claimed it and will
call `rl_wake` or are in `bmk_sched_wake_timeq`, those that are about to put it
on the run queue, and a timeout pass that has taken it off the timeout queue and
not made its exchange yet. -/

/-- Has claimed `l`, and decides next by `bt_timedout`. -/
def claims (l : L) : Option (Code L) → Nat
  | some (.callWake m) | some (.wakeTimeq m) => if m = l then 1 else 0
  | _ => 0

/-- Will put `l` on the run queue with its next step. -/
def wakes (l : L) : Option (Code L) → Nat
  | some (.wake m) | some (.passWake _ m) => if m = l then 1 else 0
  | _ => 0

/-- Has expired `l`, and decides next by `rl_value`. -/
def expires (l : L) : Option (Code L) → Nat
  | some (.passExchange _ m) => if m = l then 1 else 0
  | _ => 0

/-- Inside the timeout pass. -/
def inPass : Option (Code L) → Prop
  | some (.passLoop _) | some (.passExchange _ _) | some (.passWake _ _) => True
  | _ => False

/-- How often an LWP is on each queue, and how many contexts are about to wake it. -/
@[ext]
structure Num where
  timeq : Nat
  runq : Nat
  claims : Nat
  wakes : Nat
  expires : Nat

/-- Scheduled out with nothing decided: on the timeout queue if the park has a
deadline, or taken off it by a pass that has still to decide. -/
def Waits (r : Rl) (n : Num) : Prop :=
  (r.wake = .wake ∧ n.timeq = 0 ∧ n.expires = 0) ∨
  (r.wake = .wakeTimeq ∧ n.timeq = 1 ∧ n.expires = 0 ∧ r.timedout = false) ∨
  (r.wake = .wakeTimeq ∧ n.timeq = 0 ∧ n.expires = 1)

/-- On no queue and in nobody's hands. -/
def Away (n : Num) : Prop :=
  n.timeq = 0 ∧ n.runq = 0 ∧ n.claims = 0 ∧ n.wakes = 0 ∧ n.expires = 0

/-- Hit by a waker, which is on its way: it has claimed the thread, or is about
to enqueue it, or has done so. -/
def Delivered (r : Rl) (n : Num) : Prop :=
  (n.claims = 1 ∧ n.wakes = 0 ∧ n.runq = 0 ∧ r.woken = 0 ∧ Waits r n) ∨
  (n.claims = 0 ∧ n.wakes = 1 ∧ n.runq = 0 ∧ r.woken = 0 ∧ n.timeq = 0 ∧ n.expires = 0) ∨
  (n.claims = 0 ∧ n.wakes = 0 ∧ n.runq = 1 ∧ r.woken = 1 ∧ n.timeq = 0 ∧ n.expires = 0)

/-- What holds of an LWP at each point of `_lwp_park`. -/
def Good (r : Rl) (n : Num) : Pc → Prop
  | .run | .unparking _ | .exchange _ =>
    Away n ∧ (r.value = 1 ∨ r.value = 2) ∧ r.woken ≤ 1
  | .prepare _ =>
    Away n ∧ r.woken = 0 ∧ (r.value = 1 ∧ r.hit = true ∨ r.value = 2 ∧ r.hit = false)
  | .block =>
    Away n ∧ r.woken = 0 ∧ (r.value = 1 ∧ r.hit = true ∨ r.value = 2 ∧ r.hit = false) ∧
      r.wake ≠ .null
  | .switch | .callback =>
    Away n ∧ r.woken = 0 ∧ (r.value = 1 ∧ r.hit = true ∨ r.value = 2 ∧ r.hit = false) ∧
      r.wake ≠ .null ∧ r.timedout = false
  | .cbXor =>
    Waits r n ∧ n.runq = 0 ∧ n.claims = 0 ∧ n.wakes = 0 ∧ r.woken = 0 ∧
      (r.value = 1 ∧ r.hit = true ∨ r.value = 2 ∧ (r.hit = true → n.expires = 1))
  | .cbWake => (r.value = 1 ∨ r.value = 3) ∧ r.hit = true ∧ Delivered r n ∧ n.runq = 0
  | .parked =>
    (r.value = 0 ∧ Waits r n ∧ n.runq = 0 ∧ n.claims = 0 ∧ n.wakes = 0 ∧ r.woken = 0 ∧
      (r.hit = true → n.expires = 1)) ∨
    ((r.value = 1 ∨ r.value = 3) ∧ r.hit = true ∧ Delivered r n)
  | .blockRet | .store _ =>
    Away n ∧ (r.value = 1 ∨ r.value = 3) ∧ r.hit = true ∧ r.woken = 1

/-- The waking code an LWP itself may be in. -/
def Own (l : L) : Pc → Option (Code L) → Prop
  | .unparking _, k => ∃ m, k = some (.unpark m) ∨ k = some (.callWake m) ∨
      k = some (.wakeTimeq m) ∨ k = some (.wake m)
  | .cbWake, k => k = some (.callWake l) ∨ k = some (.wakeTimeq l) ∨ k = some (.wake l)
  | _, k => k = none

/-! ### Reading the table

What a value, a claim or a place in a queue says about where the LWP is. -/

section Table
variable {r : Rl} {n : Num} {p : Pc}

section
variable (h : Good r n p)
include h

/-- The three situations of the table: nobody has the LWP, it waits with nothing
decided, or a waker that has hit it is on its way. -/
theorem good_cases : (Away n ∧ r.value ≠ 0 ∧ r.woken ≤ 1) ∨
    ((p = .cbXor ∧ r.value ≠ 0 ∨ p = .parked) ∧ Waits r n ∧ n.runq = 0 ∧ n.claims = 0 ∧
      n.wakes = 0 ∧ r.woken = 0) ∨
    ((p = .cbWake ∧ n.runq = 0 ∨ p = .parked) ∧ (r.value = 1 ∨ r.value = 3) ∧ r.hit = true ∧
      Delivered r n) := by
  cases p with
  | run | unparking _ | exchange _ => exact .inl ⟨h.1, by have := h.2.1; omega, h.2.2⟩
  | prepare _ | block | switch | callback =>
    obtain ⟨ha, hw, hv⟩ := h
    exact .inl ⟨ha, by omega, by omega⟩
  | cbXor =>
    obtain ⟨hw, h1, h2, h3, h4, hv⟩ := h
    exact .inr (.inl ⟨.inl ⟨rfl, by omega⟩, hw, h1, h2, h3, h4⟩)
  | cbWake => exact .inr (.inr ⟨.inl ⟨rfl, h.2.2.2⟩, h.1, h.2.1, h.2.2.1⟩)
  | parked =>
    rcases h with ⟨-, hw, h1, h2, h3, h4, -⟩ | h
    · exact .inr (.inl ⟨.inr rfl, hw, h1, h2, h3, h4⟩)
    · exact .inr (.inr ⟨.inr rfl, h⟩)
  | blockRet | store _ => exact .inl ⟨h.1, by have := h.2.1; omega, h.2.2.2.le⟩

/-- 0 in `rl_value` is what the callback left there. -/
theorem good_zero (hv : r.value = 0) :
    p = .parked ∧ Waits r n ∧ n.runq = 0 ∧ n.claims = 0 ∧ n.wakes = 0 ∧ r.woken = 0 := by
  rcases good_cases h with ⟨-, h, -⟩ | ⟨⟨-, h⟩ | hp, h⟩ | ⟨-, h, -⟩
  · exact absurd hv h
  · exact absurd hv h
  · exact ⟨hp, h⟩
  · omega

/-- An LWP that is on a queue or in somebody's hands is scheduled out. -/
theorem good_out (hn : ¬ Away n) : p = .cbXor ∨ p = .cbWake ∨ p = .parked := by
  cases p with
  | cbXor | cbWake | parked => simp
  | _ => exact absurd h.1 hn

/-- A waker that has claimed the LWP is the only one. -/
theorem good_claims (hc : 0 < n.claims) :
    (p = .cbWake ∨ p = .parked) ∧ (r.value = 1 ∨ r.value = 3) ∧ r.hit = true ∧ n.claims = 1 ∧
      n.wakes = 0 ∧ n.runq = 0 ∧ r.woken = 0 ∧ Waits r n := by
  rcases good_cases h with ⟨ha, -⟩ | h | ⟨hp, hv, hh, hd | hd | hd⟩
  · have := ha.2.2.1
    omega
  · omega
  · exact ⟨hp.imp_left And.left, hv, hh, hd⟩
  · omega
  · omega

/-- So is one that is about to enqueue it, and no queue has it yet. -/
theorem good_wakes (hc : 0 < n.wakes) :
    (p = .cbWake ∨ p = .parked) ∧ (r.value = 1 ∨ r.value = 3) ∧ r.hit = true ∧ n.claims = 0 ∧
      n.wakes = 1 ∧ n.runq = 0 ∧ r.woken = 0 ∧ n.timeq = 0 ∧ n.expires = 0 := by
  rcases good_cases h with ⟨ha, -⟩ | h | ⟨hp, hv, hh, hd | hd | hd⟩
  · have := ha.2.2.2.1
    omega
  · omega
  · omega
  · exact ⟨hp.imp_left And.left, hv, hh, hd⟩
  · omega

/-- On the run queue it is parked and nobody else has it. -/
theorem good_runq (hc : 0 < n.runq) :
    p = .parked ∧ (r.value = 1 ∨ r.value = 3) ∧ r.hit = true ∧ n.claims = 0 ∧ n.wakes = 0 ∧
      n.runq = 1 ∧ r.woken = 1 ∧ n.timeq = 0 ∧ n.expires = 0 := by
  rcases good_cases h with ⟨ha, -⟩ | h | ⟨⟨-, h⟩ | hp, hv, hh, hd⟩
  · have := ha.2.1
    omega
  · omega
  · omega
  · rcases hd with hd | hd | hd
    · omega
    · omega
    · exact ⟨hp, hv, hh, hd⟩

/-- On the timeout queue, or taken off it by a pass, its fate is open. -/
theorem good_timeq (hc : 0 < n.timeq ∨ 0 < n.expires) : Waits r n := by
  rcases good_cases h with ⟨ha, -⟩ | ⟨-, hw, -⟩ | ⟨-, -, -, hd | hd | hd⟩
  · obtain ⟨h1, -, -, -, h5⟩ := ha
    omega
  · exact hw
  · exact hd.2.2.2.2
  · omega
  · omega

theorem good_once : r.woken ≤ 1 ∧ n.runq ≤ 1 := by
  rcases good_cases h with ⟨ha, -, hw⟩ | h | ⟨-, -, -, hd | hd | hd⟩
  · exact ⟨hw, by have := ha.2.1; omega⟩
  all_goals omega

/-- An unpark or a wakeup that finds the LWP not parked leaves its mark and
nothing else. -/
theorem good_mark (hv : r.value ≠ 0) : Good { r with value := maskUnpark, hit := true } n p := by
  cases p with
  | run | unparking _ | exchange _ => exact ⟨h.1, .inl rfl, h.2.2⟩
  | prepare _ => exact ⟨h.1, h.2.1, .inl ⟨rfl, rfl⟩⟩
  | block | switch | callback => exact ⟨h.1, h.2.1, .inl ⟨rfl, rfl⟩, h.2.2.2⟩
  | cbXor =>
    obtain ⟨hw, h1, h2, h3, h4, -⟩ := h
    exact ⟨hw, h1, h2, h3, h4, .inl ⟨rfl, rfl⟩⟩
  | cbWake => exact ⟨.inl rfl, rfl, h.2.2⟩
  | parked =>
    rcases h with ⟨h, -⟩ | ⟨-, -, h⟩
    · exact absurd h hv
    · exact .inr ⟨.inl rfl, rfl, h⟩
  | blockRet | store _ => exact ⟨h.1, .inl rfl, rfl, h.2.2.2⟩

theorem good_claim (hv : r.value = 0) :
    Good { r with value := maskUnpark, hit := true } { n with claims := n.claims + 1 } p := by
  obtain ⟨rfl, hw, h1, h2, h3, h4⟩ := good_zero h hv
  exact .inr ⟨.inl rfl, rfl, .inl ⟨by simp [h2], h3, h1, h4, hw⟩⟩

/-- A waker that has claimed the LWP takes it off the timeout queue, if it is
there, and is about to enqueue it. -/
theorem good_take (hc : 0 < n.claims) (hx : n.expires = 0) :
    Good r { n with claims := n.claims - 1, timeq := 0, wakes := n.wakes + 1 } p := by
  obtain ⟨hp, hv, hh, h1, h2, h3, h4, -⟩ := good_claims h hc
  have hd : Delivered r { n with claims := n.claims - 1, timeq := 0, wakes := n.wakes + 1 } :=
    .inr (.inl ⟨by simp [h1], by simp [h2], h3, h4, rfl, hx⟩)
  rcases hp with rfl | rfl
  · exact ⟨hv, hh, hd, h3⟩
  · exact .inr ⟨hv, hh, hd⟩

theorem good_enqueue (hc : 0 < n.wakes) : Good { r with woken := r.woken + 1 }
      { n with wakes := n.wakes - 1, runq := n.runq + 1 } .parked := by
  obtain ⟨-, hv, hh, h1, h2, h3, h4, h5, h6⟩ := good_wakes h hc
  exact .inr ⟨hv, hh, .inr (.inr ⟨h1, by simp [h2], by simp [h3], by simp [h4], h5, h6⟩)⟩

theorem good_expire (hc : 0 < n.timeq) : Good { r with timedout := true, hit := true }
      { n with timeq := n.timeq - 1, expires := n.expires + 1 } p := by
  have hw' : Waits { r with timedout := true, hit := true }
      { n with timeq := n.timeq - 1, expires := n.expires + 1 } := by
    rcases good_timeq h (.inl hc) with hw | hw | hw
    · omega
    · exact .inr (.inr ⟨hw.1, by simp [hw.2.1], by simp [hw.2.2.1]⟩)
    · omega
  have hx : n.expires + 1 = 1 := by
    rcases good_timeq h (.inl hc) with hw | hw | hw <;> omega
  have hd : Delivered r n → Delivered { r with timedout := true, hit := true }
      { n with timeq := n.timeq - 1, expires := n.expires + 1 } := by
    rintro (⟨h1, h2, h3, h4, -⟩ | hd | hd)
    · exact .inl ⟨h1, h2, h3, h4, hw'⟩
    · omega
    · omega
  rcases good_out h (fun ha => by have := ha.1; omega) with rfl | rfl | rfl
  · obtain ⟨-, h1, h2, h3, h4, hv⟩ := h
    refine ⟨hw', h1, h2, h3, h4, ?_⟩
    rcases hv with ⟨hv, -⟩ | ⟨hv, -⟩
    · exact .inl ⟨hv, rfl⟩
    · exact .inr ⟨hv, fun _ => hx⟩
  · exact ⟨h.1, rfl, hd h.2.2.1, h.2.2.2⟩
  · rcases h with ⟨hv, -, h1, h2, h3, h4, -⟩ | ⟨hv, -, h⟩
    · exact .inl ⟨hv, hw', h1, h2, h3, h4, fun _ => hx⟩
    · exact .inr ⟨hv, rfl, hd h⟩

/-- A pass that finds its LWP parked has claimed it and enqueues it itself. -/
theorem good_passClaim (hv : r.value = 0) (hx : 0 < n.expires) :
    Good { r with value := maskUnpark, hit := true }
      { n with expires := n.expires - 1, wakes := n.wakes + 1 } p := by
  obtain ⟨rfl, hw, h1, h2, h3, h4⟩ := good_zero h hv
  have hq : n.timeq = 0 ∧ n.expires = 1 := by
    rcases hw with hw | hw | hw <;> omega
  exact .inr ⟨.inl rfl, rfl, .inr (.inl ⟨h2, by simp [h3], h1, h4, hq.1, by simp [hq.2]⟩)⟩

end

end Table

variable [Fintype L] [Fintype W]

def State.num (s : State L W) (l : L) : Num where
  timeq := s.timeq.count l
  runq := s.runq.count l
  claims := wsum (claims l) s.code
  wakes := wsum (wakes l) s.code
  expires := wsum (expires l) s.code

/-- The invariant. -/
structure Inv (s : State L W) : Prop where
  good : ∀ l, Good (s.rl l) (s.num l) (s.pc l)
  own : ∀ l, Own l (s.pc l) (s.code (.inl l))
  lock : ∀ c, inPass (s.code c) → s.lock = some c
  fn : ∀ c l, s.code c = some (.wakeTimeq l) → (s.rl l).wake = .wakeTimeq

omit [DecidableEq W] in
theorem inv_init {s : State L W} (h : Init s) : Inv s := by
  obtain ⟨hl, hc, hr, ht, -⟩ := h
  have hz : ∀ f : Option (Code L) → Nat, f none = 0 → wsum f s.code = 0 := fun f hf =>
    (wsum_eq_zero_iff _ _).mpr fun c => by rw [hc c, hf]
  refine ⟨fun l => ?_, fun l => ?_, fun c hp => ?_, fun c l hp => ?_⟩
  · obtain ⟨hp, hv, hw⟩ := hl l
    rw [hp]
    exact ⟨⟨by simp [State.num, ht], by simp [State.num, hr], hz _ rfl, hz _ rfl, hz _ rfl⟩,
      .inr hv, by omega⟩
  · rw [(hl l).1]
    exact hc (.inl l)
  · simp [hc c, inPass] at hp
  · simp [hc c] at hp

/-! ## A step keeps the invariant

A step is about one LWP.  `inv_on` does the others once: what is left of each
step is the row of the table for the LWP it is about. -/

section Step
variable {s s' : State L W} {l : L} {c : L ⊕ W}
variable {k : Option (Code L)} {now : Int}

/-- A piece of waking code that is about no LWP but `l`. -/
def About (l : L) (k : Option (Code L)) : Prop :=
  ∀ m, m ≠ l → claims m k = 0 ∧ wakes m k = 0 ∧ expires m k = 0

theorem moved (h : s'.code = update s.code c k) (m : L) :
    (s'.num m).claims + claims m (s.code c) = (s.num m).claims + claims m k ∧
    (s'.num m).wakes + wakes m (s.code c) = (s.num m).wakes + wakes m k ∧
    (s'.num m).expires + expires m (s.code c) = (s.num m).expires + expires m k := by
  simp only [State.num, h]
  exact ⟨wsum_update _ _ _ _, wsum_update _ _ _ _, wsum_update _ _ _ _⟩

/-- A context that moves between pieces of code of the same weights changes no count. -/
theorem num_keep (h : s'.code = update s.code c k) {m : L}
    (hw : claims m k = claims m (s.code c) ∧ wakes m k = wakes m (s.code c) ∧
      expires m k = expires m (s.code c))
    (hq : s'.timeq.count m = s.timeq.count m ∧ s'.runq.count m = s.runq.count m) :
    s'.num m = s.num m := by
  obtain ⟨h1, h2, h3⟩ := moved h m
  exact Num.ext hq.1 hq.2 (by omega) (by omega) (by omega)

theorem fn_keep (hi : Inv s) (hcode : s'.code = update s.code c k)
    (hwake : ∀ m, (s'.rl m).wake = (s.rl m).wake)
    (hfn : ∀ m, k = some (.wakeTimeq m) → (s.rl m).wake = .wakeTimeq) (c' : L ⊕ W) (m : L)
    (hm : s'.code c' = some (.wakeTimeq m)) : (s'.rl m).wake = .wakeTimeq := by
  rw [hwake]
  rw [hcode] at hm
  by_cases hcc : c' = c
  · rw [hcc, update_self] at hm
    exact hfn m hm
  · rw [update_of_ne hcc] at hm
    exact hi.fn c' m hm

theorem good_resume {r : Rl} {n : Num} {p : Pc} (h : Good r n p) (hp : p ≠ .cbWake) :
    Good r n (resume p) := by
  cases p with
  | cbWake => exact absurd rfl hp
  | _ => exact h

theorem inv_on (hi : Inv s) (l : L)
    (hcode : s'.code = update s.code c k) (h0 : About l (s.code c)) (hk : About l k)
    (hq : ∀ m, m ≠ l → s'.timeq.count m = s.timeq.count m ∧ s'.runq.count m = s.runq.count m)
    (hrl : ∀ m, m ≠ l → s'.rl m = s.rl m)
    (hpc : ∀ m, m ≠ l → s'.pc m = s.pc m ∨ s.pc m ≠ .cbWake ∧ s'.pc m = resume (s.pc m))
    (hgood : Good (s'.rl l) (s'.num l) (s'.pc l)) (hown : ∀ m, Own m (s'.pc m) (s'.code (.inl m)))
    (hlock : ∀ c', inPass (s'.code c') → s'.lock = some c') (hwake : (s'.rl l).wake = (s.rl l).wake)
    (hfn : ∀ m, k = some (.wakeTimeq m) → (s.rl m).wake = .wakeTimeq) : Inv s' := by
  have hwake' : ∀ m, (s'.rl m).wake = (s.rl m).wake := fun m => by
    by_cases hm : m = l
    · rw [hm, hwake]
    · rw [hrl m hm]
  refine ⟨fun m => ?_, hown, hlock, fn_keep hi hcode hwake' hfn⟩
  by_cases hm : m = l
  · exact hm ▸ hgood
  · obtain ⟨a1, a2, a3⟩ := h0 m hm
    obtain ⟨b1, b2, b3⟩ := hk m hm
    rw [hrl m hm, num_keep hcode (by omega) (hq m hm)]
    rcases hpc m hm with h | ⟨h, h'⟩
    · rw [h]; exact hi.good m
    · rw [h']; exact good_resume (hi.good m) h

omit [DecidableEq W] in
theorem own_some {k : Code L} (hi : Inv s) {m : L} (h : s.code (.inl m) = some k) :
    (∃ ts, s.pc m = .unparking ts) ∨ s.pc m = .cbWake := by
  have ho := hi.own m
  rw [h] at ho
  cases hp : s.pc m with
  | unparking ts => exact .inl ⟨ts, rfl⟩
  | cbWake => exact .inr rfl
  | _ => rw [hp] at ho; cases ho

theorem own_setCode {t : State L W} (hi : Inv s) {k : Code L} (hpc : t.pc = s.pc)
    (hcode : t.code = update s.code c (some k))
    (h : ∀ m, c = .inl m → Own m (s.pc m) (some k)) (m : L) : Own m (t.pc m) (t.code (.inl m)) := by
  rw [hpc, hcode]
  by_cases hc : Sum.inl m = c
  · rw [← hc, update_self]; exact h m hc.symm
  · rw [update_of_ne hc]; exact hi.own m

omit [Fintype L] [Fintype W] in
theorem finish_pc (s : State L W) (c : L ⊕ W) (m : L) :
    (s.finish c).pc m = if c = .inl m then resume (s.pc m) else s.pc m := by
  cases c with
  | inl l =>
    by_cases h : m = l
    · subst h; simp [State.finish]
    · simp [State.finish, update_of_ne h, Ne.symm h]
  | inr w => simp [State.finish]

theorem own_finish {t : State L W} {k : Code L} (hi : Inv s) (hk : s.code c = some k) (hcode : t.code = s.code)
    (hpc : t.pc = s.pc) (m : L) : Own m ((t.finish c).pc m) ((t.finish c).code (.inl m)) := by
  have hc' : (t.finish c).code = update t.code c none := rfl
  rw [finish_pc, hc', hcode, hpc]
  by_cases hc : c = .inl m
  · subst hc
    rw [if_pos rfl, update_self]
    rcases own_some hi hk with ⟨ts, h⟩ | h <;> rw [h] <;> rfl
  · rw [if_neg hc, update_of_ne (Ne.symm hc)]
    exact hi.own m

omit [DecidableEq W] in
/-- A context that has expired an LWP holds the lock. -/
theorem expires_eq_zero (hi : Inv s) (hl : s.lock = none) (l : L) : (s.num l).expires = 0 := by
  refine (wsum_eq_zero_iff _ _).mpr fun c => ?_
  cases hc : s.code c with
  | none => rfl
  | some k =>
    cases k with
    | passExchange now m =>
      have := hi.lock c (by rw [hc]; trivial)
      rw [hl] at this
      cases this
    | _ => rfl

omit [Fintype L] in
theorem claims_pos : 0 < claims l k ↔ k = some (.callWake l) ∨ k = some (.wakeTimeq l) := by
  cases k with
  | none => simp [claims]
  | some k => cases k <;> simp [claims, Nat.pos_iff_ne_zero]

omit [Fintype L] in
theorem wakes_pos : 0 < wakes l k ↔ k = some (.wake l) ∨ ∃ now, k = some (.passWake now l) := by
  cases k with
  | none => simp [wakes]
  | some k => cases k <;> simp [wakes, Nat.pos_iff_ne_zero]

omit [DecidableEq W] in
theorem waits_of_claims (hi : Inv s) (hc : 0 < claims l (s.code c)) :
    0 < (s.num l).claims ∧ Waits (s.rl l) (s.num l) := by
  have hle : claims l (s.code c) ≤ (s.num l).claims := le_wsum _ _ _
  obtain ⟨-, -, -, -, -, -, -, hw⟩ := good_claims (hi.good l) (by omega)
  exact ⟨by omega, hw⟩

theorem own_wake (hi : Inv s) (hp : s.pc l = .cbWake) (hw : 0 < wakes l (s.code c)) : c = .inl l := by
  have hle : wakes l (s.code c) ≤ (s.num l).wakes := le_wsum _ _ _
  obtain ⟨-, -, -, h1, h2, -⟩ := good_wakes (hi.good l) (by omega)
  have ho := hi.own l
  rw [hp] at ho
  have hwl : 0 < wakes l (s.code (.inl l)) := by
    rcases ho with ho | ho | ho
    · have := (waits_of_claims hi (claims_pos.mpr (.inl ho))).1
      omega
    · have := (waits_of_claims hi (claims_pos.mpr (.inr ho))).1
      omega
    · exact wakes_pos.mpr (.inl ho)
  exact eq_of_wsum_le_one (by simp only [State.num] at h2; omega) hw hwl

theorem lock_keep (hi : Inv s) (hcode : s'.code = update s.code c k) (hl : s'.lock = s.lock)
    (hk : inPass k → inPass (s.code c)) (c' : L ⊕ W) (hp : inPass (s'.code c')) :
    s'.lock = some c' := by
  rw [hl]
  rw [hcode] at hp
  by_cases hcc : c' = c
  · rw [hcc, update_self] at hp
    exact hcc ▸ hi.lock c (hk hp)
  · rw [update_of_ne hcc] at hp
    exact hi.lock c' hp

/-! ### Waking code -/

/-- A context that returns with nothing in its hands: the queues are as they were,
and the fields of the LWPs at most marked. -/
theorem inv_return (hi : Inv s) {k : Code L} (hc : s.code c = some k) {rl : L → Rl}
    (h0 : ∀ m, claims m (some k) = 0 ∧ wakes m (some k) = 0 ∧ expires m (some k) = 0)
    (hgood : ∀ m, Good (rl m) (s.num m) (s.pc m)) (hwake : ∀ m, (rl m).wake = (s.rl m).wake)
    (lock : Option (L ⊕ W)) (hlock : ∀ c', c' ≠ c → inPass (s.code c') → lock = some c') :
    Inv ({ s with rl := rl, lock := lock }.finish c) := by
  have hcode : ({ s with rl := rl, lock := lock }.finish c).code = update s.code c none := rfl
  have hcb : ∀ m, c = .inl m → s.pc m ≠ .cbWake := by
    intro m hm hp
    subst hm
    have ho := hi.own m
    rw [hp, hc] at ho
    obtain ⟨h1, h2, -⟩ := h0 m
    rcases ho with ho | ho | ho <;> injection ho with ho <;> subst ho <;> simp [claims, wakes] at h1 h2
  refine ⟨fun m => ?_, own_finish hi hc rfl rfl,
    fun c' hp => ?_, fn_keep hi hcode hwake (by simp)⟩
  · obtain ⟨h1, h2, h3⟩ := h0 m
    rw [num_keep hcode (by rw [hc]; exact ⟨h1.symm, h2.symm, h3.symm⟩) ⟨rfl, rfl⟩, finish_pc]
    by_cases hm : c = .inl m
    · rw [if_pos hm]; exact good_resume (hgood m) (hcb m hm)
    · rw [if_neg hm]; exact hgood m
  · rw [hcode] at hp
    by_cases hcc : c' = c
    · rw [hcc, update_self] at hp; exact hp.elim
    · rw [update_of_ne hcc] at hp
      exact hlock c' hcc hp

/-- A context that goes on from `k₀` to `k`, both about `l`. -/
theorem inv_move (hi : Inv s) {k₀ k : Code L} (hc : s.code c = some k₀)
    (h0 : About l (some k₀)) (hk : About l (some k)) {r : Rl} {q rq : List L} {n : Num}
    (hq : ∀ m, m ≠ l → q.count m = s.timeq.count m ∧ rq.count m = s.runq.count m)
    (hql : q.count l = n.timeq ∧ rq.count l = n.runq)
    (h1 : n.claims + claims l (some k₀) = (s.num l).claims + claims l (some k))
    (h2 : n.wakes + wakes l (some k₀) = (s.num l).wakes + wakes l (some k))
    (h3 : n.expires + expires l (some k₀) = (s.num l).expires + expires l (some k))
    (hgood : Good r n (s.pc l)) (hwake : r.wake = (s.rl l).wake)
    (hfn : k = .wakeTimeq l → r.wake = .wakeTimeq)
    (hown : ∀ m, Own m (s.pc m) (some k₀) → Own m (s.pc m) (some k))
    (hpass : inPass (some k) → inPass (some k₀)) :
    Inv ({ s.setRl l r with timeq := q, runq := rq }.setCode c k) := by
  have hcode : ({ s.setRl l r with timeq := q, runq := rq }.setCode c k).code
      = update s.code c (some k) := rfl
  have hr : ({ s.setRl l r with timeq := q, runq := rq }.setCode c k).rl l = r :=
    update_self ..
  have hfn' : ∀ m, some k = some (.wakeTimeq m) → (s.rl m).wake = .wakeTimeq := by
    intro m hm
    injection hm with hm
    subst hm
    by_cases hml : m = l
    · subst hml; rw [← hwake]; exact hfn rfl
    · simpa [claims] using (hk m hml).1
  refine inv_on hi l hcode (hc ▸ h0) hk hq (fun m hm => update_of_ne hm _ _)
    (fun m _ => .inl rfl) ?_ ?_ (lock_keep hi hcode rfl (hc ▸ hpass)) (by rw [hr]; exact hwake) hfn'
  · have hn : ({ s.setRl l r with timeq := q, runq := rq }.setCode c k).num l = n := by
      obtain ⟨e1, e2, e3⟩ := moved hcode l
      rw [hc] at e1 e2 e3
      exact Num.ext hql.1 hql.2 (by omega) (by omega) (by omega)
    rw [hn, hr]
    exact hgood
  · refine own_setCode hi rfl hcode
      fun m hm => hown m ?_
    subst hm
    exact hc ▸ hi.own m

omit [DecidableEq W] [Fintype L] [Fintype W] in
theorem setRl_self (s : State L W) (l : L) : s.setRl l (s.rl l) = s := by
  simp [State.setRl]

omit [Fintype L] in
theorem count_append_singleton (q : List L) (l m : L) :
    (q ++ [l]).count m = q.count m + if l = m then 1 else 0 := by
  rw [count_append, count_singleton]
  simp

omit [Fintype L] in
theorem about_mk (k : Code L) (h : k = .callWake l ∨ k = .wakeTimeq l ∨ k = .wake l ∨
    (∃ now, k = .passLoop now ∨ k = .passExchange now l ∨ k = .passWake now l)) :
    About l (some k) := by
  intro m hm
  rcases h with rfl | rfl | rfl | ⟨now, rfl | rfl | rfl⟩ <;>
    simp [claims, wakes, expires, hm.symm]

omit [Fintype L] [DecidableEq L] in
theorem own_onward (l : L) {k₀ k : Code L} {p : Pc} {m : L} (h : Own m p (some k₀))
    (h0 : k₀ = .unpark l ∨ k₀ = .wakeup l ∨ k₀ = .callWake l ∨ k₀ = .wakeTimeq l)
    (hk : k = .callWake l ∨ k = .wakeTimeq l ∨ k = .wake l) : Own m p (some k) := by
  rcases h0 with rfl | rfl | rfl | rfl <;> rcases hk with rfl | rfl | rfl <;> cases p <;>
    simp [Own] at h ⊢ <;> exact h

/-- `_lwp_unpark` and `_lwp_wakeup` find the LWP parked. -/
theorem inv_claim (hi : Inv s) {k : Code L} (hc : s.code c = some k)
    (hk : k = .unpark l ∨ k = .wakeup l) (hv : (s.rl l).value = 0) :
    Inv ((s.claim l).setCode c (.callWake l)) := by
  rcases hk with rfl | rfl <;>
    exact inv_move hi hc (fun m _ => ⟨rfl, rfl, rfl⟩) (about_mk _ (by simp)) (fun m _ => ⟨rfl, rfl⟩)
      ⟨rfl, rfl⟩ (by simp [claims]) (by simp [wakes]) (by simp [expires])
      (good_claim (hi.good l) hv) rfl (by simp)
      (fun m ho => own_onward l ho (by simp) (by simp)) (fun hp => hp.elim)

/-- The call through `rl_wake`: `bmk_sched_wake` is about to enqueue,
`bmk_sched_wake_timeq` has its locked section before it. -/
theorem inv_callWake (hi : Inv s) (hc : s.code c = some (.callWake l)) {k : Code L}
    (hk : (s.rl l).wake = .wake ∧ k = .wake l ∨ (s.rl l).wake = .wakeTimeq ∧ k = .wakeTimeq l) :
    Inv (s.setCode c k) := by
  obtain ⟨hle, hw⟩ := waits_of_claims hi (claims_pos.mpr (.inl hc))
  have hown : ∀ m, Own m (s.pc m) (some (.callWake l)) → Own m (s.pc m) (some k) :=
    fun m ho => own_onward l ho (by simp) (by tauto)
  rw [← setRl_self s l]
  rcases hk with ⟨hf, rfl⟩ | ⟨hf, rfl⟩
  · have hx : (s.num l).timeq = 0 ∧ (s.num l).expires = 0 := by
      rcases hw with hw | hw | hw
      · exact hw.2
      · rw [hf] at hw; exact absurd hw.1 (by simp)
      · rw [hf] at hw; exact absurd hw.1 (by simp)
    exact inv_move hi hc (n := { s.num l with
        claims := (s.num l).claims - 1, timeq := 0, wakes := (s.num l).wakes + 1 })
      (about_mk _ (by simp)) (about_mk _ (by simp)) (fun m _ => ⟨rfl, rfl⟩)
      ⟨hx.1, rfl⟩ (by simp [claims]; omega) (by simp [wakes]) (by simp [expires])
      (good_take (hi.good l) hle hx.2) rfl (by simp) hown (fun hp => hp.elim)
  · exact inv_move hi hc (about_mk _ (by simp)) (about_mk _ (by simp)) (fun m _ => ⟨rfl, rfl⟩)
      ⟨rfl, rfl⟩ (by simp [claims]) (by simp [wakes]) (by simp [expires]) (hi.good l) rfl
      (fun _ => hf) hown (fun hp => hp.elim)

omit [DecidableEq W] in
/-- A waker in `bmk_sched_wake_timeq` that gets the lock finds its thread on the
queue and not timed out. -/
theorem waits_at_lock (hi : Inv s) (hl : s.lock = none) (hc : s.code c = some (.wakeTimeq l)) :
    0 < (s.num l).claims ∧ (s.num l).timeq = 1 ∧ (s.rl l).timedout = false := by
  have hf := hi.fn c l hc
  obtain ⟨hle, hw⟩ := waits_of_claims hi (claims_pos.mpr (.inr hc))
  have hx := expires_eq_zero hi hl l
  rcases hw with hw | hw | hw
  · rw [hf] at hw; exact absurd hw.1 (by simp)
  · exact ⟨hle, hw.2.1, hw.2.2.2⟩
  · omega

theorem inv_wakeTimeq (hi : Inv s) (hl : s.lock = none) (hc : s.code c = some (.wakeTimeq l)) :
    Inv ({ s with timeq := removeTimeq l s.timeq }.setCode c (.wake l)) := by
  obtain ⟨hle, hq, -⟩ := waits_at_lock hi hl hc
  have := inv_move hi hc (k := .wake l) (about_mk _ (by simp)) (about_mk _ (by simp))
    (fun m hm => ⟨by rw [count_removeTimeq, if_neg hm.symm]; rfl, rfl⟩)
    ⟨by rw [count_removeTimeq, if_pos rfl]; exact Nat.sub_eq_zero_of_le hq.le, rfl⟩
    (by simp [claims]; omega) (by simp [wakes]) (by simp [expires])
    (good_take (hi.good l) hle (expires_eq_zero hi hl l)) rfl (by simp)
    (fun m ho => own_onward l ho (by simp) (by simp)) (fun hp => hp.elim)
  rwa [setRl_self] at this

theorem inv_wake (hi : Inv s) (hc : s.code c = some (.wake l)) : Inv ((s.enqueue l).finish c) := by
  have hcode : ((s.enqueue l).finish c).code = update s.code c none := rfl
  have hle : wakes l (s.code c) ≤ (s.num l).wakes := le_wsum _ _ _
  have hone : wakes l (s.code c) = 1 := by rw [hc]; simp [wakes]
  obtain ⟨hp, -⟩ := good_wakes (hi.good l) (by omega)
  have hpl : ((s.enqueue l).finish c).pc l = .parked := by
    rw [finish_pc]
    rcases hp with hp | hp
    · -- the callback itself enqueues: nobody else can be about to
      rw [if_pos (own_wake hi hp (by omega))]
      show resume (s.pc l) = _
      rw [hp]; rfl
    · show (if c = .inl l then resume (s.pc l) else s.pc l) = _
      rw [hp]; simp [resume]
  have hpc : ∀ m, m ≠ l → ((s.enqueue l).finish c).pc m = s.pc m ∨
      s.pc m ≠ .cbWake ∧ ((s.enqueue l).finish c).pc m = resume (s.pc m) := by
    intro m hm
    rw [finish_pc]
    by_cases hcm : c = .inl m
    · refine .inr ⟨fun h => ?_, by rw [if_pos hcm]; rfl⟩
      have ho := hi.own m
      rw [h, ← hcm, hc] at ho
      simp [Own] at ho
      exact hm ho.symm
    · exact .inl (by rw [if_neg hcm]; rfl)
  have hr : ((s.enqueue l).finish c).rl l = { s.rl l with woken := (s.rl l).woken + 1 } :=
    update_self ..
  refine inv_on hi l hcode (hc ▸ about_mk _ (by simp)) (fun m _ => ⟨rfl, rfl, rfl⟩)
    (fun m hm => ⟨rfl, ?_⟩) (fun m hm => update_of_ne hm _ _) hpc ?_
    (own_finish hi hc rfl rfl) (lock_keep hi hcode rfl fun hp => hp.elim)
    (by rw [hr]) (fun m hm => by simp at hm)
  · show (s.runq ++ [l]).count m = _
    rw [count_append_singleton, if_neg hm.symm]; rfl
  · have hn : ((s.enqueue l).finish c).num l =
        { s.num l with wakes := (s.num l).wakes - 1, runq := (s.num l).runq + 1 } := by
      obtain ⟨h1, h2, h3⟩ := moved hcode l
      rw [hc] at h1 h2 h3
      simp only [claims, wakes, expires, if_true] at h1 h2 h3
      refine Num.ext rfl ?_ h1 (by simp only; omega) h3
      show (s.runq ++ [l]).count l = _
      rw [count_append_singleton, if_pos rfl]; rfl
    rw [hn, hr, hpl]
    exact good_enqueue (hi.good l) (by omega)

omit [DecidableEq L] [Fintype L] in
/-- An LWP is never inside a timeout pass. -/
theorem own_pass {k : Code L} (hp : inPass (some k) ∨ ∃ now, k = .pass now) (m : L) (p : Pc) :
    ¬ Own m p (some k) := by
  intro ho
  cases p <;> cases k <;> simp [Own, inPass] at ho hp

section
variable (hi : Inv s)
include hi

theorem inv_pass (hl : s.lock = none) (hc : s.code c = some (.pass now)) :
    Inv ({ s with lock := some c }.setCode c (.passLoop now)) := by
  have hcode : ({ s with lock := some c }.setCode c (.passLoop now)).code
      = update s.code c (some (.passLoop now)) := rfl
  refine ⟨fun m => ?_, ?_, fun c' hp => ?_, fn_keep hi hcode (fun _ => rfl) (by simp)⟩
  · rw [num_keep hcode (by rw [hc]; exact ⟨rfl, rfl, rfl⟩) ⟨rfl, rfl⟩]
    exact hi.good m
  · refine own_setCode hi rfl hcode
      fun m hm => ?_
    subst hm
    exact absurd (hc ▸ hi.own m) (own_pass (.inr ⟨now, rfl⟩) m _)
  · rw [hcode] at hp
    by_cases hcc : c' = c
    · rw [hcc]; rfl
    · rw [update_of_ne hcc] at hp
      have := hi.lock c' hp
      rw [hl] at this
      cases this

theorem inv_expire (hc : s.code c = some (.passLoop now)) {q : List L} (hq : s.timeq = l :: q) :
    Inv ({ s.setRl l { s.rl l with timedout := true, hit := true } with timeq := q }.setCode c
      (.passExchange now l)) := by
  have hp : inPass (some (.passLoop now : Code L)) := trivial
  have hpos : (s.num l).timeq = q.count l + 1 := by simp [State.num, hq]
  exact inv_move hi hc (n := { s.num l with
      timeq := (s.num l).timeq - 1, expires := (s.num l).expires + 1 })
    (about_mk _ (by simp)) (about_mk _ (by simp))
    (fun m hm => ⟨by rw [hq, count_cons_of_ne hm.symm], rfl⟩) ⟨by simp [hpos], rfl⟩
    (by simp [claims]) (by simp [wakes]) (by simp [expires])
    (good_expire (hi.good l) (by omega)) rfl (by simp)
    (fun m ho => absurd ho (own_pass (.inl hp) m _)) (fun _ => trivial)

theorem inv_passExchange (hc : s.code c = some (.passExchange now l))
    (hv : (s.rl l).value = 0) : Inv ((s.claim l).setCode c (.passWake now l)) := by
  have hp : inPass (some (.passExchange now l)) := trivial
  have hle : expires l (s.code c) ≤ (s.num l).expires := le_wsum _ _ _
  simp only [hc, expires, if_true] at hle
  exact inv_move hi hc (n := { s.num l with
      expires := (s.num l).expires - 1, wakes := (s.num l).wakes + 1 })
    (about_mk _ (by simp)) (about_mk _ (by simp))
    (fun m hm => ⟨rfl, rfl⟩) ⟨rfl, rfl⟩ (by simp [claims]) (by simp [wakes])
    (by simp [expires]; omega) (good_passClaim (hi.good l) hv hle) rfl (by simp)
    (fun m ho => absurd ho (own_pass (.inl hp) m _)) (fun _ => trivial)

theorem inv_passWake (hc : s.code c = some (.passWake now l)) :
    Inv ((s.enqueue l).setCode c (.passLoop now)) := by
  have hpass : inPass (some (.passWake now l)) := trivial
  have hle : wakes l (s.code c) ≤ (s.num l).wakes := le_wsum _ _ _
  have hone : wakes l (s.code c) = 1 := by rw [hc]; simp [wakes]
  obtain ⟨hp, -⟩ := good_wakes (hi.good l) (by omega)
  have hpl : s.pc l = .parked := by
    rcases hp with hp | hp
    · have := own_wake hi hp (c := c) (by omega)
      subst this
      exact absurd (hc ▸ hi.own l) (own_pass (.inl hpass) l _)
    · exact hp
  have hg := good_enqueue (hi.good l) (by omega)
  rw [← hpl] at hg
  exact inv_move hi hc (n := { s.num l with
      wakes := (s.num l).wakes - 1, runq := (s.num l).runq + 1 })
    (about_mk _ (by simp)) (about_mk _ (by simp))
    (fun m hm => ⟨rfl, by rw [count_append_singleton, if_neg hm.symm]; rfl⟩)
    ⟨rfl, by rw [count_append_singleton, if_pos rfl]; rfl⟩ (by simp [claims])
    (by simp [wakes]; omega) (by simp [expires]) hg rfl (by simp)
    (fun m ho => absurd ho (own_pass (.inl hpass) m _)) (fun _ => trivial)

theorem inv_passEnd (hc : s.code c = some (.passLoop now)) :
    Inv ({ s with lock := none }.finish c) := by
  refine inv_return hi hc (fun m => ⟨rfl, rfl, rfl⟩) hi.good (fun m => rfl) none fun c' hcc hp => ?_
  have h1 := hi.lock c' hp
  rw [hi.lock c (by rw [hc]; trivial)] at h1
  exact absurd (some.inj h1).symm hcc

theorem inv_work (hok : expiryFindsParked s (.work c)) (hs : work s c = some s') : Inv s' := by
  unfold work at hs
  split at hs
  · cases hs
  · next l hc =>
    split at hs <;> simp only [some.injEq] at hs <;> subst hs
    · next hv => exact inv_claim hi hc (.inl rfl) hv
    · next hv =>
      refine inv_return hi hc (fun m => ⟨rfl, rfl, rfl⟩) (fun m => ?_) (fun m => ?_) s.lock
        fun c' _ hp => hi.lock c' hp
      · by_cases hm : m = l
        · subst hm; rw [update_self]; exact good_mark (hi.good m) hv
        · rw [update_of_ne hm]; exact hi.good m
      · by_cases hm : m = l
        · subst hm; rw [update_self]
        · rw [update_of_ne hm]
  · next l hc =>
    split at hs <;> simp only [some.injEq] at hs <;> subst hs
    · next hv => exact inv_claim hi hc (.inr rfl) hv
    · exact inv_return hi hc (fun m => ⟨rfl, rfl, rfl⟩) hi.good (fun m => rfl) s.lock
        fun c' _ hp => hi.lock c' hp
  · next l hc =>
    split at hs <;> simp only [some.injEq, reduceCtorEq] at hs <;> subst hs
    · next hf => exact inv_callWake hi hc (.inl ⟨hf, rfl⟩)
    · next hf => exact inv_callWake hi hc (.inr ⟨hf, rfl⟩)
  · next l hc =>
    split at hs
    · next hl =>
      rw [(waits_at_lock hi hl hc).2.2] at hs
      simp only [Bool.false_eq_true, if_false, some.injEq] at hs
      exact hs ▸ inv_wakeTimeq hi hl hc
    · cases hs
  · next l hc => exact some.inj hs ▸ inv_wake hi hc
  · next now hc =>
    split at hs
    · next hl => exact some.inj hs ▸ inv_pass hi hl hc
    · cases hs
  · next now hc =>
    split at hs
    · exact some.inj hs ▸ inv_passEnd hi hc
    · next l q hq =>
      split at hs
      · exact some.inj hs ▸ inv_expire hi hc hq
      · exact some.inj hs ▸ inv_passEnd hi hc
  · next now l hc =>
    have hv : (s.rl l).value = 0 := by simpa [expiryFindsParked, hc, findsParked] using hok
    rw [if_pos hv] at hs
    exact some.inj hs ▸ inv_passExchange hi hc hv
  · next now l hc => exact some.inj hs ▸ inv_passWake hi hc

/-! ### The parking LWP -/

section
variable (hnone : s.code (.inl l) = none)
include hnone

omit [DecidableEq W] in
/-- LWP `l` moves on in `_lwp_park`, outside waking code. -/
theorem inv_put {r : Rl} {p : Pc} {q rq : List L}
    (hown : Own l p none) (hq : ∀ m, m ≠ l → q.count m = s.timeq.count m)
    (hrq : ∀ m, m ≠ l → rq.count m = s.runq.count m)
    (hgood : Good r { s.num l with timeq := q.count l, runq := rq.count l } p)
    (hwake : r.wake = (s.rl l).wake ∨ (s.num l).claims = 0) :
    Inv { s.put l r p with timeq := q, runq := rq } := by
  refine ⟨fun m => ?_, fun m => ?_, hi.lock, fun c m hm => ?_⟩
  · by_cases hm : m = l
    · subst hm
      show Good (update s.rl m r m) _ (update s.pc m p m)
      rw [update_self, update_self]
      exact hgood
    · show Good (update s.rl l r m) _ (update s.pc l p m)
      rw [update_of_ne hm, update_of_ne hm]
      have hn : State.num { s.put l r p with timeq := q, runq := rq } m = s.num m :=
        Num.ext (hq m hm) (hrq m hm) rfl rfl rfl
      rw [hn]
      exact hi.good m
  · show Own m (update s.pc l p m) (s.code (.inl m))
    by_cases hm : m = l
    · subst hm; rw [update_self, hnone]; exact hown
    · rw [update_of_ne hm]; exact hi.own m
  · show (update s.rl l r m).wake = _
    have hm' : s.code c = some (.wakeTimeq m) := hm
    by_cases hml : m = l
    · subst hml
      rw [update_self]
      rcases hwake with h | h
      · rw [h]; exact hi.fn c m hm'
      · have := (wsum_eq_zero_iff _ _).mp h c
        simp [hm', claims] at this
    · rw [update_of_ne hml]; exact hi.fn c m hm'

omit [DecidableEq W] in
theorem inv_put_pc {r : Rl} {p : Pc} (hown : Own l p none) (hgood : Good r (s.num l) p)
    (hwake : r.wake = (s.rl l).wake ∨ (s.num l).claims = 0) : Inv (s.put l r p) :=
  inv_put hi hnone hown (fun _ _ => rfl) (fun _ _ => rfl) hgood hwake

theorem inv_call {p : Pc} {k : Code L} {r : Rl}
    (hk : About l (some k)) (hx : wakes l (some k) = 0 ∧ expires l (some k) = 0)
    (hown : Own l p (some k)) (hwake : r.wake = (s.rl l).wake) (hfn : ∀ m, k ≠ .wakeTimeq m)
    (hgood : Good r { s.num l with claims := (s.num l).claims + claims l (some k) } p) :
    Inv ((s.put l r p).setCode (.inl l) k) := by
  have hcode : ((s.put l r p).setCode (.inl l) k).code
      = update s.code (.inl l) (some k) := rfl
  have hr : ((s.put l r p).setCode (.inl l) k).rl l = r := update_self ..
  have hp : ((s.put l r p).setCode (.inl l) k).pc l = p := update_self ..
  refine inv_on hi l hcode (by rw [hnone]; exact fun m _ => ⟨rfl, rfl, rfl⟩) hk
    (fun m _ => ⟨rfl, rfl⟩) (fun m hm => update_of_ne hm _ _)
    (fun m hm => .inl (update_of_ne hm _ _)) ?_ (fun m => ?_) ?_ (by rw [hr, hwake])
    (fun m hm => absurd (some.inj hm) (hfn m))
  · have hn : ((s.put l r p).setCode (.inl l) k).num l
        = { s.num l with claims := (s.num l).claims + claims l (some k) } := by
      obtain ⟨h1, h2, h3⟩ := moved hcode l
      rw [hnone] at h1 h2 h3
      rw [hx.1] at h2
      rw [hx.2] at h3
      exact Num.ext rfl rfl h1 h2 h3
    rw [hn, hr, hp]
    exact hgood
  · by_cases hm : m = l
    · subst hm; rw [hp, hcode, update_self]; exact hown
    · have h1 : ((s.put l r p).setCode (.inl l) k).pc m = s.pc m := update_of_ne hm _ _
      rw [h1, hcode, update_of_ne (by simpa using hm)]
      exact hi.own m
  · refine lock_keep hi hcode rfl fun hp => absurd hown (own_pass (.inl hp) l p)

end

theorem inv_go (hs : go s l = some s') : Inv s' := by
  have hg := hi.good l
  have ho := hi.own l
  unfold go at hs
  cases hp : s.pc l with
  | run | unparking _ | cbWake | parked => simp [hp] at hs
  | exchange ts =>
    rw [hp] at hg ho
    simp only [hp] at hs
    split at hs <;> simp only [some.injEq] at hs <;> subst hs
    · exact inv_put_pc hi ho rfl ⟨hg.1, .inr rfl, hg.2.2⟩ (.inl rfl)
    · exact inv_put_pc hi ho rfl ⟨hg.1, rfl, .inr ⟨rfl, rfl⟩⟩ (.inl rfl)
  | prepare ts =>
    rw [hp] at hg ho
    have hz := hg.1.2.2.1
    cases ts <;> simp only [hp, some.injEq] at hs <;> subst hs
    · exact inv_put_pc hi ho rfl ⟨hg.1, hg.2.1, hg.2.2, by simp⟩ (.inr hz)
    · exact inv_put_pc hi ho rfl ⟨hg.1, hg.2.1, hg.2.2, by simp⟩ (.inr hz)
  | block =>
    rw [hp] at hg ho
    simp only [hp, some.injEq] at hs
    subst hs
    obtain ⟨h1, h2, h3, h4⟩ := hg
    exact inv_put_pc hi ho rfl ⟨h1, h2, h3, h4, rfl⟩ (.inl rfl)
  | switch | blockRet =>
    rw [hp] at hg ho
    simp only [hp, some.injEq] at hs
    subst hs
    exact inv_put_pc hi ho rfl hg (.inl rfl)
  | callback =>
    rw [hp] at hg ho
    simp only [hp] at hs
    obtain ⟨⟨hq, hr, hc, hw, hx⟩, hwk, hv, hf, hto⟩ := hg
    split at hs
    · next hf' =>
      split at hs
      · simp only [some.injEq] at hs
        subst hs
        have h1 : (insertTimeq (fun m => (s.rl m).wakeupTime) l s.timeq).count l = 1 := by
          rw [count_insertTimeq, if_pos rfl]
          simp only [State.num] at hq
          omega
        refine inv_put hi ho rfl
          (fun m hm => by rw [count_insertTimeq, if_neg hm.symm]; rfl) (fun m _ => rfl) ?_ (.inl rfl)
        refine ⟨.inr (.inl ⟨hf', h1, hx, hto⟩), hr, hc, hw, hwk, ?_⟩
        rcases hv with hv | ⟨hv, hh⟩
        · exact .inl hv
        · exact .inr ⟨hv, by simp [hh]⟩
      · cases hs
    · next hf' =>
      cases hs
      have hf'' : (s.rl l).wake = .wake := by
        cases h : (s.rl l).wake <;> simp_all
      refine inv_put_pc hi ho rfl ⟨.inl ⟨hf'', hq, hx⟩, hr, hc, hw, hwk, ?_⟩ (.inl rfl)
      rcases hv with hv | ⟨hv, hh⟩
      · exact .inl hv
      · exact .inr ⟨hv, by simp [hh]⟩
  | cbXor =>
    rw [hp] at hg ho
    simp only [hp] at hs
    obtain ⟨hwt, hr, hc, hw, hwk, hv⟩ := hg
    split at hs <;> simp only [some.injEq] at hs <;> subst hs
    · next hval =>
      rcases hv with ⟨hv, -⟩ | ⟨-, hh⟩
      · rw [hv] at hval; exact absurd hval (by decide)
      · refine inv_put_pc hi ho rfl (.inl ⟨?_, hwt, hr, hc, hw, hwk, hh⟩) (.inl rfl)
        simp [hval, maskPark]
    · next hval =>
      rcases hv with ⟨hv, hh⟩ | ⟨hv, -⟩
      · refine inv_call hi ho (about_mk _ (by simp)) ⟨rfl, rfl⟩ (.inl rfl) rfl (by simp)
          ⟨.inr ?_, hh, .inl ⟨by simp [claims, hc], hw, hr, hwk, hwt⟩, hr⟩
        simp [hv, maskPark]
      · exact absurd hv hval
  | store timedout =>
    rw [hp] at hg ho
    simp only [hp, some.injEq] at hs
    subst hs
    exact inv_put_pc hi ho rfl ⟨hg.1, .inr rfl, hg.2.2.2.le⟩ (.inl rfl)

/-! ### The rest -/

theorem inv_begin {w : W} {k : Code L}
    (hk : (∃ l, k = .unpark l ∨ k = .wakeup l) ∨ ∃ now, k = .pass now)
    (hs : s.begin w k = some s') : Inv s' := by
  have hk' : ∀ m, claims m (some k) = 0 ∧ wakes m (some k) = 0 ∧ expires m (some k) = 0 := by
    intro m
    rcases hk with ⟨l, rfl | rfl⟩ | ⟨now, rfl⟩ <;> exact ⟨rfl, rfl, rfl⟩
  unfold State.begin at hs
  split at hs
  · next hc =>
    cases hs
    have hcode : (s.setCode (.inr w) k).code = update s.code (.inr w) (some k) := rfl
    refine ⟨fun m => ?_, own_setCode hi rfl hcode (by simp), lock_keep hi hcode rfl fun hp => ?_,
      fn_keep hi hcode (fun _ => rfl) fun m hm => ?_⟩
    · rw [num_keep hcode (by rw [hc]; exact hk' m) ⟨rfl, rfl⟩]
      exact hi.good m
    · rcases hk with ⟨l, rfl | rfl⟩ | ⟨now, rfl⟩ <;> exact hp.elim
    · rcases hk with ⟨l, rfl | rfl⟩ | ⟨now, rfl⟩ <;> simp at hm
  · cases hs

/-- Every step keeps the invariant, as long as every expiry finds its thread parked. -/
theorem inv_step {a : Act L W} (hok : expiryFindsParked s a)
    (hs : step s a = some s') : Inv s' := by
  cases a with
  | park l ts unpark =>
    simp only [step] at hs
    split at hs
    · next hp =>
      have hg := hi.good l
      have ho := hi.own l
      rw [hp] at hg ho
      cases unpark with
      | none => exact some.inj hs ▸ inv_put_pc hi ho rfl hg (.inl rfl)
      | some m =>
        exact some.inj hs ▸ inv_call hi ho (fun _ _ => ⟨rfl, rfl, rfl⟩) ⟨rfl, rfl⟩
          ⟨m, .inl rfl⟩ rfl (by simp) hg
    · cases hs
  | go l => exact inv_go hi hs
  | unpark w l => exact inv_begin hi (.inl ⟨l, .inl rfl⟩) hs
  | wakeup w l => exact inv_begin hi (.inl ⟨l, .inr rfl⟩) hs
  | pass w now => exact inv_begin hi (.inr ⟨now, rfl⟩) hs
  | work c => exact inv_work hi hok hs
  | dispatch =>
    simp only [step] at hs
    split at hs
    · cases hs
    · next l q hq =>
      have hn : (s.num l).runq = q.count l + 1 := by simp [State.num, hq]
      obtain ⟨hp, hv, hh, h1, h2, h3, h4, h5, h6⟩ := good_runq (hi.good l) (by omega)
      have ho := hi.own l
      rw [hp] at ho
      refine some.inj hs ▸ inv_put hi ho rfl (fun m _ => rfl) (fun m hm => ?_) ?_ (.inl rfl)
      · rw [hq, count_cons_of_ne hm.symm]
      · exact ⟨⟨h5, by simp only; omega, h1, h2, h6⟩, hv, hh, h4⟩

end

theorem inv_reach (h : Reach step expiryFindsParked Init s) : Inv s :=
  h.inv (fun _ => inv_init) fun _ _ _ hi hok hs => inv_step hi hok hs

/-! ## Wakeups are delivered -/

/-- Context code that has taken on the wakeup of `l` and not finished with it. -/
def delivering (l : L) : Option (Code L) → Prop
  | some (.callWake m) | some (.wakeTimeq m) | some (.wake m) | some (.passExchange _ m)
  | some (.passWake _ m) => m = l
  | _ => False

omit [Fintype L] in
theorem weights_of_not_delivering (h : ¬ delivering l k) :
    claims l k = 0 ∧ wakes l k = 0 ∧ expires l k = 0 := by
  cases k with
  | none => exact ⟨rfl, rfl, rfl⟩
  | some k => cases k <;> simp_all [claims, wakes, expires, delivering]

omit [DecidableEq W] in
theorem not_delivering (h : ∀ c, ¬ delivering l (s.code c)) :
    (s.num l).claims = 0 ∧ (s.num l).wakes = 0 ∧ (s.num l).expires = 0 := by
  refine ⟨?_, ?_, ?_⟩ <;> refine (wsum_eq_zero_iff _ _).mpr fun c => ?_
  · exact (weights_of_not_delivering (h c)).1
  · exact (weights_of_not_delivering (h c)).2.1
  · exact (weights_of_not_delivering (h c)).2.2

omit [Fintype L] [Fintype W] in
theorem exec_wake (hw : 0 < wakes l (s.code c)) :
    ∃ s', exec step s [.work c] = some s' ∧ l ∈ s'.runq := by
  have hm : l ∈ s.runq ++ [l] := by simp
  rcases wakes_pos.mp hw with hc | ⟨now, hc⟩
  · exact ⟨(s.enqueue l).finish c, by simp [exec, step, work, hc], hm⟩
  · exact ⟨(s.enqueue l).setCode c (.passLoop now), by simp [exec, step, work, hc], hm⟩

theorem exec_wakeTimeq (hi : Inv s) (hl : s.lock = none) (hc : s.code c = some (.wakeTimeq l)) :
    ∃ s', exec step s [.work c, .work c] = some s' ∧ l ∈ s'.runq := by
  have hstep : step s (.work c) = some ({ s with timeq := removeTimeq l s.timeq }.setCode c (.wake l)) := by
    simp [step, work, hc, hl, (waits_at_lock hi hl hc).2.2]
  obtain ⟨s', hs', hm⟩ := exec_wake (s := { s with timeq := removeTimeq l s.timeq }.setCode c (.wake l))
    (wakes_pos.mpr (.inl (update_self ..)))
  exact ⟨s', by rw [exec, hstep]; exact hs', hm⟩

theorem exec_callWake (hi : Inv s) (hl : s.lock = none) (hc : s.code c = some (.callWake l)) :
    ∃ k s', exec step s (replicate k (.work c)) = some s' ∧ l ∈ s'.runq := by
  obtain ⟨-, hw⟩ := waits_of_claims hi (claims_pos.mpr (.inl hc))
  have hfn : (s.rl l).wake = .wake ∨ (s.rl l).wake = .wakeTimeq := by
    rcases hw with hw | hw | hw
    · exact .inl hw.1
    · exact .inr hw.1
    · exact .inr hw.1
  rcases hfn with hf | hf
  · have hstep : step s (.work c) = some (s.setCode c (.wake l)) := by
      simp [step, work, hc, hf]
    obtain ⟨s', hs', hm⟩ := exec_wake (s := s.setCode c (.wake l))
      (wakes_pos.mpr (.inl (update_self ..)))
    exact ⟨2, s', by rw [replicate, exec, hstep]; exact hs', hm⟩
  · have hstep : step s (.work c) = some (s.setCode c (.wakeTimeq l)) := by
      simp [step, work, hc, hf]
    obtain ⟨s', hs', hm⟩ := exec_wakeTimeq
      (inv_callWake hi hc (.inr ⟨hf, rfl⟩)) hl (update_self ..)
    exact ⟨3, s', by rw [replicate, exec, hstep]; exact hs', hm⟩

/-- What a parked LWP that was hit is waiting for. -/
theorem exec_deliver (hi : Inv s) (hl : s.lock = none) (hp : s.pc l = .parked)
    (hh : (s.rl l).hit = true) (hw : (s.rl l).woken = 0) :
    ∃ c k s', exec step s (replicate k (.work c)) = some s' ∧ l ∈ s'.runq := by
  have hg := hi.good l
  have hx := expires_eq_zero hi hl l
  rw [hp] at hg
  rcases hg with ⟨-, -, -, -, -, -, h⟩ | ⟨-, -, ⟨h, -⟩ | ⟨-, h, -⟩ | ⟨-, -, -, h, -⟩⟩
  · have := h hh
    omega
  · obtain ⟨c, hc⟩ := exists_of_wsum_pos (by
      show 0 < (s.num l).claims
      omega)
    rcases claims_pos.mp hc with hk | hk
    · exact ⟨c, exec_callWake hi hl hk⟩
    · exact ⟨c, 2, exec_wakeTimeq hi hl hk⟩
  · obtain ⟨c, hc⟩ := exists_of_wsum_pos (by
      show 0 < (s.num l).wakes
      omega)
    exact ⟨c, 1, exec_wake hc⟩
  · omega

/-- **No wakeup is lost where every expiry finds its thread parked.**  In every
run all of whose steps meet that condition, for every LWP in every state reached:

  * a park call's thread is put on the run queue at most once, and is there once
    at most;
  * scheduled out and hit by an unpark, a wakeup or an expiry, with nobody
    delivering any more, it is on the run queue, and was put there once;
  * scheduled out with a deadline and with nobody delivering, it is on the
    timeout queue or on the run queue;
  * whoever takes it off the timeout queue by `bmk_sched_wake_timeq` finds it
    there and not timed out, so it does enqueue it;
  * hit and not yet enqueued, with the lock free, some context enqueues it by its
    own next steps;
  * it runs again only after it was hit and enqueued. -/
theorem lwp_wakeup_delivered (h : Reach step expiryFindsParked Init s) (l : L) :
    ((s.rl l).woken ≤ 1 ∧ s.runq.count l ≤ 1) ∧
    (s.pc l = .parked → (s.rl l).hit = true → (∀ c, ¬ delivering l (s.code c)) →
      s.runq.count l = 1 ∧ (s.rl l).woken = 1) ∧
    (s.pc l = .parked → (s.rl l).wake = .wakeTimeq → (∀ c, ¬ delivering l (s.code c)) →
      l ∈ s.timeq ∨ l ∈ s.runq) ∧
    (∀ c, s.code c = some (.wakeTimeq l) → s.lock = none →
      l ∈ s.timeq ∧ (s.rl l).timedout = false) ∧
    (s.pc l = .parked → (s.rl l).hit = true → (s.rl l).woken = 0 → s.lock = none →
      ∃ c k s', Trans.exec step s (List.replicate k (.work c)) = some s' ∧ l ∈ s'.runq) ∧
    (s.pc l = .blockRet → (s.rl l).hit = true ∧ (s.rl l).woken = 1) := by
  have hi := inv_reach h
  have hg := hi.good l
  refine ⟨good_once hg, ?_, ?_, ?_, ?_, ?_⟩
  · intro hp hh hd
    obtain ⟨h1, h2, h3⟩ := not_delivering hd
    rw [hp] at hg
    rcases hg with ⟨-, -, -, -, -, -, hx⟩ | ⟨-, -, hd | hd | hd⟩
    · have := hx hh
      omega
    · have := hd.1
      omega
    · omega
    · exact ⟨hd.2.2.1, hd.2.2.2.1⟩
  · intro hp hf hd
    obtain ⟨h1, h2, h3⟩ := not_delivering hd
    rw [hp] at hg
    rcases hg with ⟨-, hw, -⟩ | ⟨-, -, hd | hd | hd⟩
    · refine .inl (count_pos_iff.mp ?_)
      rcases hw with hw | hw | hw
      · rw [hf] at hw; exact absurd hw.1 (by simp)
      · exact Nat.lt_of_lt_of_eq Nat.one_pos hw.2.1.symm
      · omega
    · have := hd.1
      omega
    · omega
    · exact .inr (count_pos_iff.mp (Nat.lt_of_lt_of_eq Nat.one_pos hd.2.2.1.symm))
  · intro c hc hl
    obtain ⟨-, hq, ht⟩ := waits_at_lock hi hl hc
    exact ⟨count_pos_iff.mp (Nat.lt_of_lt_of_eq Nat.one_pos hq.symm), ht⟩
  · intro hp hh hw hl
    exact exec_deliver hi hl hp hh hw
  · intro hp
    rw [hp] at hg
    exact hg.2.2

end Step

end

/-! ## The lost thread -/

/-- One LWP and one other CPU. -/
def fresh : State (Fin 1) (Fin 1) where
  rl _ := { value := maskPark, wake := .null, wakeupTime := 0, timedout := false, rv := .ok,
            hit := false, woken := 0 }
  pc _ := .run
  code _ := none
  runq := []
  timeq := []
  lock := none

theorem fresh_init : Init fresh :=
  ⟨fun _ => ⟨rfl, rfl, rfl⟩, fun _ => rfl, rfl, rfl, rfl⟩

/-- The timeout pass runs after the callback is done: the LWP is woken once. -/
theorem lwp_timeout_delivered : ∃ s : State (Fin 1) (Fin 1),
    Reach step expiryFindsParked Init s ∧ s.pc 0 = .parked ∧ (s.rl 0).timedout = true ∧
    s.runq.count 0 = 1 ∧ (s.rl 0).woken = 1 := by
  obtain ⟨s, hreach, hp, ht, hh, hc⟩ := run_finds step expiryFindsParked Init
    (fun s => s.pc 0 = .parked ∧ (s.rl 0).timedout = true ∧ (s.rl 0).hit = true ∧
      ∀ c, s.code c = none)
    (.park 0 (some 5) none :: (replicate 6 (Act.go 0)).append
      (.pass 0 10 :: replicate 5 (.work (.inr 0)))) fresh_init (by decide) (by decide)
  have key := (lwp_wakeup_delivered hreach 0).2.1 hp hh (fun c => by rw [hc c]; exact id)
  exact ⟨s, hreach, hp, ht, key⟩

/-- **A timeout that expires inside the callback loses the thread.**  The other
CPU's timeout pass takes the LWP off the queue between `bmk_insert_timeq` and the
fetch-xor of `_lwp_park_callback`: its exchange does not find 0 and it leaves the
wakeup to the callback, which sees `bt_timedout` and leaves it to the pass.  The
LWP is scheduled out, was hit by the expiry, nobody is in waking code, and it is
on no queue. -/
theorem lwp_park_timeout_lost : ∃ s : State (Fin 1) (Fin 1),
    Reach step Trans.any Init s ∧ s.pc 0 = .parked ∧ (s.rl 0).wake = .wakeTimeq ∧
    (s.rl 0).hit = true ∧ (s.rl 0).woken = 0 ∧ (∀ c, s.code c = none) ∧ s.runq = [] ∧
    s.timeq = [] := by
  exact any_finds step Init _
    (.park 0 (some 5) none :: (replicate 5 (Act.go 0)).append (.pass 0 10 ::
      (replicate 4 (Act.work (.inr 0))).append [.go 0, .work (.inl 0), .work (.inl 0)]))
    fresh_init (by decide)

end Librettos.Lwp
