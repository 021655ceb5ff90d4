/-
# `Rumpuser.Mutex` — the kernel mutex of `rumpuser_synch.c`

A `rumpuser_mtx` is a counter and a block queue.  Entering adds one to the
counter; whoever found zero owns the mutex, everybody else blocks.  Leaving
subtracts one, and if that was not the last one hands the mutex to a waiter by
`bmk_block_queue_wake` — a waiter that may not have reached the queue yet, since
its callback only runs after the context switch.  `rumpuser_mutex_tryenter` and
the spinning `rumpuser_mutex_enter_nowrap` compete on the same counter with a
compare-exchange from zero.

Every atomic operation of the five functions is one step here, as are the
post-switch callback, the wake and the return of a woken thread; the label of a
step names the thread and says whether a weak compare-exchange fails for no
reason.  The block queue is taken at its specification (`Core.BlockQueue`).

**Proved here.**  In every reachable state, for any number of threads
(`mutex_exclusion_handoff`):

    at most one thread holds the mutex
    counter = holders + threads that added one and have not acquired
    counter > 0 and no holder  ⟹  exactly one handoff is on its way
    tryenter succeeds only on a counter of zero
-/
import Librettos.Lib.Trans
import Librettos.Lib.Count
import Librettos.Core.BlockQueue

namespace Librettos.Mutex

open Function (update update_eq_self update_of_ne)
open Count Trans

/-- The five entry points. -/
inductive Op where
  | mutexEnter | cvMutexEnter | mutexEnterNowrap | mutexTryenter | mutexExit
  deriving DecidableEq, Repr

/-- Where a thread stands.  `wrap` tells `rumpuser_mutex_enter`, which gives up
the rump kernel CPU around the block, from `cv_mutex_enter`, which does not. -/
inductive Pc where
  | idle
  | enterAdd (wrap : Bool)
  | enterUnsched
  | enterSwitch (wrap : Bool)
  | enterQueued (wrap : Bool)
  | enterReady (wrap : Bool)
  | enterSched
  | setOwner
  | spinLoad
  | spinCas
  | tryLoad
  | tryCas
  | exitOwner
  | exitSub
  | exitWake
  deriving DecidableEq, Repr

/-- `BMK_EBUSY`. -/
def ebusy : Nat := 16

/-- The mutex and the threads that use it.  `holds` is the ghost that says who
has acquired and not yet given back; `ret` is the last value tryenter returned. -/
structure State (T Lwp : Type*) where
  counter : Nat
  owner : Option Lwp
  queue : BlockQueue T
  pc : T → Pc
  holds : T → Bool
  ret : T → Nat

/-- A step: thread `t` calls a function, or takes its next atomic step; `fail`
is a spurious failure of a weak compare-exchange. -/
inductive Act (T : Type*) where
  | call (t : T) (op : Op)
  | go (t : T) (fail : Bool)

section
variable {T Lwp : Type*} [DecidableEq T]

/-- Thread `t` moves on to `p`. -/
def State.goto (s : State T Lwp) (t : T) (p : Pc) : State T Lwp :=
  { s with pc := update s.pc t p }

/-- Thread `t` has acquired the mutex and moves on to `p`. -/
def State.acquire (s : State T Lwp) (t : T) (p : Pc) : State T Lwp :=
  { s with pc := update s.pc t p, holds := update s.holds t true }

/-- The first test of each function; a spin mutex sends both enters to the
spinning one. -/
def start (spin : Bool) : Op → Pc
  | .mutexEnter => if spin then .spinLoad else .enterAdd true
  | .cvMutexEnter => if spin then .spinLoad else .enterAdd false
  | .mutexEnterNowrap => .spinLoad
  | .mutexTryenter => .tryLoad
  | .mutexExit => .exitOwner

/-- A waiter taken off the queue is on its run queue. -/
def woken : Pc → Pc
  | .enterQueued wrap => .enterReady wrap
  | p => p

/-- One atomic step of thread `t`. -/
def go (lwp : T → Option Lwp) (s : State T Lwp) (t : T) (fail : Bool) : Option (State T Lwp) :=
  match s.pc t with
  | .idle => none
  | .enterAdd wrap =>
    -- `atomic_fetch_add(&mtx->counter, 1) != 0`
    if s.counter = 0 then some ({ s with counter := 1 }.acquire t .setOwner)
    else some ({ s with counter := s.counter + 1 }.goto t
      (if wrap then .enterUnsched else .enterSwitch false))
  | .enterUnsched => some (s.goto t (.enterSwitch true))
  | .enterSwitch wrap =>
    -- the callback, run by whoever the CPU switched to
    if (s.queue.block t).2 then some ({ s with queue := (s.queue.block t).1 }.goto t (.enterQueued wrap))
    else some ({ s with queue := (s.queue.block t).1 }.goto t (.enterReady wrap))
  | .enterQueued _ => none
  | .enterReady wrap => some (s.acquire t (if wrap then .enterSched else .setOwner))
  | .enterSched => some (s.goto t .setOwner)
  | .setOwner => some ({ s with owner := lwp t, ret := update s.ret t 0 }.goto t .idle)
  | .spinLoad => some (s.goto t (if s.counter = 0 then .spinCas else .spinLoad))
  | .spinCas =>
    if s.counter = 0 ∧ fail = false then some ({ s with counter := 1 }.acquire t .setOwner)
    else some (s.goto t .spinLoad)
  | .tryLoad =>
    if s.counter = 0 then some (s.goto t .tryCas)
    else some ({ s with ret := update s.ret t ebusy }.goto t .idle)
  | .tryCas =>
    if s.counter = 0 then
      if fail then some (s.goto t .tryCas)
      else some ({ s with counter := 1 }.acquire t .setOwner)
    else some ({ s with ret := update s.ret t ebusy }.goto t .idle)
  | .exitOwner => some ({ s with owner := none }.goto t .exitSub)
  | .exitSub =>
    -- `atomic_fetch_sub(&mtx->counter, 1) != 1`
    some { s with
      counter := s.counter - 1
      holds := update s.holds t false
      pc := update s.pc t (if s.counter = 1 then .idle else .exitWake) }
  | .exitWake =>
    match s.queue.wake.2 with
    | none => some ({ s with queue := s.queue.wake.1 }.goto t .idle)
    | some u => some (({ s with queue := s.queue.wake.1 }.goto t .idle).goto u (woken (s.pc u)))

/-- The transition function.  A call needs the thread to be between calls, and an
exit is the holder's. -/
def step (spin : Bool) (lwp : T → Option Lwp) (s : State T Lwp) : Act T → Option (State T Lwp)
  | .call t op =>
    if s.pc t = .idle ∧ (op = .mutexExit → s.holds t = true) then some (s.goto t (start spin op))
    else none
  | .go t fail => go lwp s t fail

/-- `rumpuser_mutex_init`, before any thread has called. -/
def Init (s : State T Lwp) : Prop :=
  s.counter = 0 ∧ s.queue = BlockQueue.empty ∧ (∀ t, s.pc t = .idle) ∧ ∀ t, s.holds t = false

end

/-! ## Counting the threads

The four numbers the invariant relates: who holds, who has added one and not
acquired, who is about to wake somebody, who has been woken. -/

/-- Added one to the counter, not acquired. -/
def entering : Pc → Nat
  | .enterUnsched | .enterSwitch _ | .enterQueued _ | .enterReady _ => 1
  | _ => 0

/-- Taken off the queue, not yet running. -/
def ready : Pc → Nat
  | .enterReady _ => 1
  | _ => 0

/-- Gave the mutex back and owes a wake. -/
def waking : Pc → Nat
  | .exitWake => 1
  | _ => 0

/-- In `rumpuser_mutex_exit`, before the fetch-sub. -/
def leaving : Pc → Bool
  | .exitOwner | .exitSub => true
  | _ => false

section
variable {T Lwp : Type*} [Fintype T]

/-- How many threads hold the mutex. -/
def State.holders (s : State T Lwp) : Nat := wsum Bool.toNat s.holds

/-- How many threads did the fetch-add and have not acquired. -/
def State.entrants (s : State T Lwp) : Nat := wsum entering s.pc

/-- The handoffs on their way: wakes owed, wakes banked, threads released. -/
def State.handoffs (s : State T Lwp) : Nat :=
  wsum waking s.pc + s.queue.pending + wsum ready s.pc

/-- The invariant of the mutex. -/
structure Inv (s : State T Lwp) : Prop where
  /-- the counter counts holders and entrants -/
  count : s.counter = s.holders + s.entrants
  /-- one token as long as the counter is positive: held, or on its way -/
  token : s.holders + s.handoffs = if s.counter = 0 then 0 else 1
  nodup : s.queue.waiters.Nodup
  queued : ∀ t, t ∈ s.queue.waiters ↔ ∃ wrap, s.pc t = .enterQueued wrap
  leaver : ∀ t, leaving (s.pc t) = true → s.holds t = true

theorem inv_init {s : State T Lwp} (h : Init s) : Inv s := by
  obtain ⟨hc, hq, hpc, hh⟩ := h
  have hH : s.holders = 0 := (wsum_eq_zero_iff _ _).mpr fun t => by simp [hh t]
  have hE : s.entrants = 0 := (wsum_eq_zero_iff _ _).mpr fun t => by simp [hpc t, entering]
  have hW : wsum waking s.pc = 0 := (wsum_eq_zero_iff _ _).mpr fun t => by simp [hpc t, waking]
  have hR : wsum ready s.pc = 0 := (wsum_eq_zero_iff _ _).mpr fun t => by simp [hpc t, ready]
  refine ⟨by omega, ?_, by simp [hq, BlockQueue.empty], fun t => ?_, fun t ht => ?_⟩
  · simp [State.handoffs, hH, hW, hR, hc, hq, BlockQueue.empty]
  · simp [hq, BlockQueue.empty, hpc t]
  · simp [hpc t, leaving] at ht

/-! ## One step

A step moves one thread, and a wake moves a second one.  `Moved` collects what a
move does to the four numbers; each case of the step lemma reads its arithmetic
off it. -/

variable [DecidableEq T] {s s' : State T Lwp} {t : T}
variable {p : Pc} {lwp : T → Option Lwp}

theorem moved {b : Bool} (hpc : s'.pc = update s.pc t p) (hh : s'.holds = update s.holds t b) :
    s'.holders + (s.holds t).toNat = s.holders + b.toNat ∧
    s'.entrants + entering (s.pc t) = s.entrants + entering p ∧
    wsum waking s'.pc + waking (s.pc t) = wsum waking s.pc + waking p ∧
    wsum ready s'.pc + ready (s.pc t) = wsum ready s.pc + ready p := by
  refine ⟨?_, ?_, ?_, ?_⟩
  · rw [State.holders, hh]; exact wsum_update _ _ _ _
  · rw [State.entrants, hpc]; exact wsum_update _ _ _ _
  · rw [hpc]; exact wsum_update _ _ _ _
  · rw [hpc]; exact wsum_update _ _ _ _

section
variable (h : Inv s)
include h

theorem queued_of_move (hpc : s'.pc = update s.pc t p)
    (hq : s'.queue.waiters = s.queue.waiters) (h0 : ∀ w, s.pc t ≠ .enterQueued w)
    (h1 : ∀ w, p ≠ .enterQueued w) (u : T) :
    u ∈ s'.queue.waiters ↔ ∃ wrap, s'.pc u = .enterQueued wrap := by
  rw [hq, h.queued u, hpc]
  by_cases hu : u = t
  · subst hu; simp [h0, h1]
  · simp [update_of_ne hu]

theorem leaver_of_move {b : Bool} (hpc : s'.pc = update s.pc t p)
    (hh : s'.holds = update s.holds t b) (hp : leaving p = true → b = true) (u : T) :
    leaving (s'.pc u) = true → s'.holds u = true := by
  rw [hpc, hh]
  by_cases hu : u = t
  · subst hu; simpa using hp
  · simpa [update_of_ne hu] using h.leaver u

/-- One thread moves and the queue stays: what is left to show are the two counts. -/
theorem inv_move {b : Bool} (hpc : s'.pc = update s.pc t p) (hh : s'.holds = update s.holds t b)
    (hq : s'.queue = s.queue) (h0 : ∀ w, s.pc t ≠ .enterQueued w) (h1 : ∀ w, p ≠ .enterQueued w)
    (hl : leaving p = true → b = true) (hcount : s'.counter = s'.holders + s'.entrants)
    (htoken : s'.holders + s'.handoffs = if s'.counter = 0 then 0 else 1) : Inv s' :=
  ⟨hcount, htoken, hq ▸ h.nodup, queued_of_move h hpc (by rw [hq]) h0 h1, leaver_of_move h hpc hh hl⟩

/-- **The quiet move.**  Neither the counter nor the queue changes, nor any of
the four numbers: the steps that only load, compare or record the owner. -/
theorem inv_quiet (hpc : s'.pc = update s.pc t p)
    (hh : s'.holds = s.holds) (hc : s'.counter = s.counter) (hq : s'.queue = s.queue)
    (hw : entering p = entering (s.pc t) ∧ waking p = waking (s.pc t) ∧ ready p = ready (s.pc t))
    (h0 : ∀ w, s.pc t ≠ .enterQueued w) (h1 : ∀ w, p ≠ .enterQueued w)
    (hl : leaving p = true → s.holds t = true) : Inv s' := by
  have hh' : s'.holds = update s.holds t (s.holds t) := by
    rw [hh, update_eq_self]
  obtain ⟨mH, mE, mW, mR⟩ := moved hpc hh'
  have hcount := h.count
  have htoken := h.token
  refine inv_move h hpc hh' hq h0 h1 hl (by omega) ?_
  simp only [State.handoffs] at htoken ⊢
  rw [hc, hq, ← htoken]
  omega

/-- **The acquisition.**  From a counter of zero: by the fetch-add of an enter or
the compare-exchange of a spin or try. -/
theorem inv_grab (hpc : s'.pc = update s.pc t .setOwner)
    (hh : s'.holds = update s.holds t true) (h0 : s.counter = 0) (hc : s'.counter = 1)
    (hq : s'.queue = s.queue) (hp : ∀ w, s.pc t ≠ .enterQueued w) : Inv s' := by
  obtain ⟨mH, mE, mW, mR⟩ := moved hpc hh
  have hcount := h.count
  have htoken := h.token
  have lH : (s.holds t).toNat ≤ s.holders := le_wsum _ _ _
  simp only [State.handoffs, h0, if_true] at htoken
  simp only [entering, waking, ready, Bool.toNat_true] at mH mE mW mR
  refine inv_move h hpc hh hq hp (by simp) (by simp) (by omega) ?_
  simp only [State.handoffs, hc, hq, Nat.one_ne_zero, if_false]
  omega

/-- **The fetch-add that found somebody.**  One more entrant. -/
theorem inv_join (hpc : s'.pc = update s.pc t p)
    (hh : s'.holds = s.holds) (h0 : s.counter ≠ 0) (hc : s'.counter = s.counter + 1)
    (hq : s'.queue = s.queue) (hw : entering p = 1 ∧ waking p = 0 ∧ ready p = 0)
    (hv : entering (s.pc t) = 0 ∧ waking (s.pc t) = 0 ∧ ready (s.pc t) = 0)
    (hp : ∀ w, s.pc t ≠ .enterQueued w) (hp' : ∀ w, p ≠ .enterQueued w)
    (hl : leaving p = false) : Inv s' := by
  have hh' : s'.holds = update s.holds t (s.holds t) := by
    rw [hh, update_eq_self]
  obtain ⟨mH, mE, mW, mR⟩ := moved hpc hh'
  have hcount := h.count
  have htoken := h.token
  simp only [State.handoffs, if_neg h0] at htoken
  refine inv_move h hpc hh' hq hp hp' (by simp [hl]) (by omega) ?_
  rw [if_neg (by omega)]
  simp only [State.handoffs, hq]
  omega

/-- **The callback.**  The thread is queued, or uses up a banked wake. -/
theorem inv_callback {wrap : Bool} (hp : s.pc t = .enterSwitch wrap) (hpc : s'.pc = update s.pc t
      (if (s.queue.block t).2 then .enterQueued wrap else .enterReady wrap))
    (hh : s'.holds = s.holds) (hc : s'.counter = s.counter)
    (hq : s'.queue = (s.queue.block t).1) : Inv s' := by
  have hh' : s'.holds = update s.holds t (s.holds t) := by
    rw [hh, update_eq_self]
  obtain ⟨mH, mE, mW, mR⟩ := moved hpc hh'
  have hcount := h.count
  have htoken := h.token
  have hnot : t ∉ s.queue.waiters := by simp [h.queued t, hp]
  rw [hp] at mE mW mR
  rcases s.queue.block_cases t with ⟨hz, hb, hw, hz'⟩ | ⟨hpos, hb, hnil, hw, hz'⟩
  · -- nobody's wake was banked: the thread goes to the end of the queue
    rw [hb, if_pos rfl] at hpc mE mW mR
    simp only [entering, waking, ready] at mE mW mR
    refine ⟨by omega, ?_, ?_, fun u => ?_, leaver_of_move h hpc hh' (by simp [leaving])⟩
    · simp only [State.handoffs] at htoken ⊢
      rw [hc, ← htoken, hq]
      omega
    · rw [hq, hw]
      exact List.nodup_append.mpr ⟨h.nodup, List.nodup_singleton t, by
        intro a ha b hb'
        rw [List.mem_singleton.mp hb']
        exact fun hab => hnot (hab ▸ ha)⟩
    · rw [hq, hw, hpc]
      by_cases hu : u = t
      · subst hu; simp
      · simp [hu, h.queued u]
  · -- a banked wake is used up: the thread is released at once
    rw [hb, if_neg Bool.false_ne_true] at hpc mE mW mR
    simp only [entering, waking, ready] at mE mW mR
    refine ⟨by omega, ?_, by rw [hq, hw]; exact List.nodup_nil,
      queued_of_move h hpc (by rw [hq, hw, hnil]) (by simp [hp]) (by simp),
      leaver_of_move h hpc hh' (by simp [leaving])⟩
    simp only [State.handoffs] at htoken ⊢
    rw [hc, ← htoken, hq]
    omega

/-- **The return of a woken thread**, which now holds the mutex. -/
theorem inv_resume {wrap : Bool} (hp : s.pc t = .enterReady wrap)
    (hpc : s'.pc = update s.pc t p) (hh : s'.holds = update s.holds t true)
    (hc : s'.counter = s.counter) (hq : s'.queue = s.queue)
    (hw : entering p = 0 ∧ waking p = 0 ∧ ready p = 0) (hp' : ∀ w, p ≠ .enterQueued w) :
    Inv s' := by
  obtain ⟨mH, mE, mW, mR⟩ := moved hpc hh
  have hcount := h.count
  have htoken := h.token
  have lE : entering (s.pc t) ≤ s.entrants := le_wsum _ _ _
  have lR : ready (s.pc t) ≤ wsum ready s.pc := le_wsum _ _ _
  have lH : (s.holds t).toNat ≤ s.holders := le_wsum _ _ _
  rw [hw.1] at mE
  rw [hw.2.1] at mW
  rw [hw.2.2] at mR
  simp only [hp, entering, waking, ready, Bool.toNat_true] at mH mE mW mR lE lR
  simp only [State.handoffs] at htoken
  have hc0 : s.counter ≠ 0 := by omega
  rw [if_neg hc0] at htoken
  refine inv_move h hpc hh hq (by simp [hp]) hp' (by simp) (by omega) ?_
  rw [hc, if_neg hc0]
  simp only [State.handoffs, hq]
  omega

/-- **The fetch-sub of an exit.**  Whoever was not alone owes a wake. -/
theorem inv_sub (hp : s.pc t = .exitSub)
    (hpc : s'.pc = update s.pc t (if s.counter = 1 then .idle else .exitWake))
    (hh : s'.holds = update s.holds t false) (hc : s'.counter = s.counter - 1)
    (hq : s'.queue = s.queue) : Inv s' := by
  obtain ⟨mH, mE, mW, mR⟩ := moved hpc hh
  have hcount := h.count
  have htoken := h.token
  have hheld : s.holds t = true := h.leaver t (by simp [hp, leaving])
  have lH : (s.holds t).toNat ≤ s.holders := le_wsum _ _ _
  rw [hheld] at mH lH
  rw [hp] at mE mW mR
  simp only [Bool.toNat_true, Bool.toNat_false] at mH lH
  simp only [State.handoffs] at htoken
  rw [if_neg (by omega)] at htoken
  by_cases h1 : s.counter = 1
  · rw [if_pos h1] at hpc mE mW mR
    simp only [entering, waking, ready] at mE mW mR
    refine inv_move h hpc hh hq (by simp [hp]) (by simp) (by simp [leaving]) (by omega) ?_
    rw [if_pos (by omega)]
    simp only [State.handoffs, hq]
    omega
  · rw [if_neg h1] at hpc mE mW mR
    simp only [entering, waking, ready] at mE mW mR
    refine inv_move h hpc hh hq (by simp [hp]) (by simp) (by simp [leaving]) (by omega) ?_
    rw [if_neg (by omega)]
    simp only [State.handoffs, hq]
    omega

/-- **The wake of an exit.**  The oldest waiter is released, or the wake is banked. -/
theorem inv_wake (hp : s.pc t = .exitWake) (hh : s'.holds = s.holds)
    (hc : s'.counter = s.counter) (hq : s'.queue = s.queue.wake.1)
    (hpc : s'.pc = match s.queue.wake.2 with
      | none => update s.pc t .idle
      | some u => update (update s.pc t .idle) u (woken (s.pc u))) :
    Inv s' := by
  have hcount := h.count
  have htoken := h.token
  have hH : s'.holders = s.holders := by rw [State.holders, hh]; rfl
  rcases s.queue.wake_cases with ⟨hnil, hn, hw, hz⟩ | ⟨u, us, hcons, hn, hw, hz, hz0⟩
  · -- the queue is empty: the handoff is banked for the waiter still on its way
    simp only [hn] at hpc
    have hh' : s'.holds = update s.holds t (s.holds t) := by
      rw [hh, update_eq_self]
    obtain ⟨-, mE, mW, mR⟩ := moved hpc hh'
    simp only [hp, entering, waking, ready] at mE mW mR
    refine ⟨by omega, ?_, by rw [hq, hw]; exact List.nodup_nil,
      queued_of_move h hpc (by rw [hq, hw, hnil]) (by simp [hp]) (by simp),
      leaver_of_move h hpc hh' (by simp [leaving])⟩
    simp only [State.handoffs] at htoken ⊢
    rw [hc, ← htoken, hq]
    omega
  · -- the oldest waiter goes to its run queue
    obtain ⟨wrap, hu⟩ := (h.queued u).mp (by simp [hcons])
    have hut : u ≠ t := fun e => by rw [e, hp] at hu; exact Pc.noConfusion hu
    simp only [hn, hu, woken] at hpc
    have eE := wsum_update entering s.pc t .idle
    have eW := wsum_update waking s.pc t .idle
    have eR := wsum_update ready s.pc t .idle
    have fE := wsum_update entering (update s.pc t .idle) u (.enterReady wrap)
    have fW := wsum_update waking (update s.pc t .idle) u (.enterReady wrap)
    have fR := wsum_update ready (update s.pc t .idle) u (.enterReady wrap)
    rw [update_of_ne hut, ← hpc] at fE fW fR
    simp only [hp, hu, entering, waking, ready] at eE eW eR fE fW fR
    have hnd := h.nodup
    rw [hcons, List.nodup_cons] at hnd
    refine ⟨?_, ?_, by rw [hq, hw]; exact hnd.2, fun v => ?_, fun v hv => ?_⟩
    · rw [hc, hcount, hH, State.entrants, State.entrants]
      omega
    · simp only [State.handoffs] at htoken ⊢
      rw [hc, ← htoken, hq, hH]
      omega
    · rw [hq, hw, hpc]
      have hmem := h.queued v
      rw [hcons, List.mem_cons] at hmem
      by_cases hvu : v = u
      · subst hvu; simp [hnd.1]
      · rw [update_of_ne hvu]
        by_cases hvt : v = t
        · subst hvt; simpa [hvu, hp] using hmem
        · simpa [update_of_ne hvt, hvu] using hmem
    · rw [hpc] at hv
      rw [hh]
      by_cases hvu : v = u
      · subst hvu; simp [leaving] at hv
      · rw [update_of_ne hvu] at hv
        by_cases hvt : v = t
        · subst hvt; simp [leaving] at hv
        · exact h.leaver v (by simpa [update_of_ne hvt] using hv)

/-- Every step keeps the invariant: one case per point of the program. -/
theorem inv_go {fail : Bool} (hs : go lwp s t fail = some s') : Inv s' := by
  cases hp : s.pc t with
  | idle | enterQueued => simp [go, hp] at hs
  | enterAdd wrap =>
    simp only [go, hp] at hs
    split at hs
    · next h0 =>
        cases hs
        exact inv_grab h rfl rfl h0 rfl rfl (by simp [hp])
    · next h0 =>
        cases hs
        refine inv_join h rfl rfl h0 rfl rfl ?_ (by simp [hp, entering, waking, ready])
          (by simp [hp]) ?_ ?_ <;> cases wrap <;> simp [entering, waking, ready, leaving]
  | enterUnsched | enterSched | setOwner =>
    simp only [go, hp] at hs
    cases hs
    exact inv_quiet h rfl rfl rfl rfl (by simp [hp, entering, waking, ready]) (by simp [hp])
      (by simp) (by simp [leaving])
  | enterSwitch wrap =>
    simp only [go, hp] at hs
    split at hs
    · next hb =>
        cases hs
        exact inv_callback h hp (by simp [hb, State.goto]) rfl rfl rfl
    · next hb =>
        cases hs
        exact inv_callback h hp (by simp [hb, State.goto]) rfl rfl rfl
  | enterReady wrap =>
    simp only [go, hp] at hs
    cases hs
    refine inv_resume h hp rfl rfl rfl rfl ?_ ?_ <;> cases wrap <;>
      simp [entering, waking, ready]
  | spinLoad =>
    simp only [go, hp] at hs
    cases hs
    refine inv_quiet h rfl rfl rfl rfl ?_ (by simp [hp]) ?_ ?_ <;> split <;>
      simp [hp, entering, waking, ready, leaving]
  | spinCas =>
    simp only [go, hp] at hs
    split at hs
    · next h0 =>
        cases hs
        exact inv_grab h rfl rfl h0.1 rfl rfl (by simp [hp])
    · cases hs
      exact inv_quiet h rfl rfl rfl rfl (by simp [hp, entering, waking, ready]) (by simp [hp])
        (by simp) (by simp [leaving])
  | tryLoad =>
    simp only [go, hp] at hs
    split at hs <;> cases hs <;>
      exact inv_quiet h rfl rfl rfl rfl (by simp [hp, entering, waking, ready]) (by simp [hp])
        (by simp) (by simp [leaving])
  | tryCas =>
    simp only [go, hp] at hs
    split at hs
    · next h0 =>
        split at hs
        · cases hs
          exact inv_quiet h rfl rfl rfl rfl (by simp [hp, entering, waking, ready])
            (by simp [hp]) (by simp) (by simp [leaving])
        · cases hs
          exact inv_grab h rfl rfl h0 rfl rfl (by simp [hp])
    · cases hs
      exact inv_quiet h rfl rfl rfl rfl (by simp [hp, entering, waking, ready]) (by simp [hp])
        (by simp) (by simp [leaving])
  | exitOwner =>
    simp only [go, hp] at hs
    cases hs
    exact inv_quiet h rfl rfl rfl rfl (by simp [hp, entering, waking, ready]) (by simp [hp])
      (by simp) fun _ => h.leaver t (by simp [hp, leaving])
  | exitSub =>
    simp only [go, hp] at hs
    cases hs
    exact inv_sub h hp rfl rfl rfl rfl
  | exitWake =>
    simp only [go, hp] at hs
    split at hs
    · next hn =>
        cases hs
        exact inv_wake h hp rfl rfl rfl (by simp [hn, State.goto])
    · next u hn =>
        cases hs
        exact inv_wake h hp rfl rfl rfl (by simp [hn, State.goto])

theorem inv_step {spin : Bool} {a : Act T} (hs : step spin lwp s a = some s') : Inv s' := by
  cases a with
  | go t fail => exact inv_go h hs
  | call t op =>
    simp only [step] at hs
    split at hs
    · next hcall =>
        cases hs
        refine inv_quiet h rfl rfl rfl rfl ?_ (by simp [hcall.1]) ?_ ?_ <;> cases op <;>
          cases spin <;> simp_all [start, entering, waking, ready, leaving]
    · cases hs

end

theorem inv_reach {spin : Bool} (h : Reach (step spin lwp) Trans.any Init s) : Inv s :=
  h.inv (fun _ => inv_init) fun _ _ _ hi _ hs => inv_step hi hs

/-! ## Mutual exclusion and the handoff -/

/-- At a compare-exchange or at the load before it, in tryenter. -/
def trying : Pc → Bool
  | .tryLoad | .tryCas => true
  | _ => false

/-- Added one to the counter and not yet on the queue: the thread is about to be
switched out, or its callback has not run. -/
def arriving : Pc → Bool
  | .enterUnsched | .enterSwitch _ => true
  | _ => false

/-- An entrant is on its way to the queue, on it, or released from it. -/
theorem entering_cases (p : Pc) (h : 0 < entering p) :
    arriving p = true ∨ (∃ w, p = .enterQueued w) ∨ ready p = 1 := by
  cases p <;> simp_all [entering, arriving, ready]

omit [DecidableEq T] in
/-- A banked handoff has somebody to go to, who is still on the way. -/
theorem Inv.arriving_of_pending (h : Inv s) (hpos : 0 < s.queue.pending) :
    ∃ t, arriving (s.pc t) = true := by
  have hcount := h.count
  have htoken := h.token
  simp only [State.handoffs] at htoken
  have hc : s.counter ≠ 0 := by
    intro h0
    rw [if_pos h0] at htoken
    omega
  rw [if_neg hc] at htoken
  obtain ⟨t, ht⟩ := exists_of_wsum_pos (show 0 < wsum entering s.pc by
    simp only [State.entrants] at hcount
    omega)
  have hr : ready (s.pc t) ≤ wsum ready s.pc := le_wsum _ _ _
  rcases entering_cases _ ht with ha | hq | hr'
  · exact ⟨t, ha⟩
  · have hmem := (h.queued t).mpr hq
    rw [BlockQueue.waiters_eq_nil (Nat.ne_of_gt hpos)] at hmem
    exact absurd hmem List.not_mem_nil
  · omega

omit [Fintype T] in
theorem tryenter_zero {fail : Bool} (ht : trying (s.pc t) = true)
    (hs : go lwp s t fail = some s') (hok : s'.pc t = .setOwner) :
    s.counter = 0 ∧ s'.counter = 1 := by
  cases hp : s.pc t with
  | tryLoad =>
    simp only [go, hp] at hs
    split at hs <;> cases hs <;> simp [State.goto] at hok
  | tryCas =>
    simp only [go, hp] at hs
    split at hs
    · next h0 =>
        split at hs <;> cases hs
        · simp [State.goto] at hok
        · exact ⟨h0, rfl⟩
    · cases hs
      simp [State.goto] at hok
  | _ => simp [hp, trying] at ht

/-- **Mutual exclusion and no lost handoff.**  In every state that any number of
threads can reach by any interleaving of the five functions: one holder at most;
the counter counts the holder and the entrants; a positive counter without a
holder has exactly one handoff on its way, with somebody to take it; and a
tryenter succeeds only on zero. -/
theorem mutex_exclusion_handoff {spin : Bool} {lwp : T → Option Lwp}
    (h : Reach (step spin lwp) Trans.any Init s) :
    (∀ t u, s.holds t = true → s.holds u = true → t = u) ∧
    s.counter = s.holders + s.entrants ∧
    (0 < s.counter → s.holders = 0 →
      s.handoffs = 1 ∧ 0 < s.entrants ∧
      (0 < s.queue.pending → ∃ t, arriving (s.pc t) = true)) ∧
    (∀ t fail s', trying (s.pc t) = true → step spin lwp s (.go t fail) = some s' →
      s'.pc t = .setOwner → s.counter = 0 ∧ s'.counter = 1) := by
  have hi := inv_reach h
  have htoken := hi.token
  have hcount := hi.count
  refine ⟨fun t u ht hu => ?_, hcount, fun hpos h0 => ⟨?_, by omega, hi.arriving_of_pending⟩,
    fun t fail s' ht hs hok => tryenter_zero ht hs hok⟩
  · refine eq_of_wsum_le_one (f := Bool.toNat) (g := s.holds) ?_ (by simp [ht]) (by simp [hu])
    have : s.holders ≤ 1 := by split at htoken <;> omega
    exact this
  · rw [if_neg (by omega)] at htoken
    omega

end

/-- Two threads, neither in a call. -/
def fresh : State (Fin 2) Unit :=
  { counter := 0, owner := none, queue := .empty, pc := fun _ => .idle, holds := fun _ => false,
    ret := fun _ => 0 }

theorem fresh_init : Init fresh := ⟨rfl, rfl, fun _ => rfl, fun _ => rfl⟩

/-- Thread 0 enters, thread 1 blocks behind it, thread 0 leaves up to its wake:
the handoff is under way and nobody holds the mutex. -/
theorem mutex_handoff_run : ∃ s : State (Fin 2) Unit,
    Reach (step false fun _ => none) Trans.any Init s ∧ s.counter = 1 ∧ s.holders = 0 ∧
      s.handoffs = 1 := by
  obtain ⟨s, hr, hcount, hholds⟩ := any_finds (step false fun _ => none) Init
    (fun s => s.counter = 1 ∧ ∀ t, s.holds t = false)
    [.call 0 .mutexEnter, .go 0 false, .go 0 false, .call 1 .cvMutexEnter, .go 1 false,
     .call 0 .mutexExit, .go 0 false, .go 0 false] fresh_init (by decide)
  have h0 : s.holders = 0 := (wsum_eq_zero_iff _ _).mpr fun t => by rw [hholds]; rfl
  have key := (mutex_exclusion_handoff hr).2.2.1 (by omega) h0
  exact ⟨s, hr, hcount, h0, key.1⟩

end Librettos.Mutex
