/-
# `Core.SchedInv` — what the states of the scheduler have in common

Four things are kept apart.

    `Fits`        the control point of a slot goes with its place
    `Owns`        a thread at a point that needs a mutex has it; `CallbackOk` for callbacks
    `WaiterOk`    who is on the list of a condition variable, and who is still to be woken
    `MutexOk`     the counter, the block queue and the token of a mutex go together

A thread that has to be woken by a signal is *owed* one: it is on the list, or a signaller
has taken it from there and is about to wake it.  An untimed waiter is owed one exactly as
long as it sleeps.  A timed waiter that is back, and still owed one, has timed out; this is
what `bmk_sched_wake_timeq` goes by.

`Frame` is what a step of one processor leaves alone, and `Frame.inv` what is left to show.
-/
import Librettos.Core.SchedPlace

namespace Librettos.Sched

section
variable {P T M C : Type}

/-! ## Places -/

/-- The thread can go on when a processor has it. -/
def State.Running (s : State P T M C) (t : T) : Prop :=
  match s.pc t with
  | .leave _ _ | .left _ _ | .asleep _ _ | .dead => False
  | .blocked m _ => s.token m = .ready t
  | _ => True

/-- The block data goes with the control point of the thread that calls `schedule`, and with
its `bt_timedout`. -/
def Data.Suits : Data M C → Pc T M C → Bool → Prop
  | .yield, c, _ => c = .yield
  | .mutex m, c, _ => ∃ k, c = .blocked m k
  | .cv x timed, c, timedout => c = .leave x timed ∧ timedout = false
  | .exit, c, _ => c = .dead

/-- The callback goes with the thread that was switched out. -/
def Cb.Suits : Cb T M C → Pc T M C → Bool → Prop
  | .yield _, c, _ => c = .yield
  | .queue _ m, c, _ => ∃ k, c = .blocked m k
  | .timeq _ x, c, timedout => c = .left x true ∧ timedout = false
  | .exit _ x, c, _ => c = .left x false
  | .zombie _, c, _ => c = .dead
  | .exitTimed _, _, _ | .exitWake _, _, _ => False

/-- The block data, in `schedule`. -/
def Mode.data : Mode T M C → Option (Option (Data M C))
  | .pick d | .pickAll d | .clock d | .expire d _ => some d
  | .user | .callback _ | .reap => none

/-- What is known of the slot `t` in each place. -/
def Fits (s : State P T M C) (t : T) : Place P M C → Prop
  | .free | .zombie => s.pc t = .dead
  | .hand p =>
    match s.hand p with
    | some (.run _) => s.Running t
    | some (.free _) => s.pc t = .dead
    | none => False
  | .queued _ => s.Running t
  | .on p =>
    match (s.mode p).data with
    | none => s.Running t
    | some d => ∃ e, d = some e ∧ e.Suits (s.pc t) (s.timedout t)
  | .leaving p =>
    match s.mode p with
    | .callback c => c.Suits (s.pc t) (s.timedout t)
    | _ => False
  | .blocked m => ∃ k, s.pc t = .blocked m k
  | .asleep c => s.pc t = .asleep c false
  | .timed x => s.cpuidx t = x ∧ s.timedout t = false ∧ ∃ c, s.pc t = .asleep c true

/-! ## Tokens -/

/-- Who alone may change the token, if anybody. -/
def Token.owner : Token P T → Option (Agent P T)
  | .free | .banked => none
  | .held a | .owes a => some a
  | .ready t => some (.thread t)

/-- The mutex that the control point of `t` needs, and how. -/
def Pc.claim (mtx : C → M) (t : T) : Pc T M C → Option (M × Token P T)
  | .exit m => some (m, .held (.thread t))
  | .exitWake m => some (m, .owes (.thread t))
  | .insert c _ _ | .sleep c _ _ | .leave c _ | .relocked c _ | .signal c _ | .wake c _ _ _ =>
    some (mtx c, .held (.thread t))
  | _ => none

def Cb.claim (mtx : C → M) (p : P) : Cb T M C → Option (M × Token P T)
  | .timeq _ c | .exit _ c => some (mtx c, .held (.callback p))
  | .exitTimed m => some (m, .held (.callback p))
  | .exitWake m => some (m, .owes (.callback p))
  | .yield _ | .queue _ _ | .zombie _ => none

def Mode.claim (mtx : C → M) (p : P) : Mode T M C → Option (M × Token P T)
  | .callback c => c.claim mtx p
  | .user | .pick _ | .pickAll _ | .clock _ | .expire _ _ | .reap => none

/-- The mutex that a thread is acquiring, and what for. -/
def Pc.wants : Pc T M C → Option (M × After C)
  | .enter m k | .slow m k | .blocked m k | .load m k | .cas m k => some (m, k)
  | _ => none

structure Owns (mtx : C → M) (s : State P T M C) (t : T) : Prop where
  claim : ∀ m k, (s.pc t).claim mtx t = some (m, k) → s.token m = k
  wants : ∀ m c timed, (s.pc t).wants = some (m, .cv c timed) → m = mtx c

def CallbackOk (mtx : C → M) (s : State P T M C) (p : P) : Prop :=
  ∀ m k, (s.mode p).claim mtx p = some (m, k) → s.token m = k

structure MutexOk (s : State P T M C) (m : M) : Prop where
  counter : s.counter m = 0 ↔ s.token m = .free
  banked : (s.queue m).pending = 1 ∧ s.token m = .banked ∨
    (s.queue m).pending = 0 ∧ s.token m ≠ .banked

/-! ## Waiters -/

def After.waits : After C → Option (C × Bool)
  | .user => none
  | .cv c timed => some (c, timed)

/-- In a wait call, after its waiter has been put on the list. -/
def Pc.waits : Pc T M C → Option (C × Bool)
  | .sleep c timed _ | .leave c timed | .left c timed | .asleep c timed | .awake c timed
  | .relocked c timed => some (c, timed)
  | .enter _ k | .slow _ k | .blocked _ k | .load _ k | .cas _ k => k.waits
  | _ => none

/-- How far a wait call is: `late` is from the wake on until it blocks on the mutex, if it
has to, and `back` with the mutex. -/
inductive Phase
  | out | early | asleep | late | blocked | back
deriving DecidableEq, Repr

def Pc.phase : Pc T M C → Phase
  | .sleep _ _ _ | .leave _ _ | .left _ _ => .early
  | .asleep _ _ => .asleep
  | .awake _ _ => .late
  | .enter _ k | .slow _ k | .load _ k | .cas _ k => if k.waits = none then .out else .late
  | .blocked _ k => if k.waits = none then .out else .blocked
  | .relocked _ _ => .back
  | _ => .out

/-- The thread that a signaller is about to wake. -/
def Pc.calls : Pc T M C → Option (C × T × Bool)
  | .wake c u timed _ => some (c, u, timed)
  | _ => none

def State.Called (s : State P T M C) (c : C) (t : T) (timed : Bool) : Prop :=
  ∃ v, (s.pc v).calls = some (c, t, timed)

def State.Owed (s : State P T M C) (c : C) (t : T) (timed : Bool) : Prop :=
  s.wthread t = true ∨ s.Called c t timed

/-- What is known of the thread `t` as a waiter. -/
structure WaiterOk (s : State P T M C) (t : T) : Prop where
  listed : ∀ c timed, (t, timed) ∈ s.waiters c ↔
    (s.pc t).waits = some (c, timed) ∧ s.wthread t = true
  called : ∀ c timed, s.Called c t timed →
    (s.pc t).waits = some (c, timed) ∧ s.wthread t = false
  early : (s.pc t).phase = .early → s.wthread t = true
  asleep : ∀ c, (s.pc t).waits = some (c, false) → (s.pc t).phase = .asleep → s.Owed c t false
  untimed : ∀ c, (s.pc t).waits = some (c, false) → s.Owed c t false →
    (s.pc t).phase = .early ∨ (s.pc t).phase = .asleep
  timed : ∀ c, (s.pc t).waits = some (c, true) → (s.pc t).phase = .late → s.Owed c t true →
    s.timedout t = true

structure Inv (mtx : C → M) (s : State P T M C) : Prop where
  fit : ∃ loc, Located s loc ∧ ∀ t, Fits s t (loc t)
  owns : ∀ t, Owns mtx s t
  waiter : ∀ t, WaiterOk s t
  callback : ∀ p, CallbackOk mtx s p
  mutex : ∀ m, MutexOk s m
  waiters : ∀ c, (s.waiters c).Nodup

/-! ## What a step leaves alone -/

variable {mtx : C → M} {s s' : State P T M C} {p : P} {a : Agent P T} {A W : T → Prop} {t u : T}

/-- A step of processor `p` by the agent `a`, about the threads in `A`, and about those in `W`
as waiters. -/
structure Frame (s s' : State P T M C) (p : P) (a : Agent P T) (A W : T → Prop) : Prop where
  agent : a = .callback p ∨ ∃ t, a = .thread t ∧ A t
  sub : ∀ j, A j → W j
  pc : ∀ j, ¬ A j → s'.pc j = s.pc j
  cpuidx : ∀ j, ¬ A j → s'.cpuidx j = s.cpuidx j
  timedout : ∀ j, ¬ A j → s'.timedout j = s.timedout j
  token : ∀ m, s'.token m = s.token m ∨ (s.token m).owner = none ∨ (s.token m).owner = some a
  mode : ∀ r, r ≠ p → s'.mode r = s.mode r
  hand : ∀ r, r ≠ p → s'.hand r = s.hand r
  wthread : ∀ j, ¬ W j → s'.wthread j = s.wthread j
  waiters : ∀ j, ¬ W j → ∀ c timed, (j, timed) ∈ s'.waiters c ↔ (j, timed) ∈ s.waiters c
  calls : ∀ v, A v → ∀ c j timed, (s.pc v).calls = some (c, j, timed) ∨
    (s'.pc v).calls = some (c, j, timed) → W j

section
variable (hf : Frame s s' p a A W)
include hf

theorem Frame.ne_thread (ht : ¬ A t) : a ≠ .thread t := by
  rintro rfl
  rcases hf.agent with ha | ⟨v, hv, hA⟩
  · cases ha
  · cases hv
    exact ht hA

theorem Frame.ne_callback {r : P} (hr : r ≠ p) : a ≠ .callback r := by
  rintro rfl
  rcases hf.agent with ha | ⟨v, hv, _⟩
  · cases ha
    exact hr rfl
  · cases hv

theorem Frame.token_eq {m : M} {b : Agent P T}
    (hb : (s.token m).owner = some b) (ha : a ≠ b) : s'.token m = s.token m := by
  rcases hf.token m with h | h | h
  · exact h
  · rw [hb] at h
    cases h
  · rw [hb] at h
    cases h
    exact absurd rfl ha

theorem Frame.called_iff (ht : ¬ W t) (c : C) (timed : Bool) :
    s'.Called c t timed ↔ s.Called c t timed := by
  refine exists_congr fun v => ?_
  by_cases hv : A v
  · exact iff_of_false (fun h => ht (hf.calls v hv c t timed (.inr h)))
      fun h => ht (hf.calls v hv c t timed (.inl h))
  · rw [hf.pc v hv]

theorem Frame.running (ht : ¬ A t) (h : s.Running t) : s'.Running t := by
  have hpc := hf.pc t ht
  cases hc : s.pc t with
  | blocked m k =>
    have hready : s.token m = .ready t := by simpa [State.Running, hc] using h
    have := hf.token_eq (b := .thread t) (by rw [hready]; rfl) (hf.ne_thread ht)
    simp [State.Running, hpc, hc, this, hready]
  | _ => simp_all [State.Running]

end

theorem Pc.claim_owner {c : Pc T M C} {m : M} {k : Token P T} (h : c.claim mtx t = some (m, k)) :
    k.owner = some (.thread t) := by
  cases c <;> simp only [Pc.claim, Option.some.injEq, Prod.mk.injEq, reduceCtorEq] at h <;>
    (obtain ⟨-, rfl⟩ := h; rfl)

theorem Mode.claim_owner {c : Mode T M C} {m : M} {k : Token P T}
    (h : c.claim mtx p = some (m, k)) : k.owner = some (.callback p) := by
  cases c with
  | callback c =>
    cases c <;> simp only [Mode.claim, Cb.claim, Option.some.injEq, Prod.mk.injEq, reduceCtorEq] at h <;>
      (obtain ⟨-, rfl⟩ := h; rfl)
  | _ => simp [Mode.claim] at h

theorem Frame.owns (hf : Frame s s' p a A W) (ht : ¬ A t) (h : Owns mtx s t) : Owns mtx s' t := by
  have hpc := hf.pc t ht
  refine ⟨fun m k hk => ?_, by simpa only [hpc] using h.wants⟩
  rw [hpc] at hk
  have htoken := h.claim m k hk
  rw [hf.token_eq (by rw [htoken, Pc.claim_owner hk]) (hf.ne_thread ht), htoken]

theorem Frame.callback (hf : Frame s s' p a A W) {r : P} (hr : r ≠ p) (h : CallbackOk mtx s r) :
    CallbackOk mtx s' r := by
  intro m k hk
  rw [hf.mode r hr] at hk
  have htoken := h m k hk
  rw [hf.token_eq (by rw [htoken, Mode.claim_owner hk]) (hf.ne_callback hr), htoken]

/-- A thread that calls nobody before or after makes no difference. -/
theorem State.called_iff (hpc : ∀ j, j ≠ t → s'.pc j = s.pc j) (hold : (s.pc t).calls = none)
    (hnew : (s'.pc t).calls = none) (c : C) (timed : Bool) :
    s'.Called c u timed ↔ s.Called c u timed := by
  refine exists_congr fun v => ?_
  by_cases hv : v = t
  · subst hv
    rw [hold, hnew]
  · rw [hpc v hv]

/-- A wait call goes on: it stays in its phase, or falls asleep, or gets on to the mutex. -/
def Phase.Onward (b b' : Phase) : Prop :=
  b' = b ∨ b = .early ∧ b' = .asleep ∨ (b = .late ∨ b = .blocked) ∧ (b' = .blocked ∨ b' = .back)

/-- A step that is about `t` as a waiter only in that its call goes on. -/
theorem WaiterOk.onward (h : WaiterOk s t) (hwaits : (s'.pc t).waits = (s.pc t).waits)
    (hphase : (s.pc t).phase.Onward (s'.pc t).phase) (hwthread : s'.wthread t = s.wthread t)
    (htimedout : (s'.pc t).phase = .late → s'.timedout t = s.timedout t)
    (hwaiters : ∀ c timed, (t, timed) ∈ s'.waiters c ↔ (t, timed) ∈ s.waiters c)
    (hcalled : ∀ c timed, s'.Called c t timed ↔ s.Called c t timed) : WaiterOk s' t := by
  have howed : ∀ c timed, s'.Owed c t timed ↔ s.Owed c t timed := by
    intro c timed
    rw [State.Owed, State.Owed, hwthread, hcalled]
  constructor
  case listed =>
    intro c timed
    rw [hwaiters, hwaits, hwthread]
    exact h.listed c timed
  case called =>
    intro c timed
    rw [hcalled, hwaits, hwthread]
    exact h.called c timed
  case early =>
    intro hb
    rw [hwthread]
    refine h.early ?_
    simpa [Phase.Onward, hb, eq_comm] using hphase
  case asleep =>
    intro c hc hb
    rw [howed]
    rw [hwaits] at hc
    have hold : (s.pc t).phase = .asleep ∨ (s.pc t).phase = .early := by
      simpa [Phase.Onward, hb, eq_comm] using hphase
    rcases hold with hold | hold
    · exact h.asleep c hc hold
    · exact .inl (h.early hold)
  case untimed =>
    intro c hc ho
    have hold := h.untimed c (hwaits ▸ hc) ((howed c false).mp ho)
    rcases hphase with hp | ⟨-, hp⟩ | ⟨hp, -⟩
    · rwa [hp]
    · exact .inr hp
    · rcases hp with hp | hp <;> simp [hp] at hold
  case timed =>
    intro c hc hb ho
    rw [htimedout hb]
    refine h.timed c (hwaits ▸ hc) ?_ ((howed c true).mp ho)
    simpa [Phase.Onward, hb, eq_comm] using hphase

theorem Frame.waiter (hf : Frame s s' p a A W) (ht : ¬ W t) (h : WaiterOk s t) : WaiterOk s' t := by
  have hA : ¬ A t := fun hA => ht (hf.sub t hA)
  have hpc := hf.pc t hA
  exact h.onward (by rw [hpc]) (.inl (by rw [hpc])) (hf.wthread t ht) (fun _ => hf.timedout t hA)
    (hf.waiters t ht) (hf.called_iff ht)

theorem Mode.leaves_eq_none {d : Mode T M C} (h : ∀ c, d ≠ .callback c) : d.leaves = none := by
  cases d with
  | callback c => exact absurd rfl (h c)
  | _ => rfl

theorem Mode.claim_eq_none {d : Mode T M C} (h : ∀ c, d ≠ .callback c) : d.claim mtx p = none := by
  cases d with
  | callback c => exact absurd rfl (h c)
  | _ => rfl

section
variable (hf : Frame s s' p a A W)
include hf

theorem Frame.fits {q : Place P M C} (ht : ¬ A t) (h : Fits s t q)
    (hhand : q = .hand p → s'.hand p = s.hand p)
    (hon : q = .on p → (s'.mode p).data = (s.mode p).data)
    (hleaving : q = .leaving p → s'.mode p = s.mode p) : Fits s' t q := by
  have hpc := hf.pc t ht
  cases q with
  | free | zombie | asleep c | blocked m => simpa only [Fits, hpc] using h
  | queued x => exact hf.running ht h
  | timed x => simpa only [Fits, hpc, hf.cpuidx t ht, hf.timedout t ht] using h
  | hand r =>
    have hr : s'.hand r = s.hand r := by
      by_cases hrp : r = p
      · subst hrp
        exact hhand rfl
      · exact hf.hand r hrp
    simp only [Fits, hr] at h ⊢
    split at h
    · exact hf.running ht h
    · rwa [hpc]
    · exact h
  | on r =>
    have hr : (s'.mode r).data = (s.mode r).data := by
      by_cases hrp : r = p
      · subst hrp
        exact hon rfl
      · rw [hf.mode r hrp]
    simp only [Fits, hr, hpc, hf.timedout t ht] at h ⊢
    split at h
    · exact hf.running ht h
    · exact h
  | leaving r =>
    have hr : s'.mode r = s.mode r := by
      by_cases hrp : r = p
      · subst hrp
        exact hleaving rfl
      · exact hf.mode r hrp
    simpa only [Fits, hr, hpc, hf.timedout t ht] using h

/-- The slots in `B` have moved or are different now; the others are as they were. -/
theorem Frame.fit {loc loc' : T → Place P M C} (hloc : Located s loc)
    (hfits : ∀ j, Fits s j (loc j)) (hloc' : Located s' loc') (B : T → Prop)
    (hB : ∀ j, ¬ B j → ¬ A j ∧ loc' j = loc j) (hnew : ∀ j, B j → Fits s' j (loc' j))
    (hhand : ∀ j, (s.hand p).map Hand.thread = some j → ¬ B j → s'.hand p = s.hand p)
    (hon : ∀ j, s.cur p = some j → ¬ B j → (s'.mode p).data = (s.mode p).data)
    (hleaving : ∀ j, (s.mode p).leaves = some j → ¬ B j → s'.mode p = s.mode p) :
    ∃ loc, Located s' loc ∧ ∀ t, Fits s' t (loc t) := by
  refine ⟨loc', hloc', fun j => ?_⟩
  by_cases hj : B j
  · exact hnew j hj
  · obtain ⟨hA, hl⟩ := hB j hj
    rw [hl]
    refine hf.fits hA (hfits j) (fun h => ?_) (fun h => ?_) (fun h => ?_)
    · exact hhand j ((hloc.at_iff j _).mpr h) hj
    · exact hon j ((hloc.at_iff j _).mpr h) hj
    · exact hleaving j ((hloc.at_iff j _).mpr h) hj

/-- The same for a step of a processor that has nothing in its hands and is in no callback. -/
theorem Frame.fit_free {loc loc' : T → Place P M C} (hloc : Located s loc)
    (hfits : ∀ j, Fits s j (loc j)) (hhand : s.hand p = none) (hmode : ∀ c, s.mode p ≠ .callback c)
    (hloc' : Located s' loc') (B : T → Prop) (hcur : ∀ j, s.cur p = some j → B j)
    (hB : ∀ j, ¬ B j → ¬ A j ∧ loc' j = loc j) (hnew : ∀ j, B j → Fits s' j (loc' j)) :
    ∃ loc, Located s' loc ∧ ∀ t, Fits s' t (loc t) := by
  refine hf.fit hloc hfits hloc' B hB hnew ?_ ?_ ?_
  · simp [hhand]
  · exact fun j hj hne => absurd (hcur j hj) hne
  · simp [Mode.leaves_eq_none hmode]

theorem Frame.inv (h : Inv mtx s)
    (hfit : ∃ loc, Located s' loc ∧ ∀ t, Fits s' t (loc t)) (howns : ∀ j, A j → Owns mtx s' j)
    (hwaiter : ∀ j, W j → WaiterOk s' j) (hcallback : CallbackOk mtx s' p)
    (hmutex : ∀ m, MutexOk s' m) (hwaiters : ∀ c, (s'.waiters c).Nodup) : Inv mtx s' where
  fit := hfit
  mutex := hmutex
  waiters := hwaiters
  owns := by
    intro j
    by_cases hj : A j
    · exact howns j hj
    · exact hf.owns hj (h.owns j)
  waiter := by
    intro j
    by_cases hj : W j
    · exact hwaiter j hj
    · exact hf.waiter hj (h.waiter j)
  callback := by
    intro r
    by_cases hr : r = p
    · exact hr ▸ hcallback
    · exact hf.callback hr (h.callback r)

end

theorem Frame.stay (hf : Frame s s' p (.thread t) (· = t) W) (h : Inv mtx s) (hcur : s.cur p = some t)
    (hhand : s.hand p = none) (hmode : ∀ c, s.mode p ≠ .callback c) (hmode' : ∀ c, s'.mode p ≠ .callback c)
    (hsame : s'.freeq = s.freeq ∧ s'.zombieq = s.zombieq ∧ s'.runq = s.runq ∧ s'.timeq = s.timeq ∧
      s'.cur = s.cur ∧ s'.hand = s.hand) (hqueue : ∀ m, (s'.queue m).waiters = (s.queue m).waiters)
    (hasleep : ∀ c, s'.pc t ≠ .asleep c false) (hon : Fits s' t (.on p)) (howns : Owns mtx s' t)
    (hwaiter : ∀ j, W j → WaiterOk s' j) (hmutex : ∀ m, MutexOk s' m)
    (hwaiters : ∀ c, (s'.waiters c).Nodup) : Inv mtx s' := by
  obtain ⟨loc, hloc, hfits⟩ := h.fit
  obtain ⟨hfreeq, hzombieq, hrunq, htimeq, hcur', hhand'⟩ := hsame
  have hleaves : ∀ r, (s'.mode r).leaves = (s.mode r).leaves := by
    intro r
    by_cases hr : r = p
    · rw [hr, Mode.leaves_eq_none hmode', Mode.leaves_eq_none hmode]
    · rw [hf.mode r hr]
  have hloc' : Located s' loc :=
    hloc.step hcur hfreeq hzombieq hrunq htimeq hcur' hhand' hqueue hleaves hf.pc hasleep
  refine hf.inv h ?_ ?_ hwaiter ?_ hmutex hwaiters
  · refine hf.fit_free hloc hfits hhand hmode hloc' (· = t) (by simp [hcur]) (fun j hj => ⟨hj, rfl⟩) ?_
    rintro j rfl
    rwa [hloc.loc_eq (q := .on p) hcur]
  · rintro j rfl
    exact howns
  · intro m k hk
    simp [Mode.claim_eq_none hmode'] at hk

/-! ## Quiet steps -/

/-- A step of the thread `t` on `p` that moves no slot and calls nobody. -/
structure Quiet (s s' : State P T M C) (p : P) (t : T) : Prop where
  freeq : s'.freeq = s.freeq
  zombieq : s'.zombieq = s.zombieq
  runq : s'.runq = s.runq
  timeq : s'.timeq = s.timeq
  cur : s'.cur = s.cur
  hand : s'.hand = s.hand
  cpuidx : s'.cpuidx = s.cpuidx
  wthread : s'.wthread = s.wthread
  waiters : s'.waiters = s.waiters
  queue : ∀ m, (s'.queue m).waiters = (s.queue m).waiters
  pc : ∀ j, j ≠ t → s'.pc j = s.pc j
  timedout : ∀ j, j ≠ t → s'.timedout j = s.timedout j
  mode : ∀ r, r ≠ p → s'.mode r = s.mode r
  token : ∀ m, s'.token m = s.token m ∨ (s.token m).owner = none ∨
    (s.token m).owner = some (.thread t)
  callback : ∀ c, s'.mode p ≠ .callback c
  asleep : ∀ c, s'.pc t ≠ .asleep c false
  calls : (s.pc t).calls = none ∧ (s'.pc t).calls = none
  waits : (s'.pc t).waits = (s.pc t).waits
  phase : (s.pc t).phase.Onward (s'.pc t).phase
  late : (s'.pc t).phase = .late → s'.timedout t = s.timedout t

theorem Quiet.frame (hq : Quiet s s' p t) : Frame s s' p (.thread t) (· = t) (· = t) where
  agent := .inr ⟨t, rfl, rfl⟩
  sub _ hj := hj
  pc := hq.pc
  cpuidx j _ := by rw [hq.cpuidx]
  timedout := hq.timedout
  wthread j _ := by rw [hq.wthread]
  waiters j _ c timed := by rw [hq.waiters]
  calls := by
    rintro v rfl c j timed (h | h)
    · simp [hq.calls.1] at h
    · simp [hq.calls.2] at h
  token := hq.token
  mode := hq.mode
  hand r _ := by rw [hq.hand]

theorem Quiet.inv (hq : Quiet s s' p t) (h : Inv mtx s) (hcur : s.cur p = some t)
    (hhand : s.hand p = none) (hmode : ∀ c, s.mode p ≠ .callback c) (hon : Fits s' t (.on p))
    (howns : Owns mtx s' t) (hmutex : ∀ m, MutexOk s' m) : Inv mtx s' := by
  refine hq.frame.stay h hcur hhand hmode hq.callback
    ⟨hq.freeq, hq.zombieq, hq.runq, hq.timeq, hq.cur, hq.hand⟩ hq.queue hq.asleep hon howns ?_ hmutex
    (hq.waiters ▸ h.waiters)
  rintro j rfl
  exact (h.waiter j).onward hq.waits hq.phase (by rw [hq.wthread]) hq.late
    (fun c timed => by rw [hq.waiters]) (State.called_iff hq.pc hq.calls.1 hq.calls.2)

end

end Librettos.Sched
