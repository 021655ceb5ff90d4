/-
# `Core.SchedSafe` — every thread is in one place

The location invariant of the scheduler, over any number of processors, threads, mutexes and
condition variables and every interleaving of their steps (`one_place`).  It needs one
condition.  `rumpuser_cv_timedwait` that has timed out takes the mutex again with
`cv_mutex_enter`; if the mutex is taken this blocks, and `bmk_sched_block` sets `bt_timedout`
back to 0 while the thread is still on the list of the condition variable.  A signal then
finds it there, and `bmk_sched_wake_timeq` takes it for a thread that is on the timer queue:
it removes it from that queue, on which it is not, and puts it on its run queue, although it
is on the block queue of the mutex (`two_places`).  The condition is that no signal comes in
this window.
-/
import Librettos.Core.SchedSwitch

namespace Librettos.Sched

open Function (update_of_ne update_self)
open Option State Timeq Trans

section
variable {P T M C : Type}

/-! ## Starting -/

/-- Every slot is on `freeq`, or on a run queue as a thread that has never run, or on a
processor in its own code; nothing has happened yet. -/
structure Init (s : State P T M C) : Prop where
  somewhere : ∀ t, t ∈ s.freeq ∨ (∃ x, t ∈ s.runq x) ∨ ∃ p, s.cur p = some t
  free : ∀ t ∈ s.freeq, s.pc t = .dead
  queued : ∀ x, ∀ t ∈ s.runq x, s.pc t = .start
  running : ∀ p t, s.cur p = some t → s.pc t = .run
  freeq : s.freeq.Nodup
  runq : ∀ x, (s.runq x).Nodup
  one_runq : ∀ x y t, t ∈ s.runq x → t ∈ s.runq y → x = y
  one_cpu : ∀ p r t, s.cur p = some t → s.cur r = some t → p = r
  zombieq : s.zombieq = []
  timeq : ∀ x, s.timeq x = []
  mode : ∀ p, s.mode p = .user
  hand : ∀ p, s.hand p = none
  queue : ∀ m, s.queue m = BlockQueue.empty
  waiters : ∀ c, s.waiters c = []
  counter : ∀ m, s.counter m = 0
  token : ∀ m, s.token m = .free

variable {mtx : C → M} {spin : M → Bool} {s s' : State P T M C} {p : P} {t u : T}

theorem Located.of_unique (h : ∀ t, ∃! q, s.At t q) (hfreeq : s.freeq.Nodup) (hzombieq : s.zombieq.Nodup)
    (hrunq : ∀ x, (s.runq x).Nodup) (htimeq : ∀ x, (s.timeq x).Nodup)
    (hqueue : ∀ m, (s.queue m).waiters.Nodup) : ∃ loc, Located s loc := by
  choose loc hat hunique using h
  refine ⟨loc, fun t q => ⟨fun hq => (hunique t q hq).symm, ?_⟩, hfreeq, hzombieq, hrunq, htimeq, hqueue⟩
  rintro rfl
  exact hat t

theorem Init.at_cases (h : Init s) {q : Place P M C} (hq : s.At t q) :
    q = .free ∧ s.pc t = .dead ∨ (∃ x, q = .queued x ∧ t ∈ s.runq x ∧ s.pc t = .start) ∨
      ∃ p, q = .on p ∧ s.cur p = some t ∧ s.pc t = .run := by
  cases q with
  | free => exact .inl ⟨rfl, h.free t hq⟩
  | queued x => exact .inr (.inl ⟨x, rfl, hq, h.queued x t hq⟩)
  | on p => exact .inr (.inr ⟨p, rfl, hq, h.running p t hq⟩)
  | zombie => simp [At, h.zombieq] at hq
  | hand p => simp [At, h.hand] at hq
  | leaving p => simp [At, h.mode, Mode.leaves] at hq
  | blocked m => simp [At, h.queue, BlockQueue.empty] at hq
  | timed x => simp [At, h.timeq] at hq
  | asleep c =>
    have hpc : s.pc t = .asleep c false := hq
    rcases h.somewhere t with ht | ⟨x, ht⟩ | ⟨p, ht⟩
    · simp [h.free t ht] at hpc
    · simp [h.queued x t ht] at hpc
    · simp [h.running p t ht] at hpc

theorem Init.at_one (h : Init s) (t : T) : ∃! q, s.At t q := by
  rcases h.somewhere t with ht | ⟨x, ht⟩ | ⟨p, ht⟩
  · refine ⟨.free, ht, fun q hq => ?_⟩
    rcases h.at_cases hq with ⟨rfl, -⟩ | ⟨y, -, -, hpc⟩ | ⟨r, -, -, hpc⟩
    · rfl
    · simp [h.free t ht] at hpc
    · simp [h.free t ht] at hpc
  · refine ⟨.queued x, ht, fun q hq => ?_⟩
    rcases h.at_cases hq with ⟨-, hpc⟩ | ⟨y, rfl, hy, -⟩ | ⟨r, -, -, hpc⟩
    · simp [h.queued x t ht] at hpc
    · rw [h.one_runq y x t hy ht]
    · simp [h.queued x t ht] at hpc
  · refine ⟨.on p, ht, fun q hq => ?_⟩
    rcases h.at_cases hq with ⟨-, hpc⟩ | ⟨y, -, -, hpc⟩ | ⟨r, rfl, hr, -⟩
    · simp [h.running p t ht] at hpc
    · simp [h.running p t ht] at hpc
    · rw [h.one_cpu r p t hr ht]

theorem Init.fits (h : Init s) {q : Place P M C} (hq : s.At t q) : Fits s t q := by
  rcases h.at_cases hq with ⟨rfl, hpc⟩ | ⟨x, rfl, -, hpc⟩ | ⟨p, rfl, -, hpc⟩
  · exact hpc
  · simp [Fits, Running, hpc]
  · simp [Fits, h.mode, Mode.data, Running, hpc]

theorem Init.inv (h : Init s) : Inv mtx s := by
  have hpc : ∀ t, s.pc t = .dead ∨ s.pc t = .start ∨ s.pc t = .run := by
    intro t
    rcases h.somewhere t with ht | ⟨x, ht⟩ | ⟨p, ht⟩
    · exact .inl (h.free t ht)
    · exact .inr (.inl (h.queued x t ht))
    · exact .inr (.inr (h.running p t ht))
  constructor
  case fit =>
    obtain ⟨loc, hloc⟩ := Located.of_unique h.at_one h.freeq (by simp [h.zombieq]) h.runq
      (by simp [h.timeq]) (by simp [h.queue, BlockQueue.empty])
    exact ⟨loc, hloc, fun t => h.fits ((hloc.at_iff t _).mpr rfl)⟩
  case owns =>
    intro t
    rcases hpc t with ht | ht | ht <;> exact ⟨by simp [ht, Pc.claim], by simp [ht, Pc.wants]⟩
  case waiter =>
    intro t
    have hcalled : ∀ c timed, ¬ s.Called c t timed := by
      rintro c timed ⟨v, hv⟩
      rcases hpc v with hv' | hv' | hv' <;> simp [hv', Pc.calls] at hv
    have hlisted : ∀ c timed, (t, timed) ∉ s.waiters c := by simp [h.waiters]
    rcases hpc t with ht | ht | ht <;>
      exact .idle (by simp [ht, Pc.waits]) (by simp [ht, Pc.phase]) hlisted hcalled
  case callback => simp [CallbackOk, h.mode, Mode.claim]
  case mutex => exact fun m => ⟨by simp [h.counter, h.token], .inr (by simp [h.queue, h.token, BlockQueue.empty])⟩
  case waiters => simp [h.waiters]

/-! ## Runs -/

def Pc.isBlocked : Pc T M C → Bool
  | .blocked _ _ => true
  | _ => false

/-- No `bmk_sched_wake_timeq` finds its thread blocked on a mutex. -/
def unblocked (s : State P T M C) (a : Act P T M C) : Prop :=
  (match a with
  | .go p _ _ =>
    match s.cur p with
    | none => true
    | some t =>
      match s.pc t with
      | .wake _ u true _ => !(s.pc u).isBlocked
      | _ => true
  | _ => true) = true

instance (s : State P T M C) (a : Act P T M C) : Decidable (unblocked s a) :=
  inferInstanceAs (Decidable (_ = true))

theorem Inv.running (h : Inv mtx s) (hcur : s.cur p = some t) (hmode : s.mode p = .user) :
    s.Running t := by
  obtain ⟨loc, hloc, hfits⟩ := h.fit
  simpa [Fits, hloc.loc_eq (q := .on p) hcur, hmode, Mode.data] using hfits t

theorem Inv.asleep_timeq (h : Inv mtx s) {c : C} (hpc : s.pc t = .asleep c true) :
    t ∈ s.timeq (s.cpuidx t) := by
  obtain ⟨loc, hloc, hfits⟩ := h.fit
  have ht := hfits t
  cases hq : loc t <;> rw [hq] at ht
  case timed x =>
    rw [ht.1]
    exact (hloc.at_iff t (.timed x)).mpr hq
  case hand r => rcases ht.hand with hrun | hdead <;> simp_all [Running]
  case on r =>
    rcases ht.on with hrun | ⟨e, he⟩
    · simp_all [Running]
    · cases e <;> simp_all [Data.Suits]
  case leaving r =>
    obtain ⟨x, -, hsuits⟩ := ht.leaving
    cases x <;> simp_all [Cb.Suits]
  all_goals
    simp_all [Fits, Running]

variable [DecidableEq P] [DecidableEq T] [DecidableEq M] [DecidableEq C]

attribute [local simp] State.setPc in
theorem Inv.thread {fail : Bool} (h : Inv mtx s) (hcur : s.cur p = some t) (hhand : s.hand p = none)
    (hmode : s.mode p = .user) (hok : ∀ c u all, s.pc t = .wake c u true all → (s.pc u).isBlocked = false)
    (hs : Sched.thread mtx spin s p t fail = some s') : Inv mtx s' := by
  have hrun := h.running hcur hmode
  cases hpc : s.pc t <;> simp only [Sched.thread, hpc, some.injEq, reduceCtorEq] at hs
  case start | yield =>
    subst hs
    exact h.goto hcur hhand hmode (by rw [hpc]; exact ⟨rfl, rfl, rfl⟩) ⟨rfl, rfl, rfl⟩
      (by simp [Running]) (by simp [Pc.claim]) (by simp [Pc.wants])
  case enter m k =>
    split at hs
    · next h0 =>
      cases hs
      exact h.acquire hcur hhand hmode (by rw [hpc]; rfl) (.inl ((h.mutex m).counter.mp h0)) one_ne_zero
    · next h0 =>
      cases hs
      exact h.enterSlow hcur hhand hmode hpc h0
  case slow m k =>
    subst hs
    refine h.schedule hcur hhand hmode _ _ (fun j hj => update_of_ne hj _ _)
      (by simp [hpc, Pc.calls]) (by simp [hpc, Pc.waits]) ?_ ?_ ⟨k, rfl⟩ (by simp [Pc.claim]) ?_
    · cases k <;> simp [hpc, Pc.phase, After.waits, Phase.Onward]
    · cases k <;> simp [Pc.phase, After.waits]
    · simpa [hpc, Pc.wants] using (h.owns t).wants
  case blocked m k =>
    subst hs
    have hready : s.token m = .ready t := by simpa [Running, hpc] using hrun
    have h0 := (h.mutex m).counter_ne_zero (by simp [hready])
    have hacq := h.acquire hcur hhand hmode (by rw [hpc]; rfl) (.inr hready) h0
    rw [Function.update_eq_self] at hacq
    exact hacq
  case load m k =>
    subst hs
    split
    · exact h.setPc hcur hhand hmode (by simp [hpc, Pc.calls]) (by simp [hpc, Pc.waits])
        (.inl (by simp [hpc, Pc.phase])) (by simp [Running]) (by simp [Pc.claim])
        (by simpa [hpc, Pc.wants] using (h.owns t).wants)
    · exact h.setPc hcur hhand hmode (by simp [hpc, Pc.calls]) (by simp [hpc, Pc.waits])
        (.inl (by simp [hpc, Pc.phase])) (by simp [Running]) (by simp [Pc.claim])
        (by simpa [hpc, Pc.wants] using (h.owns t).wants)
  case cas m k =>
    split at hs
    · next h0 =>
      cases hs
      exact h.acquire hcur hhand hmode (by rw [hpc]; rfl) (.inl ((h.mutex m).counter.mp h0.1)) one_ne_zero
    · cases hs
      exact h.setPc hcur hhand hmode (by simp [hpc, Pc.calls]) (by simp [hpc, Pc.waits])
        (.inl (by simp [hpc, Pc.phase])) (by simp [Running]) (by simp [Pc.claim])
        (by simpa [hpc, Pc.wants] using (h.owns t).wants)
  case exit m =>
    subst hs
    exact h.exit hcur hhand hmode hpc
  case exitWake m =>
    subst hs
    exact h.exitWake hcur hhand hmode hpc
  case insert c timed deadline =>
    subst hs
    exact h.insert hcur hhand hmode hpc
  case sleep c timed deadline =>
    subst hs
    refine h.schedule hcur hhand hmode _ _ (fun j hj => update_of_ne hj _ _)
      (by simp [hpc, Pc.calls]) (by simp [hpc, Pc.waits]) (.inl (by simp [hpc, Pc.phase]))
      (by simp [Pc.phase]) ⟨rfl, update_self ..⟩ ?_ (by simp [Pc.wants])
    simpa [hpc, Pc.claim] using (h.owns t).claim
  case leave c timed | left c timed | asleep c timed => simp [Running, hpc] at hrun
  case awake c timed =>
    subst hs
    exact h.relock hcur hhand hmode hpc
  case relocked c timed =>
    subst hs
    exact h.relocked hcur hhand hmode hpc rfl
  case signal c all =>
    split at hs
    · cases hs
      exact h.goto hcur hhand hmode (by rw [hpc]; exact ⟨rfl, rfl, rfl⟩) ⟨rfl, rfl, rfl⟩
        (by simp [Running]) (by simp [Pc.claim]) (by simp [Pc.wants])
    · next u timed rest hw =>
      cases hs
      exact h.signal hcur hhand hmode hpc hw
  case wake c u timed all =>
    cases timed with
    | false =>
      cases hs
      exact h.wake hcur hhand hmode hpc rfl
    | true =>
      cases hs
      cases htd : s.timedout u with
      | true => simpa [wakeTimeq, htd] using h.wake_timedout hcur hhand hmode hpc rfl
      | false =>
        have hpcu := h.called_timed hpc htd fun m k hb => by simpa [hb, Pc.isBlocked] using hok c u all hpc
        simpa [wakeTimeq, htd] using
          h.wake_asleep hcur hhand hmode hpc hpcu (h.asleep_timeq hpcu)

theorem Inv.go {now : Int} {fail : Bool} (h : Inv mtx s)
    (hok : ∀ t c u all, s.cur p = some t → s.pc t = .wake c u true all → (s.pc u).isBlocked = false)
    (hs : Sched.go mtx spin s p now fail = some s') : Inv mtx s' := by
  rw [Sched.go] at hs
  split at hs
  · next t hh =>
    cases hs
    exact h.put hh
  · next t hh =>
    cases hs
    exact h.putFree hh
  · next hhand =>
    cases hmode : s.mode p <;> simp only [hmode] at hs
    case user =>
      cases hcur : s.cur p with
      | none =>
        simp only [hcur, some.injEq] at hs
        subst hs
        exact h.setMode (by simp [hmode, Mode.leaves]) (by simp) (.inl hcur)
      | some t =>
        simp only [hcur] at hs
        exact h.thread hcur hhand hmode (fun c u all => hok t c u all hcur) hs
    case pick d =>
      cases hs
      exact h.dequeue hhand (by simp [hmode, Mode.data]) rfl
    case pickAll d =>
      cases hs
      exact h.dequeue hhand (by simp [hmode, Mode.data]) rfl
    case clock d =>
      cases hs
      exact h.setMode (by simp [hmode, Mode.leaves]) (by simp) (.inr (by simp [hmode, Mode.data]))
    case expire d curtime =>
      obtain ⟨h₁, hmode₁, hcur₁, hhand₁⟩ := h.expireQueue p (some p) curtime
      obtain ⟨h₂, hmode₂, hcur₂, hhand₂⟩ := h₁.expireQueue p none curtime
      rw [hmode₁] at hmode₂
      rw [hcur₁] at hcur₂
      rw [hhand₁] at hhand₂
      cases hcur : s.cur p with
      | none =>
        simp only [hcur, some.injEq] at hs
        subst hs
        exact h₂.setMode (by simp [hmode₂, hmode, Mode.leaves]) (by simp) (.inl (by rw [hcur₂, hcur]))
      | some t =>
        simp only [hcur, some.injEq] at hs
        subst hs
        exact h₂.idle (by rw [hhand₂, hhand]) (by simp [hmode₂, hmode, Mode.data]) (by rw [hcur₂, hcur])
    case callback c =>
      cases hs
      cases c with
      | yield t => exact h.callbackYield hhand hmode
      | queue t m => exact h.callbackQueue hhand hmode
      | timeq t c => exact h.callbackTimeq hhand hmode
      | exit t c => exact h.callbackExit hhand hmode
      | exitTimed m => exact h.callbackExitTimed hhand hmode
      | exitWake m => exact h.callbackExitWake hhand hmode
      | zombie t => exact h.callbackZombie hhand hmode
    case reap =>
      split at hs
      · cases hs
        exact h.setMode (by simp [hmode, Mode.leaves]) (by simp) (.inr (by simp [hmode, Mode.data]))
      · split at hs
        · cases hs
          exact h.setMode (by simp [hmode, Mode.leaves]) (by simp) (.inr (by simp [hmode, Mode.data]))
        · next t rest hz =>
          cases hs
          exact h.reap hhand hz

omit [DecidableEq P] in
theorem runs_eq_some (h : s.runs p = some t) :
    s.cur p = some t ∧ s.hand p = none ∧ s.mode p = .user ∧ s.pc t = .run := by
  rw [runs] at h
  split at h
  · cases h
  · next t' hcur =>
    obtain ⟨hc, ⟨⟩⟩ := ite_none_right_eq_some.mp h
    exact ⟨hcur, hc⟩

attribute [local simp] State.setPc in
theorem Inv.step {a : Act P T M C} (h : Inv mtx s) (hok : unblocked s a)
    (hs : Sched.step mtx spin s a = some s') : Inv mtx s' := by
  have hplain : ∀ {t}, s.pc t = .run → (s.pc t).Plain := fun ht => by rw [ht]; exact ⟨rfl, rfl, rfl⟩
  cases a with
  | create p x =>
    simp only [Sched.step] at hs
    split at hs
    · next t u rest hr hfree =>
      cases hs
      exact h.create (runs_eq_some hr).2.1 hfree x
    · cases hs
  | yield | exit =>
    obtain ⟨t, hr, rfl⟩ := map_eq_some_iff.mp hs
    obtain ⟨hcur, hhand, hmode, hpc⟩ := runs_eq_some hr
    exact h.schedule hcur hhand hmode _ _ (fun _ _ => rfl) (by simp [hpc, Pc.calls])
      (by simp [hpc, Pc.waits]) (.inl (by simp [hpc, Pc.phase])) (by simp [Pc.phase]) rfl
      (by simp [Pc.claim]) (by simp [Pc.wants])
  | enter p m nowrap =>
    obtain ⟨t, hr, rfl⟩ := map_eq_some_iff.mp hs
    obtain ⟨hcur, hhand, hmode, hpc⟩ := runs_eq_some hr
    have hload : Inv mtx (s.setPc t (.load m .user)) :=
      h.goto hcur hhand hmode (hplain hpc) ⟨rfl, rfl, rfl⟩ (by simp [Running])
        (by simp [Pc.claim]) (by simp [Pc.wants])
    have henter : Inv mtx (s.setPc t (.enter m .user)) :=
      h.goto hcur hhand hmode (hplain hpc) ⟨rfl, rfl, rfl⟩ (by simp [Running])
        (by simp [Pc.claim]) (by simp [Pc.wants])
    cases nowrap with
    | true => exact hload
    | false =>
      cases hspin : spin m with
      | true => simpa [enterPc, hspin] using hload
      | false => simpa [enterPc, hspin] using henter
  | leave | wait | signal =>
    simp only [Sched.step] at hs
    split at hs
    · cases hs
    · next t hr =>
      obtain ⟨hcur, hhand, hmode, hpc⟩ := runs_eq_some hr
      obtain ⟨hheld, ⟨⟩⟩ := ite_none_right_eq_some.mp hs
      exact h.goto hcur hhand hmode (hplain hpc) ⟨rfl, rfl, rfl⟩ (by simp [Running])
        (by simp [Pc.claim, hheld]) (by simp [Pc.wants])
  | go p now fail =>
    refine h.go (fun t c u all hcur hpc => ?_) hs
    simpa [unblocked, hcur, hpc] using hok

/-- The location of the slots.  `wake` and `wakeTimeq` are about a signaller that is at
`w->wake(thread)`: the thread is asleep, or it is on its timer queue, unless it has timed out
or is blocked on the mutex. -/
structure Placed (s : State P T M C) : Prop where
  one : ∀ t, ∃! q, s.At t q
  freeq : s.freeq.Nodup
  zombieq : s.zombieq.Nodup
  runq : ∀ x, (s.runq x).Nodup
  timeq : ∀ x, (s.timeq x).Nodup
  queue : ∀ m, (s.queue m).waiters.Nodup
  asleep : ∀ t c, s.At t (.asleep c) →
    (t, false) ∈ s.waiters c ∨ ∃ v all, s.pc v = .wake c t false all
  wake : ∀ v c t all, s.pc v = .wake c t false all → s.At t (.asleep c)
  wakeTimeq : ∀ v c t all, s.pc v = .wake c t true all → s.timedout t = false →
    (s.pc t).isBlocked = false → s.At t (.timed (s.cpuidx t))

omit [DecidableEq P] [DecidableEq T] [DecidableEq M] [DecidableEq C] in
theorem Inv.placed (h : Inv mtx s) : Placed s := by
  obtain ⟨loc, hloc, -⟩ := h.fit
  constructor
  case one => exact fun t => ⟨loc t, (hloc.at_iff t _).mpr rfl, fun q hq => (hloc.loc_eq hq).symm⟩
  case freeq => exact hloc.freeq
  case zombieq => exact hloc.zombieq
  case runq => exact hloc.runq
  case timeq => exact hloc.timeq
  case queue => exact hloc.queue
  case asleep =>
    intro t c hpc
    rcases (h.waiter t).asleep c (by rw [hpc]; rfl) (by rw [hpc]; rfl) with hw | ⟨v, hv⟩
    · exact .inl (((h.waiter t).listed c false).mpr ⟨by rw [hpc]; rfl, hw⟩)
    · refine .inr ⟨v, ?_⟩
      cases hc : s.pc v <;> simp_all [Pc.calls]
  case wake => exact fun v c t all hpc => h.called_untimed hpc
  case wakeTimeq =>
    intro v c t all hpc htd hblocked
    refine h.asleep_timeq (h.called_timed hpc htd fun m k hb => ?_)
    simp [hb, Pc.isBlocked] at hblocked

/-- In every state of every run in which no `bmk_sched_wake_timeq` finds its thread blocked on
a mutex, every slot is in one place. -/
theorem one_place (h : Reach (Sched.step mtx spin) unblocked Init s) : Placed s :=
  (h.inv (I := Inv mtx) (fun _ h0 => h0.inv) fun _ _ _ hi hok hs => hi.step hok hs).placed

end

/-! ## Two runs -/

/-- One processor, which runs thread 0; the slot 1 is free. -/
def boot : State Unit (Fin 2) Unit Unit where
  freeq := [⟨1, Nat.one_lt_two⟩]
  zombieq := []
  runq _ := []
  timeq _ := []
  cur _ := some ⟨0, Nat.two_pos⟩
  mode _ := .user
  hand _ := none
  pc t := if t = ⟨0, Nat.two_pos⟩ then .run else .dead
  cpuidx _ := some ()
  wakeup _ := 0
  timedout _ := false
  result _ := false
  wthread _ := false
  counter _ := 0
  queue _ := BlockQueue.empty
  waiters _ := []
  token _ := .free

theorem boot_init : Init boot := by
  constructor <;> simp [boot]

/-- The processor goes on for `n` steps. -/
def goes (n : ℕ) : List (Act Unit (Fin 2) Unit Unit) := List.replicate n (.go () 0 false)

/-- Thread 0 creates thread 1 and yields to it; thread 1 enters the mutex and waits until 5.
Thread 0 runs again, and enters the mutex. -/
def waitRun : List (Act Unit (Fin 2) Unit Unit) :=
  [.create () (some ())] ++ goes 1 ++ [.yield ()] ++ goes 4 ++ [.enter () () false] ++ goes 1 ++
    [.wait () () true 5] ++ goes 7 ++ [.enter () () false] ++ goes 1

/-- Thread 0 signals thread 1, which is on its timer queue. -/
theorem one_place_signalled : ∃ s : State Unit (Fin 2) Unit Unit,
    Reach (step (fun _ => ()) fun _ => false) unblocked Init s ∧
      s.pc 0 = .wake () 1 true false ∧ s.At 1 (.timed (some ())) := by
  obtain ⟨s, hs, hpc, htd, hblocked, hcpu⟩ := run_finds
    (step (fun _ => ()) fun _ => false) unblocked Init
    (fun s : State Unit (Fin 2) Unit Unit => s.pc 0 = .wake () 1 true false ∧
      s.timedout 1 = false ∧ (s.pc 1).isBlocked = false ∧ s.cpuidx 1 = some ())
    (waitRun.append (.signal () () false :: goes 1)) boot_init (by decide) (by decide)
  exact ⟨s, hs, hpc, hcpu ▸ (one_place hs).wakeTimeq 0 () 1 false hpc htd hblocked⟩

/-- Thread 1 times out at 10, while thread 0 has the mutex, and blocks on it; thread 0 signals. -/
theorem two_places : ∃ s : State Unit (Fin 2) Unit Unit,
    Reach (step (fun _ => ()) fun _ => false) Trans.any Init s ∧
      s.At 1 (.queued (some ())) ∧ s.At 1 (.blocked ()) := by
  exact any_finds (step (fun _ => ()) fun _ => false) Init
    (fun s : State Unit (Fin 2) Unit Unit => 1 ∈ s.runq (some ()) ∧ 1 ∈ (s.queue ()).waiters)
    (waitRun.append (.yield () :: (goes 2).append (.go () 10 false :: (goes 13).append
      (.signal () () false :: goes 3))))
    boot_init (by decide)

end Librettos.Sched
