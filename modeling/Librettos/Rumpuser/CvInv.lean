/-
# `Rumpuser.CvInv` — what the states of a condition variable have in common

Three things are kept apart.  `Lock` is about the mutex: whoever is at a point that needs
it holds it.  `Waits` is about the waiters: who is on the list, who sleeps, and that a
thread that has slept was either taken by a signal or has timed out.  `Ledger` is about
the wait calls: which of them were taken by signals, and what they have returned.

Most steps are *quiet*: they move one thread that neither sleeps nor signals, and leave
the last two alone (`Quiet`).
-/
import Librettos.Rumpuser.Cv

namespace Librettos.Cv

section
variable {T : Type}

/-! ## What the control points say -/

/-- The points at which a thread holds the mutex. -/
def Pc.holds : Pc T → Bool
  | .held | .insert _ | .block _ | .relocked _ | .signal _ | .wake _ _ _ | .put _ _ => true
  | _ => false

def Pc.queued : Pc T → Bool
  | .enterQueued | .relockQueued _ => true
  | _ => false

/-- In a wait call, after its waiter has been put on the list. -/
def Pc.waits : Pc T → Option Bool
  | .block timed | .leaving timed | .asleep timed | .ready timed | .relock timed
  | .relockSlow timed | .relockQueued timed | .relocked timed => some timed
  | _ => none

/-- In a wait call, before it sleeps. -/
def Pc.early : Pc T → Bool
  | .block _ | .leaving _ => true
  | _ => false

/-- In a wait call, after it has slept. -/
def Pc.back : Pc T → Bool
  | .ready _ | .relock _ | .relockSlow _ | .relockQueued _ | .relocked _ => true
  | _ => false

/-- Neither asleep nor about to wake somebody. -/
def Pc.plain : Pc T → Bool
  | .asleep _ | .wake _ _ _ | .put _ _ => false
  | _ => true

/-- What the wait call of `t` will return: whether it has timed out. -/
def State.value (s : State T) (t : T) : Bool :=
  match s.pc t with
  | .ready _ => s.timedout t
  | _ => s.result t

/-- A signaller is at `w->wake(thread)` for `t`. -/
def State.Called (s : State T) (t : T) (timed : Bool) : Prop := ∃ u all, s.pc u = .wake t timed all

/-- A signaller is about to put `t` on its run queue. -/
def State.Put (s : State T) (t : T) : Prop := ∃ u all, s.pc u = .put t all

/-! ## The mutex -/

structure Lock (s : State T) : Prop where
  holds : ∀ t, (s.pc t).holds = true ↔ s.holder = some (.thread t)
  leaving : ∀ t timed, s.pc t = .leaving timed → s.holder = some (.callback t)
  queue : ∀ t, t ∈ s.queue ↔ (s.pc t).queued = true
  nodup : s.queue.Nodup

/-! ## The waiters -/

/-- What is known of the thread `t` as a waiter. -/
structure WaiterOk (s : State T) (t : T) : Prop where
  listed : ∀ timed, (t, timed) ∈ s.waiters ↔ (s.pc t).waits = some timed ∧ s.wthread t = true
  early : (s.pc t).early = true → s.wthread t = true
  leaving : ∀ timed, s.pc t = .leaving timed → s.timedout t = false
  asleep : ∀ timed, s.pc t = .asleep timed →
    s.timedout t = false ∧ (s.wthread t = true ∨ (∃ b, s.Called t b) ∨ s.Put t)
  timeq : t ∈ s.timeq → s.pc t = .asleep true ∧ ¬ s.Put t
  called : ∀ timed, s.Called t timed →
    (s.pc t).waits = some timed ∧ s.wthread t = false ∧ (timed = false → s.pc t = .asleep false)
  put : s.Put t → s.wthread t = false ∧ ∃ timed, s.pc t = .asleep timed
  back : (s.pc t).back = true →
    (s.value t = true → (s.pc t).waits = some true ∧ (s.wthread t = true ∨ s.Called t true)) ∧
      (s.value t = false → s.wthread t = false)

structure Waits (s : State T) : Prop where
  each : ∀ t, WaiterOk s t
  waiters : s.waiters.Nodup
  timeq : s.timeq.Nodup

/-! ## The calls -/

structure Ledger (s : State T) : Prop where
  taken : ∀ t timed, (s.pc t).waits = some timed → (s.call t ∈ s.took ↔ s.wthread t = false)
  fresh : ∀ t timed, (s.pc t).waits = some timed →
    s.call t < s.calls ∧ s.call t ∉ s.zero ∧ s.call t ∉ s.late
  inj : ∀ t u a b, (s.pc t).waits = some a → (s.pc u).waits = some b → s.call t = s.call u → t = u
  took : s.took.Nodup
  zero : ∀ w ∈ s.zero, w ∈ s.took
  nodup : s.zero.Nodup
  late : ∀ w ∈ s.late, w < s.calls ∧ w ∉ s.took
  settled : ∀ w ∈ s.took, w < s.calls ∧
    (w ∈ s.zero ∨ ∃ t timed, (s.pc t).waits = some timed ∧ s.call t = w)

variable {s s' : State T} {t : T}

theorem WaiterOk.frame (h : WaiterOk s t) (hpc : s'.pc t = s.pc t)
    (hflags : s'.wthread t = s.wthread t ∧ s'.timedout t = s.timedout t ∧ s'.result t = s.result t)
    (hwaiters : ∀ timed, (t, timed) ∈ s'.waiters ↔ (t, timed) ∈ s.waiters)
    (htimeq : t ∈ s'.timeq ↔ t ∈ s.timeq) (hcalled : ∀ timed, s'.Called t timed ↔ s.Called t timed)
    (hput : s'.Put t ↔ s.Put t) : WaiterOk s' t := by
  obtain ⟨hw, htd, hres⟩ := hflags
  have hvalue : s'.value t = s.value t := by simp only [State.value, hpc, htd, hres]
  constructor <;> simp only [hpc, hw, htd, hvalue, hwaiters, htimeq, hcalled, hput]
  exacts [h.listed, h.early, h.leaving, h.asleep, h.timeq, h.called, h.put, h.back]

theorem WaiterOk.idle_iff (hpc : (s.pc t).waits = none) : WaiterOk s t ↔
    (∀ b, (t, b) ∉ s.waiters) ∧ t ∉ s.timeq ∧ (∀ b, ¬ s.Called t b) ∧ ¬ s.Put t := by
  have hne : (s.pc t).early = false ∧ (s.pc t).back = false ∧
      ∀ b, s.pc t ≠ .leaving b ∧ s.pc t ≠ .asleep b := by
    cases hc : s.pc t <;> simp [hc, Pc.waits, Pc.early, Pc.back] at hpc ⊢
  constructor
  · intro h
    refine ⟨fun b hb => ?_, fun hq => (hne.2.2 true).2 (h.timeq hq).1, fun b hc => ?_, fun hp => ?_⟩
    · simpa [hpc] using (h.listed b).mp hb
    · simpa [hpc] using (h.called b hc).1
    · obtain ⟨-, b, hb⟩ := h.put hp
      exact (hne.2.2 b).2 hb
  · rintro ⟨hlist, hq, hc, hp⟩
    constructor <;> simp [hne, hpc, hlist, hq, hc, hp]

theorem Ledger.move (h : Ledger s) (hpc : ∀ j, j ≠ t → s'.pc j = s.pc j)
    (hwaits : (s'.pc t).waits = (s.pc t).waits)
    (hcall : s'.call = s.call ∧ s'.calls = s.calls ∧ s'.wthread = s.wthread)
    (hlists : s'.took = s.took ∧ s'.zero = s.zero ∧ s'.late = s.late) : Ledger s' := by
  obtain ⟨hcall, hcalls, hflag⟩ := hcall
  obtain ⟨htook, hzero, hlate⟩ := hlists
  have hall : ∀ j, (s'.pc j).waits = (s.pc j).waits := by
    intro j
    by_cases hj : j = t
    · rw [hj, hwaits]
    · rw [hpc j hj]
  constructor <;> simp only [hall, hcall, hcalls, hflag, htook, hzero, hlate]
  exacts [h.taken, h.fresh, h.inj, h.took, h.zero, h.nodup, h.late, h.settled]

theorem called_congr {j : T} {timed : Bool} (hpc : ∀ v, v ≠ t → s'.pc v = s.pc v)
    (h : ∀ all, s.pc t ≠ .wake j timed all) (h' : ∀ all, s'.pc t ≠ .wake j timed all) :
    s'.Called j timed ↔ s.Called j timed := by
  refine exists_congr fun v => exists_congr fun all => ?_
  by_cases hv : v = t
  · subst hv
    exact iff_of_false (h' all) (h all)
  · rw [hpc v hv]

theorem put_congr {j : T} (hpc : ∀ v, v ≠ t → s'.pc v = s.pc v) (h : ∀ all, s.pc t ≠ .put j all)
    (h' : ∀ all, s'.pc t ≠ .put j all) : s'.Put j ↔ s.Put j := by
  refine exists_congr fun v => exists_congr fun all => ?_
  by_cases hv : v = t
  · subst hv
    exact iff_of_false (h' all) (h all)
  · rw [hpc v hv]

variable (s s' t) in
/-- A step of a thread that is calling nobody, neither before nor after it. -/
theorem calls_congr (hpc : ∀ v, v ≠ t → s'.pc v = s.pc v)
    (h : ∀ j b all, s.pc t ≠ .wake j b all ∧ s.pc t ≠ .put j all)
    (h' : ∀ j b all, s'.pc t ≠ .wake j b all ∧ s'.pc t ≠ .put j all) (j : T) :
    (∀ b, s'.Called j b ↔ s.Called j b) ∧ (s'.Put j ↔ s.Put j) :=
  ⟨fun b => called_congr hpc (fun all => (h j b all).1) fun all => (h' j b all).1,
    put_congr hpc (fun all => (h j true all).2) fun all => (h' j true all).2⟩

theorem Pc.not_calls {c : Pc T} (h : c.plain = true) (j : T) (b all : Bool) :
    c ≠ .wake j b all ∧ c ≠ .put j all := by
  constructor <;> rintro rfl <;> simp [Pc.plain] at h

/-- What a quiet step leaves alone: everything but the control point of `t`, its flags
and the mutex. -/
structure Quiet (s s' : State T) (t : T) : Prop where
  pc : ∀ j, j ≠ t → s'.pc j = s.pc j
  timedout : ∀ j, j ≠ t → s'.timedout j = s.timedout j
  result : ∀ j, j ≠ t → s'.result j = s.result j
  waiters : s'.waiters = s.waiters
  timeq : s'.timeq = s.timeq
  wthread : s'.wthread = s.wthread
  call : s'.call = s.call
  calls : s'.calls = s.calls
  took : s'.took = s.took
  zero : s'.zero = s.zero
  late : s'.late = s.late
  plain : (s.pc t).plain = true
  plain' : (s'.pc t).plain = true
  waits : (s'.pc t).waits = (s.pc t).waits
  early : (s'.pc t).early = true → (s.pc t).early = true
  leaving : ∀ timed, s'.pc t = .leaving timed → s'.timedout t = false
  back : (s'.pc t).back = true → (s.pc t).back = true ∧ s'.value t = s.value t

namespace Quiet

theorem called_iff (h : Quiet s s' t) : ∀ j, (∀ b, s'.Called j b ↔ s.Called j b) ∧ (s'.Put j ↔ s.Put j) :=
  calls_congr _ _ _ h.pc (Pc.not_calls h.plain) (Pc.not_calls h.plain')

theorem waiterOk (h : Quiet s s' t) (hw : WaiterOk s t) : WaiterOk s' t := by
  have hna : ∀ {c : Pc T} timed, c.plain = true → c ≠ .asleep timed := by
    rintro _ timed hplain rfl
    simp [Pc.plain] at hplain
  constructor
  case leaving => exact h.leaving
  case asleep => exact fun timed ha => absurd ha (hna timed h.plain')
  all_goals simp only [h.waiters, h.timeq, h.waits, h.wthread, h.called_iff]
  case listed => exact hw.listed
  case early => exact fun he => hw.early (h.early he)
  case timeq => exact fun ht => absurd (hw.timeq ht).1 (hna true h.plain)
  case called =>
    intro timed hc
    obtain ⟨hwaits, hflag, hpc⟩ := hw.called timed hc
    exact ⟨hwaits, hflag, fun hf => absurd (hpc hf) (hna false h.plain)⟩
  case put =>
    intro hp
    obtain ⟨-, timed, hpc⟩ := hw.put hp
    exact absurd hpc (hna timed h.plain)
  case back =>
    intro hb
    obtain ⟨hback, hvalue⟩ := h.back hb
    rw [hvalue]
    exact hw.back hback

theorem inWaits (h : Quiet s s' t) (hw : Waits s) : Waits s' where
  each := by
    intro j
    by_cases hj : j = t
    · exact hj ▸ h.waiterOk (hw.each t)
    · exact (hw.each j).frame (h.pc j hj) ⟨by rw [h.wthread], h.timedout j hj, h.result j hj⟩
        (fun _ => by rw [h.waiters]) (by rw [h.timeq]) (h.called_iff j).1 (h.called_iff j).2
  waiters := h.waiters ▸ hw.waiters
  timeq := h.timeq ▸ hw.timeq

theorem inLedger (h : Quiet s s' t) (hl : Ledger s) : Ledger s' :=
  hl.move h.pc h.waits ⟨h.call, h.calls, h.wthread⟩ ⟨h.took, h.zero, h.late⟩

end Quiet

namespace Lock

section
variable (h : Lock s)
include h

/-- A step of `t`: what the others know of the mutex is as before. -/
theorem update (hpc : ∀ j, j ≠ t → s'.pc j = s.pc j)
    (hholder : ∀ j, j ≠ t → (s'.holder = some (.thread j) ↔ s.holder = some (.thread j)) ∧
      (s.holder = some (.callback j) → s'.holder = some (.callback j)))
    (hqueue : ∀ j, j ≠ t → (j ∈ s'.queue ↔ j ∈ s.queue)) (hnodup : s'.queue.Nodup)
    (hholds : (s'.pc t).holds = true ↔ s'.holder = some (.thread t))
    (hleaving : ∀ timed, s'.pc t = .leaving timed → s'.holder = some (.callback t))
    (hqueued : t ∈ s'.queue ↔ (s'.pc t).queued = true) : Lock s' := by
  refine ⟨fun j => ?_, fun j timed => ?_, fun j => ?_, hnodup⟩ <;> by_cases hj : j = t
  · exact hj ▸ hholds
  · rw [hpc j hj, (hholder j hj).1, h.holds]
  · exact hj ▸ hleaving timed
  · rw [hpc j hj]
    exact fun hl => (hholder j hj).2 (h.leaving j timed hl)
  · exact hj ▸ hqueued
  · rw [hpc j hj, hqueue j hj, h.queue]

theorem move (hpc : ∀ j, j ≠ t → s'.pc j = s.pc j) (hholder : s'.holder = s.holder)
    (hqueue : s'.queue = s.queue) (hholds : (s'.pc t).holds = (s.pc t).holds)
    (hqueued : (s'.pc t).queued = (s.pc t).queued)
    (hleaving : ∀ timed, s'.pc t = .leaving timed → s.pc t = .leaving timed) : Lock s' := by
  refine h.update hpc (fun _ _ => by simp [hholder]) (fun _ _ => by rw [hqueue]) (hqueue ▸ h.nodup)
    (by rw [hholds, hholder, h.holds]) (fun timed hl => ?_) (by rw [hqueue, h.queue, hqueued])
  rw [hholder]
  exact h.leaving t timed (hleaving timed hl)

theorem not_holds {j : T} (hj : s.holder ≠ some (.thread j)) : (s.pc j).holds = false := by
  simpa using mt (h.holds j).mp hj

theorem pass {a : Agent T} (hpc : ∀ j, j ≠ t → s'.pc j = s.pc j) (hholder : s'.holder = some a)
    (hold : s.holder = none ∨ s.holder = some (.thread t))
    (hqueue : s'.queue = s.queue) (hqueued : (s'.pc t).queued = (s.pc t).queued)
    (ha : a = .thread t ∧ (s'.pc t).holds = true ∧ (∀ timed, s'.pc t ≠ .leaving timed) ∨
      a = .callback t ∧ (s'.pc t).holds = false) : Lock s' := by
  refine h.update hpc (fun j hj => ?_) (fun _ _ => by rw [hqueue]) (hqueue ▸ h.nodup) ?_
    (fun timed hl => ?_) (by rw [hqueue, h.queue, hqueued])
  · rcases ha with ⟨rfl, -⟩ | ⟨rfl, -⟩ <;> rcases hold with hn | hn <;>
      simp [hholder, hn, Ne.symm hj]
  · rcases ha with ⟨rfl, hh, -⟩ | ⟨rfl, hh⟩ <;> simp [hholder, hh]
  · rcases ha with ⟨-, -, hn⟩ | ⟨rfl, -⟩
    · exact absurd hl (hn timed)
    · exact hholder

theorem enqueue (hpc : ∀ j, j ≠ t → s'.pc j = s.pc j) (hholder : s'.holder = s.holder)
    (hqueue : s'.queue = s.queue ++ [t]) (hholds : (s.pc t).holds = false)
    (hholds' : (s'.pc t).holds = false) (hqueued : (s.pc t).queued = false)
    (hqueued' : (s'.pc t).queued = true) : Lock s' := by
  have hnot : t ∉ s.queue := by simp [h.queue, hqueued]
  refine h.update hpc (fun _ _ => by simp [hholder]) (fun j hj => by simp [hqueue, hj]) ?_
    (by rw [hholds', hholder, ← h.holds, hholds]) (fun timed hl => ?_) (by simp [hqueue, hqueued'])
  · rw [hqueue]
    simpa using h.nodup.concat hnot
  · simp [hl, Pc.queued] at hqueued'

theorem sole {j u : T} (hj : (s.pc j).holds = true) (hu : (s.pc u).holds = true) : j = u :=
  Agent.thread.inj (Option.some.inj (((h.holds j).mp hj).symm.trans ((h.holds u).mp hu)))

theorem calls_iff (ht : (s.pc t).holds = true) (j : T) :
    (∀ b, s.Called j b ↔ ∃ all, s.pc t = .wake j b all) ∧ (s.Put j ↔ ∃ all, s.pc t = .put j all) := by
  refine ⟨fun b => ⟨?_, fun ⟨all, hc⟩ => ⟨t, all, hc⟩⟩, ?_, fun ⟨all, hc⟩ => ⟨t, all, hc⟩⟩
  · rintro ⟨u, all, hu⟩
    obtain rfl := h.sole (by rw [hu]; rfl) ht
    exact ⟨all, hu⟩
  · rintro ⟨u, all, hu⟩
    obtain rfl := h.sole (by rw [hu]; rfl) ht
    exact ⟨all, hu⟩

end

end Lock

/-- The mutex is about to be given back. -/
structure Free (s : State T) : Prop where
  holds : ∀ t, (s.pc t).holds = false
  leaving : ∀ t timed, s.pc t ≠ .leaving timed
  queue : ∀ t, t ∈ s.queue ↔ (s.pc t).queued = true
  nodup : s.queue.Nodup

theorem Free.iff_lock : Free s ↔ Lock { s with holder := none } := by
  constructor
  · intro h
    exact ⟨by simp [h.holds], fun t timed hl => absurd hl (h.leaving t timed), h.queue, h.nodup⟩
  · intro h
    exact ⟨fun t => by simpa using h.holds t, fun t timed hl => by simpa using h.leaving t timed hl,
      h.queue, h.nodup⟩

end

end Librettos.Cv
