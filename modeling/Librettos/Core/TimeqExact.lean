/-
# `Core.TimeqExact` — the deadlines, in order and on time

Every processor has a queue of threads that wait for a deadline, and there is one more for the
threads that are bound to none.  Three operations of `sched.c` change them, each under
`timeq_lock` and so in one step:

    bmk_insert_timeq        a thread blocks with a deadline
    the pass in schedule    at the current time, over the processor's queue and the shared one
    bmk_sched_wake_timeq    a thread is woken before its deadline

The pass stops at the first thread whose deadline is to come.  That it misses nobody rests on the
order of the queue, and so does `waketime`, for which it looks at that one thread only
(`timeq_exact`).

Times are `bmk_time_t`, nanoseconds in 64 bits, and are taken as integers.  The one sum is that of
the current time and `BLOCKTIME_MAX`, so this is exact while `curtime + BLOCKTIME_MAX < 2^63`: for
292 years after the start.
-/
import Librettos.Lib.Trans
import Librettos.Lib.StableQueue
import Librettos.Core.Timeq

namespace Librettos.TimeqExact

open Function (update update_apply update_of_ne update_self)
open List StableQueue Timeq Trans

/-- `MAXCPUS`: the index of the shared queue. -/
def maxcpus : Nat := 64

/-- `BLOCKTIME_MAX` -/
def blocktimeMax : Int := 1000 * 1000 * 1000

section
variable {T : Type}

/-- The loop over one queue: the threads that are woken, in that order, the ones that stay, and
`waketime`. -/
def expire (wakeupTime : T → Int) (curtime : Int) : List T → Int → List T × List T × Int
  | [], waketime => ([], [], waketime)
  | t :: q, waketime =>
    if wakeupTime t ≤ curtime then
      let rest := expire wakeupTime curtime q waketime
      (t :: rest.1, rest.2)
    else ([], t :: q, if wakeupTime t < waketime then wakeupTime t else waketime)

/-- The queues, with `bt_wakeup_time` and `bt_timedout` of the threads.  `wakes` has the calls of
`bt_wake` and `runs` those of `bmk_sched_wake` by `bmk_sched_wake_timeq`, the latest first; a
thread's `turn` is when it was inserted, counted by `turns`. -/
structure State (T : Type) where
  timeq : Nat → List T
  wakeupTime : T → Int
  timedout : T → Bool
  curtime : Int
  waketime : Int
  wakes : List T
  runs : List T
  turn : T → Nat
  turns : Nat
  failed : Option Assertion

inductive Act (T : Type)
  /-- the running thread blocks with a deadline -/
  | insert (t : T) (deadline : Int)
  /-- `schedule` on a processor -/
  | pass (cpu : Nat) (curtime : Int)
  /-- `bmk_sched_wake_timeq` -/
  | wake (t : T)

/-- The queues that a pass looks at. -/
def scanned (numcpus cpu i : Nat) : Prop := i = cpu ∨ 1 < numcpus ∧ i = maxcpus

variable [DecidableEq T]

/-- `bmk_sched_blockprepare_timeout`, `bmk_sched_block` and, from the callback,
`bmk_insert_timeq`. -/
def State.insert (cpuidx : T → Nat) (s : State T) (t : T) (deadline : Int) : State T :=
  let wakeupTime := update s.wakeupTime t deadline
  let timedout := update s.timedout t false
  match bmkInsertTimeq wakeupTime t (s.timeq (cpuidx t)) with
  | .ok q =>
    { s with
      timeq := update s.timeq (cpuidx t) q
      wakeupTime := wakeupTime
      timedout := timedout
      turn := update s.turn t s.turns
      turns := s.turns + 1 }
  | .error assertion =>
    { s with wakeupTime := wakeupTime, timedout := timedout, failed := some assertion }

/-- One queue of a pass. -/
def State.scan (s : State T) (i : Nat) : State T :=
  let r := expire s.wakeupTime s.curtime (s.timeq i) s.waketime
  { s with
    timeq := update s.timeq i r.2.1
    timedout := fun t => if t ∈ r.1 then true else s.timedout t
    waketime := r.2.2
    wakes := r.1.reverse ++ s.wakes }

/-- The pass begins. -/
def State.at (s : State T) (curtime : Int) : State T :=
  { s with curtime := curtime, waketime := curtime + blocktimeMax }

/-- The timeout pass of `schedule`. -/
def State.pass (numcpus : Nat) (s : State T) (cpu : Nat) (curtime : Int) : State T :=
  if numcpus ≠ 1 then ((s.at curtime).scan cpu).scan maxcpus else (s.at curtime).scan cpu

/-- `bmk_sched_wake_timeq` -/
def State.wake (cpuidx : T → Nat) (s : State T) (t : T) : State T :=
  if s.timedout t then s
  else
    { s with
      timeq := update s.timeq (cpuidx t) (removeTimeq t (s.timeq (cpuidx t)))
      runs := t :: s.runs }

/-- A thread that blocks is on no queue; time does not go back; the threads that are woken by
`bmk_sched_wake_timeq` are queued. -/
def step (numcpus : Nat) (cpuidx : T → Nat) (s : State T) : Act T → Option (State T)
  | .insert t deadline =>
    if s.failed = none ∧ t ∉ s.timeq (cpuidx t) then some (s.insert cpuidx t deadline) else none
  | .pass cpu curtime =>
    if s.failed = none ∧ cpu < maxcpus ∧ s.curtime ≤ curtime then
      some (s.pass numcpus cpu curtime)
    else none
  | .wake t =>
    if s.failed = none ∧ t ∈ s.timeq (cpuidx t) then some (s.wake cpuidx t) else none

/-- After `bmk_sched_init`. -/
structure Init (numcpus : Nat) (s : State T) : Prop where
  cpus : 0 < numcpus
  timeq : ∀ i, s.timeq i = []
  failed : s.failed = none

/-! ## The pass over one queue -/

section
variable {wakeupTime : T → Int} {waketime : Int} {turn : T → Nat} {q : List T}

section
omit [DecidableEq T]

theorem expire_woken (wakeupTime : T → Int) (curtime waketime : Int) (q : List T) :
    (expire wakeupTime curtime q waketime).1 =
      q.takeWhile fun t => decide (wakeupTime t ≤ curtime) := by
  induction q with
  | nil => rfl
  | cons t q ih =>
    rw [expire]
    split
    · next hle => simp [hle, ih]
    · next hlt => simp [hlt]

theorem expire_rest (wakeupTime : T → Int) (curtime waketime : Int) (q : List T) :
    (expire wakeupTime curtime q waketime).2.1 =
      q.dropWhile fun t => decide (wakeupTime t ≤ curtime) := by
  induction q with
  | nil => rfl
  | cons t q ih =>
    rw [expire]
    split
    · next hle => simp [hle, ih]
    · next hlt => simp [hlt]

/-- `waketime` goes down to the earliest deadline that is left: in a sorted queue the one at which
the pass stops. -/
theorem expire_isLeast (curtime : Int) (hsorted : q.Pairwise (Ahead wakeupTime turn)) {S : Set Int}
    (hleast : IsLeast S waketime) :
    IsLeast (S ∪ {d | ∃ t ∈ (expire wakeupTime curtime q waketime).2.1, wakeupTime t = d})
      (expire wakeupTime curtime q waketime).2.2 := by
  induction q with
  | nil => simpa [expire] using hleast
  | cons t q ih =>
    obtain ⟨hfirst, hq⟩ := pairwise_cons.mp hsorted
    rw [expire]
    split
    · exact ih hq
    · have hall : ∀ u ∈ t :: q, wakeupTime t ≤ wakeupTime u := by
        intro u hu
        rcases mem_cons.mp hu with rfl | hu
        · exact le_rfl
        · exact (hfirst u hu).le
      constructor
      · dsimp only
        split
        · exact .inr ⟨t, mem_cons_self, rfl⟩
        · exact .inl hleast.1
      · rintro d (hd | ⟨u, hu, rfl⟩)
        · have := hleast.2 hd
          dsimp only
          split <;> omega
        · have := hall u hu
          dsimp only
          split <;> omega

end

end

/-! ## The invariant -/

structure Inv (numcpus : Nat) (cpuidx : T → Nat) (s : State T) : Prop where
  cpus : 0 < numcpus
  sorted : ∀ i, (s.timeq i).Pairwise (Ahead s.wakeupTime s.turn)
  home : ∀ i, ∀ t ∈ s.timeq i, cpuidx t = i
  waiting : ∀ i, ∀ t ∈ s.timeq i, s.timedout t = false
  turns : ∀ i, ∀ t ∈ s.timeq i, s.turn t < s.turns
  failed : s.failed ≠ some .order

variable {numcpus : Nat} {cpuidx : T → Nat} {s s' : State T}

omit [DecidableEq T] in
theorem Init.inv (h : Init numcpus s) : Inv numcpus cpuidx s := by
  constructor
  case cpus => exact h.cpus
  case failed => simp [h.failed]
  all_goals
    intro i
    simp [h.timeq i]

/-- A thread that is in no queue is inserted behind those with the same deadline. -/
theorem Inv.insert (h : Inv numcpus cpuidx s) {t : T} (deadline : Int)
    (ht : t ∉ s.timeq (cpuidx t)) : Inv numcpus cpuidx (s.insert cpuidx t deadline) := by
  -- `t` is not in another queue either
  have hne : ∀ i, ∀ u ∈ s.timeq i, u ≠ t := by
    rintro i u hu rfl
    exact ht (h.home i u hu ▸ hu)
  have hkey : ∀ i, ∀ u ∈ s.timeq i, update s.wakeupTime t deadline u = s.wakeupTime u :=
    fun i u hu => update_of_ne (hne i u hu) _ _
  have hturn : ∀ i, ∀ u ∈ s.timeq i, update s.turn t s.turns u = s.turn u :=
    fun i u hu => update_of_ne (hne i u hu) _ _
  have hwait : ∀ i, ∀ u ∈ s.timeq i, update s.timedout t false u = false :=
    fun i u hu => (update_of_ne (hne i u hu) _ _).trans (h.waiting i u hu)
  have hsorted : ∀ i, (s.timeq i).Pairwise
      (Ahead (update s.wakeupTime t deadline) (update s.turn t s.turns)) :=
    fun i => pairwise_congr (h.sorted i) (hkey i) (hturn i)
  rw [State.insert]
  by_cases hinf : update s.wakeupTime t deadline t = infTime
  · -- the first assertion fails, and nothing is inserted
    simp only [bmkInsertTimeq, if_pos hinf]
    refine ⟨h.cpus, fun i => ?_, h.home, hwait, h.turns, by simp⟩
    exact pairwise_congr (h.sorted i) (hkey i) fun u hu => rfl
  · simp only [bmkInsertTimeq_eq hinf]
    have hlast : ∀ u ∈ s.timeq (cpuidx t), update s.turn t s.turns u <
        update s.turn t s.turns t := by
      intro u hu
      rw [hturn _ u hu, update_self]
      exact h.turns _ u hu
    have hmem : ∀ i u, u ∈ update s.timeq (cpuidx t)
        (insertTimeq (update s.wakeupTime t deadline) t (s.timeq (cpuidx t))) i →
        u = t ∧ i = cpuidx t ∨ u ∈ s.timeq i := by
      intro i u hu
      rw [update_apply] at hu
      split at hu
      · next hi =>
        rw [hi]
        exact (mem_insertTimeq.mp hu).imp_left fun hut => ⟨hut, rfl⟩
      · exact .inr hu
    constructor
    case cpus => exact h.cpus
    case failed => exact h.failed
    case sorted =>
      intro i
      dsimp only
      by_cases hi : i = cpuidx t
      · subst hi
        rw [update_self]
        exact pairwise_insert (hsorted _) hlast
      · rw [update_of_ne hi]
        exact hsorted i
    case home =>
      intro i u hu
      rcases hmem i u hu with ⟨rfl, rfl⟩ | hu
      · rfl
      · exact h.home i u hu
    case waiting =>
      intro i u hu
      rcases hmem i u hu with ⟨rfl, -⟩ | hu
      · exact update_self _ _ _
      · exact hwait i u hu
    case turns =>
      intro i u hu
      dsimp only
      rcases hmem i u hu with ⟨rfl, -⟩ | hu
      · rw [update_self]
        exact Nat.lt_succ_self _
      · rw [hturn i u hu]
        exact (h.turns i u hu).trans (Nat.lt_succ_self _)

/-- What a pass does to a queue in order: the threads that are due go, and are woken. -/
structure Scanned (s s' : State T) (i : Nat) : Prop where
  timeq : s'.timeq =
    update s.timeq i ((s.timeq i).filter fun t => decide (s.curtime < s.wakeupTime t))
  wakes : s'.wakes =
    ((s.timeq i).filter fun t => decide (s.wakeupTime t ≤ s.curtime)).reverse ++ s.wakes
  timedout : ∀ t, s'.timedout t =
    if t ∈ s.timeq i ∧ s.wakeupTime t ≤ s.curtime then true else s.timedout t
  waketime : ∀ S, IsLeast S s.waketime →
    IsLeast (S ∪ {d | ∃ t ∈ s'.timeq i, s.wakeupTime t = d}) s'.waketime
  curtime : s'.curtime = s.curtime
  wakeupTime : s'.wakeupTime = s.wakeupTime
  turn : s'.turn = s.turn
  turns : s'.turns = s.turns
  failed : s'.failed = s.failed

theorem Inv.scanned (h : Inv numcpus cpuidx s) (i : Nat) : Scanned s (s.scan i) i := by
  have hrest : (expire s.wakeupTime s.curtime (s.timeq i) s.waketime).2.1 =
      (s.timeq i).filter fun t => decide (s.curtime < s.wakeupTime t) := by
    rw [expire_rest, dropWhile_eq_filter (h.sorted i)]
  have hwoken : (expire s.wakeupTime s.curtime (s.timeq i) s.waketime).1 =
      (s.timeq i).filter fun t => decide (s.wakeupTime t ≤ s.curtime) := by
    rw [expire_woken, takeWhile_eq_filter (h.sorted i)]
  constructor
  case timeq => rw [← hrest]; rfl
  case wakes => rw [← hwoken]; rfl
  case timedout =>
    intro t
    simp only [State.scan, hwoken, mem_filter, decide_eq_true_eq]
  case waketime =>
    intro S hleast
    have hexpire := expire_isLeast s.curtime (h.sorted i) hleast
    simpa only [State.scan, update_self] using hexpire
  all_goals rfl

theorem Scanned.timeq_sublist {i : Nat} (h : Scanned s s' i) (j : Nat) :
    List.Sublist (s'.timeq j) (s.timeq j) := by
  rw [h.timeq, update_apply]
  split
  · next hj =>
    rw [hj]
    exact filter_sublist
  · exact List.Sublist.refl _

section
variable (h : Inv numcpus cpuidx s)
include h

theorem Inv.scan (i : Nat) : Inv numcpus cpuidx (s.scan i) := by
  have hscan := h.scanned i
  have hmem : ∀ {j t}, t ∈ (s.scan i).timeq j → t ∈ s.timeq j :=
    fun hmem => (hscan.timeq_sublist _).subset hmem
  constructor
  case cpus => exact h.cpus
  case sorted => exact fun j => (h.sorted j).sublist (hscan.timeq_sublist j)
  case home => exact fun j t ht => h.home j t (hmem ht)
  case waiting =>
    intro j t ht
    rw [hscan.timedout, h.waiting j t (hmem ht)]
    refine if_neg ?_
    rintro ⟨hi, hle⟩
    -- a thread that is due has left its queue
    obtain rfl : j = i := (h.home j t (hmem ht)).symm.trans (h.home i t hi)
    rw [hscan.timeq, update_self, mem_filter, decide_eq_true_eq] at ht
    omega
  case turns => exact fun j t ht => h.turns j t (hmem ht)
  case failed => exact h.failed

omit [DecidableEq T] in
theorem Inv.at (curtime : Int) : Inv numcpus cpuidx (s.at curtime) :=
  { h with }

theorem Inv.pass (cpu : Nat) (curtime : Int) : Inv numcpus cpuidx (s.pass numcpus cpu curtime) := by
  rw [State.pass]
  split
  · exact ((h.at curtime).scan cpu).scan maxcpus
  · exact (h.at curtime).scan cpu

theorem Inv.wake (t : T) : Inv numcpus cpuidx (s.wake cpuidx t) := by
  rw [State.wake]
  split
  · exact h
  · have hsub : ∀ i, List.Sublist (update s.timeq (cpuidx t)
        (removeTimeq t (s.timeq (cpuidx t))) i) (s.timeq i) := by
      intro i
      rw [update_apply]
      split
      · next hi =>
        rw [hi]
        exact erase_sublist
      · exact List.Sublist.refl _
    exact ⟨h.cpus, fun i => (h.sorted i).sublist (hsub i),
      fun i u hu => h.home i u ((hsub i).subset hu),
      fun i u hu => h.waiting i u ((hsub i).subset hu),
      fun i u hu => h.turns i u ((hsub i).subset hu), h.failed⟩

theorem Inv.step {a : Act T} (hs : step numcpus cpuidx s a = some s') : Inv numcpus cpuidx s' := by
  cases a with
  | insert t deadline =>
    obtain ⟨⟨-, ht⟩, ⟨⟩⟩ := Option.ite_none_right_eq_some.mp hs
    exact h.insert deadline ht
  | pass cpu curtime =>
    obtain ⟨-, ⟨⟩⟩ := Option.ite_none_right_eq_some.mp hs
    exact h.pass cpu curtime
  | wake t =>
    obtain ⟨-, ⟨⟩⟩ := Option.ite_none_right_eq_some.mp hs
    exact h.wake t

end

/-! ## A whole pass -/

/-- The thread's deadline is over, and it is in one of the queues. -/
def DueIn (queues : List Nat) (s : State T) (t : T) : Prop :=
  s.wakeupTime t ≤ s.curtime ∧ ∃ i ∈ queues, t ∈ s.timeq i

/-- What has been done when a pass has been over some of its queues. -/
structure Took (queues : List Nat) (s s' : State T) : Prop where
  timeq : ∀ i, s'.timeq i = if i ∈ queues then
    (s.timeq i).filter fun t => decide (s.curtime < s.wakeupTime t) else s.timeq i
  woken : ∃ woken, s'.wakes = woken ++ s.wakes ∧ woken.Nodup ∧ ∀ t, t ∈ woken ↔ DueIn queues s t
  timedout : ∀ t, (DueIn queues s t → s'.timedout t = true) ∧
    (¬DueIn queues s t → s'.timedout t = s.timedout t)
  waketime : ∀ S, IsLeast S s.waketime →
    IsLeast (S ∪ {d | ∃ i ∈ queues, ∃ t ∈ s'.timeq i, s.wakeupTime t = d}) s'.waketime
  curtime : s'.curtime = s.curtime
  wakeupTime : s'.wakeupTime = s.wakeupTime

omit [DecidableEq T] in
theorem Took.nil (s : State T) : Took [] s s where
  timeq i := by simp
  woken := ⟨[], rfl, nodup_nil, by simp [DueIn]⟩
  timedout t := by simp [DueIn]
  waketime S h := by simpa using h
  curtime := rfl
  wakeupTime := rfl

omit [DecidableEq T] in
theorem dueIn_cons {i : Nat} {queues : List Nat} {t : T} :
    DueIn (i :: queues) s t ↔ (t ∈ s.timeq i ∧ s.wakeupTime t ≤ s.curtime) ∨ DueIn queues s t := by
  simp only [DueIn, mem_cons, exists_eq_or_imp, and_or_left, and_comm]

theorem Took.scan {i : Nat} {queues : List Nat} (h : Took queues s s') (hinv : Inv numcpus cpuidx s)
    (hinv' : Inv numcpus cpuidx s') (hi : i ∉ queues) : Took (i :: queues) s (s'.scan i) := by
  have hscan := hinv'.scanned i
  have hsame : s'.timeq i = s.timeq i := by rw [h.timeq, if_neg hi]
  obtain ⟨woken, hwakes, hnodup, hmem⟩ := h.woken
  -- no thread is in two queues
  have hapart : ∀ t, t ∈ s.timeq i → ¬DueIn queues s t := by
    rintro t ht ⟨-, j, hj, htj⟩
    obtain rfl : i = j := (hinv.home i t ht).symm.trans (hinv.home j t htj)
    exact hi hj
  constructor
  case timeq =>
    intro j
    rw [hscan.timeq, h.curtime, h.wakeupTime, hsame, update_apply]
    by_cases hj : j = i
    · simp [hj]
    · simp [hj, h.timeq j]
  case woken =>
    refine ⟨((s.timeq i).filter fun t => decide (s.wakeupTime t ≤ s.curtime)).reverse ++ woken,
      ?_, ?_, fun t => ?_⟩
    · rw [hscan.wakes, h.curtime, h.wakeupTime, hsame, hwakes, append_assoc]
    · refine nodup_append.mpr ⟨?_, hnodup, ?_⟩
      · exact nodup_reverse.mpr ((nodup_of_pairwise (hinv.sorted i)).filter _)
      · rintro t ht u hu rfl
        rw [mem_reverse, mem_filter] at ht
        exact hapart t ht.1 ((hmem t).mp hu)
    · rw [mem_append, mem_reverse, mem_filter, decide_eq_true_eq, hmem, dueIn_cons]
  case timedout =>
    intro t
    rw [hscan.timedout, h.curtime, h.wakeupTime, hsame, dueIn_cons]
    constructor
    · rintro (hdue | hdue)
      · rw [if_pos hdue]
      · rw [(h.timedout t).1 hdue, ite_self]
    · intro hnot
      rw [not_or] at hnot
      rw [if_neg hnot.1, (h.timedout t).2 hnot.2]
  case waketime =>
    intro S hleast
    have hnext := hscan.waketime _ (h.waketime S hleast)
    rw [h.wakeupTime, Set.union_assoc] at hnext
    convert hnext using 2
    ext d
    have hother : ∀ j ∈ queues, (s'.scan i).timeq j = s'.timeq j := by
      intro j hj
      rw [hscan.timeq, update_of_ne]
      rintro rfl
      exact hi hj
    simp only [Set.mem_ofPred_eq, Set.mem_union, mem_cons, exists_eq_or_imp]
    rw [or_comm]
    refine or_congr_left (exists_congr fun j => and_congr_right fun hj => ?_)
    rw [hother j hj]
  case curtime => exact hscan.curtime.trans h.curtime
  case wakeupTime => exact hscan.wakeupTime.trans h.wakeupTime

/-- The thread's deadline is over, and the pass comes to its queue. -/
def Due (numcpus : Nat) (s : State T) (cpu : Nat) (curtime : Int) (t : T) : Prop :=
  s.wakeupTime t ≤ curtime ∧ ∃ i, scanned numcpus cpu i ∧ t ∈ s.timeq i

/-- What a pass is to do: it takes the threads that are due from its queues and leaves all others,
calls `bt_wake` once for each of them, marks them and nobody else, and finds the earliest of the
deadlines that are left. -/
structure PassExact (numcpus : Nat) (s s' : State T) (cpu : Nat) (curtime : Int) : Prop where
  removed : ∀ i t, t ∈ s'.timeq i ↔ t ∈ s.timeq i ∧ ¬Due numcpus s cpu curtime t
  woken : ∃ woken, s'.wakes = woken ++ s.wakes ∧ woken.Nodup ∧
    ∀ t, t ∈ woken ↔ Due numcpus s cpu curtime t
  timedout : ∀ t, (Due numcpus s cpu curtime t → s'.timedout t = true) ∧
    (¬Due numcpus s cpu curtime t → s'.timedout t = s.timedout t)
  waketime : IsLeast ({curtime + blocktimeMax} ∪
    {d | ∃ i, scanned numcpus cpu i ∧ ∃ t ∈ s'.timeq i, s.wakeupTime t = d}) s'.waketime

omit [DecidableEq T] in
theorem Took.passExact {queues : List Nat} {cpu : Nat} {curtime : Int}
    (h : Took queues (s.at curtime) s') (hinv : Inv numcpus cpuidx s)
    (hqueues : ∀ i, i ∈ queues ↔ scanned numcpus cpu i) : PassExact numcpus s s' cpu curtime := by
  have hdue : ∀ t, DueIn queues (s.at curtime) t ↔ Due numcpus s cpu curtime t := by
    intro t
    simp only [DueIn, Due, hqueues]
    rfl
  constructor
  case removed =>
    intro i t
    rw [h.timeq]
    by_cases hi : i ∈ queues
    · rw [if_pos hi, mem_filter, decide_eq_true_eq]
      refine and_congr_right fun ht => ?_
      rw [← hdue, DueIn, not_and]
      constructor
      · intro hlt hle
        exact absurd hlt (not_lt.mpr hle)
      · intro hnot
        by_contra hle
        exact hnot (not_lt.mp hle) ⟨i, hi, ht⟩
    · rw [if_neg hi]
      refine ⟨fun ht => ⟨ht, ?_⟩, And.left⟩
      rw [← hdue]
      rintro ⟨-, j, hj, htj⟩
      obtain rfl : i = j := (hinv.home i t ht).symm.trans (hinv.home j t htj)
      exact hi hj
  case woken =>
    obtain ⟨woken, hwakes, hnodup, hmem⟩ := h.woken
    exact ⟨woken, hwakes, hnodup, fun t => (hmem t).trans (hdue t)⟩
  case timedout =>
    intro t
    rw [← hdue]
    exact h.timedout t
  case waketime =>
    have hleast := h.waketime {curtime + blocktimeMax} isLeast_singleton
    simp only [hqueues] at hleast
    exact hleast

theorem Inv.passExact (h : Inv numcpus cpuidx s) {cpu : Nat} (hcpu : cpu < maxcpus)
    (curtime : Int) : PassExact numcpus s (s.pass numcpus cpu curtime) cpu curtime := by
  have hcpus := h.cpus
  have hat := h.at curtime
  have hfirst := (Took.nil (s.at curtime)).scan hat hat (not_mem_nil (a := cpu))
  rw [State.pass]
  split
  · next hmany =>
    have hsecond := hfirst.scan hat (hat.scan cpu)
      (by simpa using (Nat.ne_of_lt hcpu).symm)
    refine hsecond.passExact h fun i => ?_
    simp only [mem_cons, not_mem_nil, or_false, TimeqExact.scanned]
    omega
  · next hone =>
    refine hfirst.passExact h fun i => ?_
    simp only [mem_cons, not_mem_nil, or_false, TimeqExact.scanned]
    omega

/-- **In order and on time.**  In every run each queue is sorted by deadline, with equal deadlines
in the order in which they came, and the assertion on the order never fails.  A pass takes and
wakes the threads that are due, each once, marks no other, and leaves `waketime` at the
earliest of the deadlines that remain on its queues, one second from now at the latest. -/
theorem timeq_exact (h : Reach (step numcpus cpuidx) Trans.any (Init numcpus) s) :
    (∀ i, (s.timeq i).Pairwise (Ahead s.wakeupTime s.turn)) ∧ s.failed ≠ some .order ∧
      ∀ cpu curtime s', step numcpus cpuidx s (.pass cpu curtime) = some s' →
        PassExact numcpus s s' cpu curtime := by
  have hinv : Inv numcpus cpuidx s :=
    h.inv (fun _ h0 => h0.inv) fun _ _ _ hi _ hs => hi.step hs
  refine ⟨hinv.sorted, hinv.failed, fun cpu curtime s' hs => ?_⟩
  obtain ⟨⟨-, hcpu, -⟩, ⟨⟩⟩ := Option.ite_none_right_eq_some.mp hs
  exact hinv.passExact hcpu curtime

end

/-- Two processors, thread 0 on the first and thread 1 on none. -/
def twoThreads (t : Fin 2) : Nat := if t.val = 0 then 0 else maxcpus

/-- No thread waits. -/
def boot : State (Fin 2) where
  timeq _ := []
  wakeupTime _ := infTime
  timedout _ := false
  curtime := 0
  waketime := 0
  wakes := []
  runs := []
  turn _ := 0
  turns := 0
  failed := none

theorem boot_init : Init 2 boot := ⟨Nat.two_pos, fun _ => rfl, rfl⟩

/-- The two wait, and at time 20 the one on the shared queue is due. -/
theorem timeq_exact_two : ∃ s : State (Fin 2),
    Reach (step 2 twoThreads) Trans.any (Init 2) s ∧ (s.pass 2 0 20).wakes = [1] ∧
      PassExact 2 s (s.pass 2 0 20) 0 20 := by
  obtain ⟨s, hreach, hwakes, hfailed, htime⟩ := any_finds (step 2 twoThreads) (Init 2)
    (fun s => (s.pass 2 0 20).wakes = [1] ∧ s.failed = none ∧ s.curtime ≤ 20)
    [.insert 0 30, .insert 1 10] boot_init (by decide)
  have hstep : step 2 twoThreads s (.pass 0 20) = some (s.pass 2 0 20) :=
    if_pos ⟨hfailed, by decide, htime⟩
  exact ⟨s, hreach, hwakes, (timeq_exact hreach).2.2 0 20 _ hstep⟩

end Librettos.TimeqExact
