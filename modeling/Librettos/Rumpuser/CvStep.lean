/-
# `Rumpuser.CvStep` — the steps that are not quiet

The waiters and the wait calls after the mutex is given back, after a waiter is put on
the list or has left it, after a signal has taken one, and after a thread has been put to
sleep or on its run queue.
-/
import Librettos.Rumpuser.CvInv

namespace Librettos.Cv

open Function List State
open Function (update_self)

section
variable {T : Type} [DecidableEq T] {s s' : State T} {t : T}

attribute [local simp] State.setPc Pc.holds Pc.queued Pc.plain Pc.waits Pc.early Pc.back

/-! ## The mutex is given back -/

theorem Free.quiet (h : Free s) {u : T} {us : List T} (hq : s.queue = u :: us) :
    Quiet s s.release u := by
  have hqueued : (s.pc u).queued = true := (h.queue u).mp (by simp [hq])
  unfold release
  rw [hq]
  cases hpc : s.pc u with
  | enterQueued => constructor <;> simp +contextual [hpc, Pc.handed]
  | relockQueued timed => constructor <;> simp +contextual [hpc, Pc.handed, value]
  | _ => simp [hpc] at hqueued

theorem Free.lock (h : Free s) : Lock s.release := by
  have hlock := Free.iff_lock.mp h
  cases hq : s.queue with
  | nil => rwa [show s.release = { s with holder := none } by simp [release, hq]]
  | cons u us =>
    have hrel : s.release =
        { s.setPc u (s.pc u).handed with holder := some (.thread u), queue := us } := by
      simp [release, hq]
    have hnodup := h.nodup
    rw [hq, nodup_cons] at hnodup
    have hqueued : (s.pc u).queued = true := (h.queue u).mp (by simp [hq])
    have hhanded : (s.pc u).handed.holds = true ∧ (s.pc u).handed.queued = false ∧
        ∀ timed, (s.pc u).handed ≠ .leaving timed := by
      cases hpc : s.pc u <;> simp [hpc, Pc.handed] at hqueued ⊢
    rw [hrel]
    refine hlock.update (t := u) (fun j hj => by simp [hj]) (fun j hj => by simp [Ne.symm hj])
      (fun j hj => by simp [hq, hj]) hnodup.2 ?_ ?_ ?_
    · simp only [setPc, update_self, hhanded.1]
    · simp [hhanded.2.2]
    · simp only [setPc, update_self, hhanded.2.1, hnodup.1, Bool.false_eq_true]

theorem Free.waits (h : Free s) (hw : Waits s) : Waits s.release := by
  cases hq : s.queue with
  | nil =>
    have hrel : s.release = { s with holder := none } := by simp [release, hq]
    rw [hrel]
    exact ⟨fun j => (hw.each j).frame rfl ⟨rfl, rfl, rfl⟩ (fun _ => .rfl) .rfl (fun _ => .rfl) .rfl,
      hw.waiters, hw.timeq⟩
  | cons u us => exact (h.quiet hq).inWaits hw

theorem Free.ledger (h : Free s) (hl : Ledger s) : Ledger s.release := by
  cases hq : s.queue with
  | nil =>
    have hrel : s.release = { s with holder := none } := by simp [release, hq]
    rw [hrel]
    exact { hl with }
  | cons u us => exact (h.quiet hq).inLedger hl

omit [DecidableEq T] in
theorem Lock.free (h : Lock s) (hholder : s.holder = some (.thread t) ∨ s.holder = some (.callback t))
    (hpc : ∀ j, j ≠ t → s'.pc j = s.pc j) (hqueue : s'.queue = s.queue)
    (hholds : (s'.pc t).holds = false) (hleaving : ∀ timed, s'.pc t ≠ .leaving timed)
    (hqueued : (s'.pc t).queued = (s.pc t).queued) : Free s' := by
  refine Free.iff_lock.mpr (h.update hpc (fun j hj => ?_) (fun _ _ => by rw [hqueue])
    (hqueue ▸ h.nodup) (by simp only [hholds, reduceCtorEq, Bool.false_eq_true])
    (fun timed hl => absurd hl (hleaving timed))
    (by rw [hqueue, h.queue, hqueued]))
  rcases hholder with hn | hn <;> simp [hn, Ne.symm hj]

/-! ## Steps that are not quiet -/

theorem Waits.insert {timed : Bool} (h : Waits s) (hpc : s.pc t = .insert timed) :
    Waits { s.setPc t (.block timed) with
      waiters := s.waiters ++ [(t, timed)]
      wthread := update s.wthread t true
      call := update s.call t s.calls
      calls := s.calls + 1 } := by
  obtain ⟨hnot, hnq, hnc, hnp⟩ := (WaiterOk.idle_iff (by simp [hpc])).mp (h.each t)
  have hcalls := calls_congr s (s.setPc t (.block timed)) t (fun v hv => by simp [hv])
    (by simp [hpc]) (by simp)
  refine ⟨fun j => ?_, by simpa using h.waiters.concat (hnot timed), h.timeq⟩
  by_cases hj : j = t
  · subst hj
    constructor
    case listed => simp [hnot, eq_comm]
    case timeq => exact fun hq => absurd hq hnq
    case called => exact fun b hc => absurd (((hcalls j).1 b).mp hc) (hnc b)
    case put => exact fun hp => absurd ((hcalls j).2.mp hp) hnp
    all_goals simp
  · exact (h.each j).frame (by simp [hj]) ⟨by simp [hj], rfl, rfl⟩ (fun b => by simp [hj]) .rfl
      (hcalls j).1 (hcalls j).2

theorem Ledger.insert {timed : Bool} (h : Ledger s) (hpc : s.pc t = .insert timed) :
    Ledger { s.setPc t (.block timed) with
      waiters := s.waiters ++ [(t, timed)]
      wthread := update s.wthread t true
      call := update s.call t s.calls
      calls := s.calls + 1 } := by
  have hnew : s.calls ∉ s.took := fun hm => by
    have := (h.settled _ hm).1
    omega
  constructor
  case taken =>
    intro j b hj
    by_cases hjt : j = t
    · simpa [hjt] using hnew
    · simpa [hjt] using h.taken j b (by simpa [hjt] using hj)
  case fresh =>
    intro j b hj
    by_cases hjt : j = t
    · have hz : s.calls ∉ s.zero := fun hm => hnew (h.zero _ hm)
      have hl : s.calls ∉ s.late := fun hm => by
        have := (h.late _ hm).1
        omega
      simp [hjt, hz, hl]
    · obtain ⟨hlt, hz, hl⟩ := h.fresh j b (by simpa [hjt] using hj)
      simp [hjt, hz, hl]
      omega
  case inj =>
    intro j u a b hj hu
    by_cases hjt : j = t <;> by_cases hut : u = t
    · simp [hjt, hut]
    · have hlt := (h.fresh u b (by simpa [hut] using hu)).1
      simp [hjt, hut]
      omega
    · have hlt := (h.fresh j a (by simpa [hjt] using hj)).1
      simp [hjt, hut]
      omega
    · simpa [hjt, hut] using h.inj j u a b (by simpa [hjt] using hj)
        (by simpa [hut] using hu)
  case took => exact h.took
  case zero => exact h.zero
  case nodup => exact h.nodup
  case late => exact fun w hw => ⟨by have := (h.late w hw).1; simp; omega, (h.late w hw).2⟩
  case settled =>
    intro w hw
    obtain ⟨hlt, hs⟩ := h.settled w hw
    refine ⟨by simp; omega, hs.imp_right ?_⟩
    rintro ⟨j, b, hj, hcall⟩
    have hjt : j ≠ t := by
      rintro rfl
      simp [hpc] at hj
    exact ⟨j, b, by simpa [hjt] using hj, by simpa [hjt] using hcall⟩

omit [DecidableEq T] in
theorem Waits.relocked {timed : Bool} (h : Waits s) (hlock : Lock s) (hpc : s.pc t = .relocked timed) :
    (timed && s.result t) = true ∧ timed = true ∧ s.wthread t = true ∨
      (timed && s.result t) = false ∧ s.wthread t = false := by
  obtain ⟨htrue, hfalse⟩ := (h.each t).back (by simp [hpc])
  have hcalled : ∀ b, ¬ s.Called t b := by
    simpa [hpc] using (hlock.calls_iff (t := t) (by simp [hpc]) t).1
  have hvalue : s.value t = s.result t := by simp [value, hpc]
  rw [hvalue] at htrue hfalse
  cases hres : s.result t with
  | true =>
    obtain ⟨hwaits, hflag⟩ := htrue hres
    have htimed : timed = true := by simpa [hpc] using hwaits
    exact .inl ⟨by simp [htimed], htimed, hflag.resolve_right (hcalled true)⟩
  | false => exact .inr ⟨by simp, hfalse hres⟩

theorem Waits.ret {timed : Bool} (h : Waits s) (hlock : Lock s) (hpc : s.pc t = .relocked timed) :
    Waits { s.setPc t .held with
      waiters := if timed && s.wthread t then s.waiters.erase (t, timed) else s.waiters
      zero := if timed && s.result t then s.zero else s.zero ++ [s.call t]
      late := if timed && s.result t then s.late ++ [s.call t] else s.late } := by
  have ht := h.each t
  have hnone : (∀ b, ¬ s.Called t b) ∧ ¬ s.Put t := by
    simpa [hpc] using hlock.calls_iff (t := t) (by simp [hpc]) t
  have hcalls := calls_congr s (s.setPc t .held) t (fun v hv => by simp [hv])
    (by simp [hpc]) (by simp)
  have hmem : ∀ j b, (j, b) ∈ (if timed && s.wthread t then s.waiters.erase (t, timed) else s.waiters) ↔
      (j, b) ∈ s.waiters ∧ j ≠ t := by
    intro j b
    have hlist : (j, b) ∈ s.waiters → j = t → b = timed ∧ s.wthread t = true := by
      rintro hm rfl
      obtain ⟨hb, hflag⟩ := (ht.listed b).mp hm
      exact ⟨by simpa [hpc, eq_comm] using hb, hflag⟩
    split
    next hc =>
      rw [h.waiters.mem_erase_iff]
      have : (j, b) ≠ (t, timed) ↔ ¬ (j = t ∧ b = timed) := by simp
      tauto
    next hc =>
      refine ⟨fun hm => ⟨hm, fun hj => hc ?_⟩, And.left⟩
      obtain ⟨-, hflag⟩ := hlist hm hj
      rcases h.relocked hlock hpc with ⟨-, htimed, -⟩ | ⟨-, hf⟩
      · simp [htimed, hflag]
      · simp [hflag] at hf
  refine ⟨fun j => ?_, ?_, h.timeq⟩
  · by_cases hj : j = t
    · subst hj
      refine (WaiterOk.idle_iff (by simp)).mpr ⟨fun b hb => ((hmem j b).mp hb).2 rfl, fun hq => ?_,
        fun b hc => hnone.1 b (((hcalls j).1 b).mp hc), fun hp => hnone.2 ((hcalls j).2.mp hp)⟩
      simpa [hpc] using (ht.timeq hq).1
    · exact (h.each j).frame (by simp [hj]) ⟨rfl, rfl, rfl⟩ (fun b => (hmem j b).trans (by simp [hj]))
        .rfl (hcalls j).1 (hcalls j).2
  · split
    · exact h.waiters.erase _
    · exact h.waiters

theorem Ledger.ret {timed : Bool} (h : Ledger s) (hw : Waits s) (hlock : Lock s)
    (hpc : s.pc t = .relocked timed) :
    Ledger { s.setPc t .held with
      waiters := if timed && s.wthread t then s.waiters.erase (t, timed) else s.waiters
      zero := if timed && s.result t then s.zero else s.zero ++ [s.call t]
      late := if timed && s.result t then s.late ++ [s.call t] else s.late } := by
  have hwt : (s.pc t).waits = some timed := by simp [hpc]
  obtain ⟨hlt, hz, hl⟩ := h.fresh t timed hwt
  have htaken := h.taken t timed hwt
  have hne : ∀ j b, j ≠ t → (s.pc j).waits = some b → s.call j ≠ s.call t := fun j b hj hb he =>
    hj (h.inj j t b timed hb hwt he)
  have hres := hw.relocked hlock hpc
  constructor
  case taken =>
    intro j b hj
    by_cases hjt : j = t
    · simp [hjt] at hj
    · exact h.taken j b (by simpa [hjt] using hj)
  case fresh =>
    intro j b hj
    by_cases hjt : j = t
    · simp [hjt] at hj
    · have hj' : (s.pc j).waits = some b := by simpa [hjt] using hj
      obtain ⟨hlt', hz', hl'⟩ := h.fresh j b hj'
      have hcall := hne j b hjt hj'
      refine ⟨hlt', ?_, ?_⟩
      · rcases hres with ⟨hr, -⟩ | ⟨hr, -⟩ <;> simp [hr, hz', hcall]
      · rcases hres with ⟨hr, -⟩ | ⟨hr, -⟩ <;> simp [hr, hl', hcall]
  case inj =>
    intro j u a b hj hu
    by_cases hjt : j = t
    · simp [hjt] at hj
    · by_cases hut : u = t
      · simp [hut] at hu
      · exact h.inj j u a b (by simpa [hjt] using hj) (by simpa [hut] using hu)
  case took => exact h.took
  case zero =>
    intro w hw
    rcases hres with ⟨hr, -, hflag⟩ | ⟨hr, hflag⟩
    · exact h.zero w (by simpa [hr] using hw)
    · simp only [hr] at hw
      rcases mem_append.mp hw with hw | hw
      · exact h.zero w hw
      · rw [mem_singleton.mp hw]
        exact htaken.mpr hflag
  case nodup =>
    rcases hres with ⟨hr, -⟩ | ⟨hr, -⟩
    · simpa [hr] using h.nodup
    · simpa [hr] using h.nodup.concat hz
  case late =>
    intro w hw
    rcases hres with ⟨hr, -, hflag⟩ | ⟨hr, hflag⟩
    · simp only [hr, if_true] at hw
      rcases mem_append.mp hw with hw | hw
      · exact h.late w hw
      · rw [mem_singleton.mp hw]
        exact ⟨hlt, fun hm => by simp [htaken.mp hm] at hflag⟩
    · exact h.late w (by simpa [hr] using hw)
  case settled =>
    intro w hw
    obtain ⟨hlt', hs⟩ := h.settled w hw
    refine ⟨hlt', ?_⟩
    rcases hs with hs | ⟨j, b, hj, hcall⟩
    · left
      rcases hres with ⟨hr, -⟩ | ⟨hr, -⟩ <;> simp [hr, hs]
    · by_cases hjt : j = t
      · subst hjt
        left
        have hflag := htaken.mp (hcall ▸ hw)
        rcases hres with ⟨-, -, hf⟩ | ⟨hr, -⟩
        · simp [hflag] at hf
        · simp [hr, hcall]
      · exact .inr ⟨j, b, by simpa [hjt] using hj, hcall⟩

omit [DecidableEq T] in
/-- The head of the list, seen by the holder of the mutex, sleeps or has timed out. -/
theorem Waits.head {u : T} {timed all : Bool} (h : Waits s) (hlock : Lock s)
    (hpc : s.pc t = .signal all) (hu : (u, timed) ∈ s.waiters) :
    (s.pc u).waits = some timed ∧ s.wthread u = true ∧ (s.pc u).early = false ∧
      (timed = false → s.pc u = .asleep false) := by
  obtain ⟨hwaits, hflag⟩ := ((h.each u).listed timed).mp hu
  have hholder := (hlock.holds t).mp (by simp [hpc])
  have hut : u ≠ t := by
    rintro rfl
    simp [hpc] at hwaits
  have hnh : (s.pc u).holds = false := hlock.not_holds (by simp [hholder, Ne.symm hut])
  have hearly : (s.pc u).early = false := by
    cases hpu : s.pc u with
    | block b => simp [hpu] at hnh
    | leaving b => simp [hlock.leaving u b hpu] at hholder
    | _ => rfl
  refine ⟨hwaits, hflag, hearly, fun hf => ?_⟩
  have hback : (s.pc u).back = false := by
    by_contra hb
    obtain ⟨htrue, hfalse⟩ := (h.each u).back (by simpa using hb)
    cases hv : s.value u with
    | true => exact absurd (htrue hv).1 (by rw [hwaits, hf]; simp)
    | false => simp [hfalse hv] at hflag
  cases hpu : s.pc u with
  | asleep b => simpa [hpu, hf] using hwaits
  | _ => simp [hpu] at hwaits hearly hback

theorem Waits.take {u : T} {timed all : Bool} {rest : List (T × Bool)} (h : Waits s)
    (hlock : Lock s) (hpc : s.pc t = .signal all) (hw : s.waiters = (u, timed) :: rest)
    (hlock' : Lock (s.setPc t (.wake u timed all))) :
    Waits { s.setPc t (.wake u timed all) with
      waiters := rest
      wthread := update s.wthread u false
      took := s.took ++ [s.call u] } := by
  obtain ⟨hwaits, hflag, hearly, hasleep⟩ :=
    h.head hlock hpc (show (u, timed) ∈ s.waiters by simp [hw])
  have hnone : ∀ j, (∀ b, ¬ s.Called j b) ∧ ¬ s.Put j := by
    simpa [hpc] using hlock.calls_iff (t := t) (by simp [hpc])
  have hcalls : ∀ j, (∀ b, (s.setPc t (.wake u timed all)).Called j b ↔ u = j ∧ timed = b) ∧
      ¬ (s.setPc t (.wake u timed all)).Put j := by
    simpa using hlock'.calls_iff (t := t) (by simp)
  have hnodup := h.waiters
  rw [hw, nodup_cons] at hnodup
  have hut : u ≠ t := by
    rintro rfl
    simp [hpc] at hwaits
  refine ⟨fun j => ?_, hnodup.2, h.timeq⟩
  have hj := h.each j
  by_cases hju : j = u
  · subst hju
    have hcalled := ((hcalls j).1 timed).mpr ⟨rfl, rfl⟩
    constructor
    case listed =>
      intro b
      have hb : (j, b) ∉ rest := fun hm => by
        have := ((hj.listed b).mp (by simp [hw, hm])).1
        obtain rfl : timed = b := Option.some.inj (hwaits.symm.trans this)
        exact hnodup.1 hm
      simpa using hb
    case early => simp [hut, hearly, -Pc.early]
    case leaving => simpa [hut] using hj.leaving
    case asleep => exact fun b hb => ⟨(hj.asleep b (by simpa [hut] using hb)).1, .inr (.inl ⟨timed, hcalled⟩)⟩
    case timeq => exact fun hq => ⟨by simpa [hut] using (hj.timeq hq).1, (hcalls j).2⟩
    case called =>
      intro b hc
      obtain ⟨-, rfl⟩ := ((hcalls j).1 b).mp hc
      exact ⟨by simpa [hut] using hwaits, by simp, fun hf => by simpa [hut] using hasleep hf⟩
    case put => exact fun hp => absurd hp (hcalls j).2
    case back =>
      intro hb
      refine ⟨fun hv => ?_, fun _ => by simp⟩
      obtain ⟨hwt, -⟩ := (hj.back (by simpa [hut] using hb)).1 (by simpa [value, hut] using hv)
      obtain rfl : timed = true := Option.some.inj (hwaits.symm.trans hwt)
      exact ⟨by simpa [hut] using hwt, .inr hcalled⟩
  · have hcalled : ∀ b, ¬ (s.setPc t (.wake u timed all)).Called j b := fun b hc =>
      hju (((hcalls j).1 b).mp hc).1.symm
    by_cases hjt : j = t
    · subst hjt
      obtain ⟨hlist, hq, -⟩ := (WaiterOk.idle_iff (by simp [hpc])).mp hj
      exact (WaiterOk.idle_iff (by simp)).mpr
        ⟨fun b hb => hlist b (by simp [hw, hb]), hq, hcalled, (hcalls j).2⟩
    · exact hj.frame (by simp [hjt]) ⟨by simp [hju], rfl, rfl⟩ (fun b => by simp [hw, hju]) .rfl
        (fun b => iff_of_false (hcalled b) ((hnone j).1 b)) (iff_of_false (hcalls j).2 (hnone j).2)

theorem Ledger.take {u : T} {timed all : Bool} {rest : List (T × Bool)} (h : Ledger s) (hs : Waits s)
    (hlock : Lock s) (hpc : s.pc t = .signal all) (hw : s.waiters = (u, timed) :: rest) :
    Ledger { s.setPc t (.wake u timed all) with
      waiters := rest
      wthread := update s.wthread u false
      took := s.took ++ [s.call u] } := by
  obtain ⟨hwaits, hflag, -⟩ := hs.head hlock hpc (show (u, timed) ∈ s.waiters by simp [hw])
  have hnew : s.call u ∉ s.took := fun hm => by simp [(h.taken u timed hwaits).mp hm] at hflag
  have hwaitsj : ∀ j b, ((s.setPc t (.wake u timed all)).pc j).waits = some b ↔ (s.pc j).waits = some b := by
    intro j b
    by_cases hjt : j = t
    · simp [hjt, hpc]
    · simp [hjt]
  constructor
  case taken =>
    intro j b hj
    have hj' := (hwaitsj j b).mp hj
    by_cases hju : j = u
    · simp [hju]
    · have hcall : s.call j ≠ s.call u := fun he => hju (h.inj j u b timed hj' hwaits he)
      simpa [hju, hcall] using h.taken j b hj'
  case fresh => exact fun j b hj => h.fresh j b ((hwaitsj j b).mp hj)
  case inj => exact fun j v a b hj hv => h.inj j v a b ((hwaitsj j a).mp hj) ((hwaitsj v b).mp hv)
  case took => simpa using h.took.concat hnew
  case zero => exact fun w hw => by simp [h.zero w hw]
  case nodup => exact h.nodup
  case late =>
    intro w hw
    obtain ⟨hlt, hn⟩ := h.late w hw
    have hwu : w ≠ s.call u := by
      rintro rfl
      exact (h.fresh u timed hwaits).2.2 hw
    exact ⟨hlt, by simp [hn, hwu]⟩
  case settled =>
    intro w hw
    rcases mem_append.mp hw with hw | hw
    · refine (h.settled w hw).imp_right fun hs => hs.imp_right ?_
      rintro ⟨j, b, hj, hcall⟩
      exact ⟨j, b, (hwaitsj j b).mpr hj, hcall⟩
    · rw [mem_singleton.mp hw]
      exact ⟨(h.fresh u timed hwaits).1, .inr ⟨u, timed, (hwaitsj u timed).mpr hwaits, rfl⟩⟩

theorem Waits.claim {u : T} {all : Bool} (h : Waits s) (hlock : Lock s)
    (hpc : s.pc t = .wake u true all) (hu : s.pc u = .asleep true)
    (hlock' : Lock (s.setPc t (.put u all))) :
    Waits { s.setPc t (.put u all) with timeq := s.timeq.erase u } := by
  have hut : u ≠ t := by
    rintro rfl
    simp [hpc] at hu
  have hflag := ((h.each u).called true ⟨t, all, hpc⟩).2.1
  have hold : ∀ j, (∀ b, s.Called j b ↔ u = j ∧ true = b) ∧ ¬ s.Put j := by
    simpa [hpc] using hlock.calls_iff (t := t) (by simp [hpc])
  have hnew : ∀ j, (∀ b, ¬ (s.setPc t (.put u all)).Called j b) ∧
      ((s.setPc t (.put u all)).Put j ↔ u = j) := by
    simpa using hlock'.calls_iff (t := t) (by simp)
  refine ⟨fun j => ?_, h.waiters, h.timeq.erase u⟩
  have hj := h.each j
  by_cases hju : j = u
  · subst hju
    constructor
    case listed => simpa [hut] using hj.listed
    case asleep => exact fun b _ => ⟨(hj.asleep true hu).1, .inr (.inr ((hnew j).2.mpr rfl))⟩
    case timeq => exact fun hq => absurd hq h.timeq.not_mem_erase
    case called => exact fun b hc => absurd hc ((hnew j).1 b)
    case put => exact fun _ => ⟨hflag, true, by simp [hut, hu]⟩
    all_goals simp [hut, hu]
  · have hput : ¬ (s.setPc t (.put u all)).Put j := fun hp => hju ((hnew j).2.mp hp).symm
    by_cases hjt : j = t
    · subst hjt
      obtain ⟨hlist, hq, -⟩ := (WaiterOk.idle_iff (by simp [hpc])).mp hj
      exact (WaiterOk.idle_iff (by simp)).mpr
        ⟨hlist, fun hm => hq (mem_of_mem_erase hm), (hnew j).1, hput⟩
    · exact hj.frame (by simp [hjt]) ⟨rfl, rfl, rfl⟩ (fun _ => .rfl) (mem_erase_of_ne hju)
        (fun b => iff_of_false ((hnew j).1 b) (by simp [hold, Ne.symm hju]))
        (iff_of_false hput (hold j).2)

theorem Waits.rouse {u : T} {b all : Bool} (h : Waits s) (hlock : Lock s)
    (hpc : s.pc t = .wake u false all ∨ s.pc t = .put u all) (hu : s.pc u = .asleep b)
    (hflag : s.wthread u = false) (hq : u ∉ s.timeq) (hlock' : Lock ((s.wake u).next t all)) :
    Waits ((s.wake u).next t all) := by
  have hut : u ≠ t := by
    rintro rfl
    rcases hpc with hpc | hpc <;> simp [hpc] at hu
  have hpcu : ((s.wake u).next t all).pc u = .ready b := by
    simp [State.next, State.wake, hut, hu, Pc.woken]
  have hold : ∀ j, j ≠ u → (∀ b, ¬ s.Called j b) ∧ ¬ s.Put j := by
    intro j hj
    rcases hpc with hpc | hpc <;>
      simpa [hpc, Ne.symm hj] using hlock.calls_iff (t := t) (by simp [hpc]) j
  have hnew : ∀ j, (∀ b, ¬ ((s.wake u).next t all).Called j b) ∧ ¬ ((s.wake u).next t all).Put j := by
    intro j
    cases all <;> simpa [State.next] using hlock'.calls_iff (t := t) (by simp [State.next]) j
  refine ⟨fun j => ?_, h.waiters, h.timeq⟩
  have hj := h.each j
  by_cases hju : j = u
  · subst hju
    constructor
    case listed =>
      have := hj.listed
      rw [hu] at this
      rw [hpcu]
      exact this
    case timeq => exact fun hq' => absurd hq' hq
    case called => exact fun b' hc => absurd hc ((hnew j).1 b')
    case put => exact fun hp => absurd hp (hnew j).2
    case back =>
      have hv : ((s.wake j).next t all).value j = false := by
        simp only [value, hpcu]
        exact (hj.asleep b hu).1
      exact fun _ => ⟨fun hv' => by simp [hv] at hv', fun _ => hflag⟩
    all_goals simp [hpcu]
  · by_cases hjt : j = t
    · subst hjt
      obtain ⟨hlist, hq', -⟩ := (WaiterOk.idle_iff (by rcases hpc with hpc | hpc <;> simp [hpc])).mp hj
      refine (WaiterOk.idle_iff ?_).mpr ⟨hlist, hq', hnew j⟩
      cases all <;> simp [State.next]
    · exact hj.frame (by simp [State.next, State.wake, hjt, hju]) ⟨rfl, rfl, rfl⟩ (fun _ => .rfl) .rfl
        (fun b' => iff_of_false ((hnew j).1 b') ((hold j hju).1 b'))
        (iff_of_false (hnew j).2 (hold j hju).2)

theorem Waits.sleep {b : Bool} (h : Waits s) (hpc : s.pc t = .leaving b) :
    Waits { s.setPc t (.asleep b) with timeq := if b then s.timeq ++ [t] else s.timeq } := by
  have ht := h.each t
  have hflag := ht.early (by simp [hpc])
  have hnq : t ∉ s.timeq := fun hq => by simpa [hpc] using (ht.timeq hq).1
  have hcalls := calls_congr s (s.setPc t (.asleep b)) t (fun v hv => by simp [hv])
    (by simp [hpc]) (by simp)
  have hnp : ¬ (s.setPc t (.asleep b)).Put t := fun hp => by
    obtain ⟨-, b', hb⟩ := ht.put ((hcalls t).2.mp hp)
    simp [hpc] at hb
  refine ⟨fun j => ?_, h.waiters, ?_⟩
  · by_cases hj : j = t
    · subst hj
      constructor
      case listed => simpa [hpc] using ht.listed
      case asleep => exact fun _ _ => ⟨ht.leaving b hpc, .inl hflag⟩
      case timeq =>
        intro hq
        refine ⟨?_, hnp⟩
        cases b with
        | true => simp
        | false => exact absurd (by simpa using hq) hnq
      case called =>
        intro b' hc
        have := (ht.called b' (((hcalls j).1 b').mp hc)).2.1
        simp [hflag] at this
      case put => exact fun hp => absurd hp hnp
      all_goals simp
    · refine (h.each j).frame (by simp [hj]) ⟨rfl, rfl, rfl⟩ (fun _ => .rfl) ?_ (hcalls j).1 (hcalls j).2
      cases b <;> simp [hj]
  · cases b with
    | true => simpa using h.timeq.concat hnq
    | false => exact h.timeq

theorem Waits.expire (h : Waits s) (hq : t ∈ s.timeq) :
    Waits ({ s with
      timeq := s.timeq.erase t
      timedout := update s.timedout t true }.wake t) := by
  have ht := h.each t
  obtain ⟨hpc, hnp⟩ := ht.timeq hq
  have hwake : s.wake t = s.setPc t (.ready true) := by simp [wake, hpc, Pc.woken]
  have hcalls := calls_congr s (s.wake t) t (fun v hv => by simp [hwake, hv])
    (by simp [hpc]) (by simp [hwake])
  have hpct : (s.wake t).pc t = .ready true := by simp [hwake]
  refine ⟨fun j => ?_, h.waiters, h.timeq.erase t⟩
  by_cases hj : j = t
  · subst hj
    constructor
    case listed => simpa [wake, Pc.woken, hpc] using ht.listed
    case timeq => exact fun hq' => absurd hq' h.timeq.not_mem_erase
    case called =>
      intro b' hc
      obtain ⟨hw, hf, hn⟩ := ht.called b' (((hcalls j).1 b').mp hc)
      rw [hpc] at hw hn
      exact ⟨(congrArg Pc.waits hpct).trans hw, hf, fun hb => by simp [hb] at hn⟩
    case put => exact fun hp => absurd ((hcalls j).2.mp hp) hnp
    case back =>
      intro _
      refine ⟨fun _ => ⟨congrArg Pc.waits hpct, ?_⟩, fun hv => by simp [value, wake, Pc.woken, hpc] at hv⟩
      rcases (ht.asleep true hpc).2 with hf | ⟨b', hc⟩ | hp
      · exact .inl hf
      · obtain rfl : true = b' := by simpa [hpc] using (ht.called b' hc).1
        exact .inr (((hcalls j).1 true).mpr hc)
      · exact absurd hp hnp
    all_goals simp [wake, Pc.woken, hpc]
  · exact (h.each j).frame (by simp [wake, hj]) ⟨rfl, by simp [wake, hj], rfl⟩
      (fun _ => .rfl) (mem_erase_of_ne hj) (hcalls j).1 (hcalls j).2

end

end Librettos.Cv
