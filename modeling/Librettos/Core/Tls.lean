/-
# `Core.Tls` — whose thread-local storage it is

`bmk_current` is a thread-local variable: it is read from the area that the processor's thread
pointer points to, and a thread has its area from `bmk_sched_create` on.  The functions on the
way out of a thread read it again and again, up to the last `schedule`:

    bmk_sched_exit          bmk_sched_tls_free(bmk_current->bt_tcb.btcb_tp)
    bmk_sched_exit_withtls  thread = bmk_current; join_post; join_wait
    join_wait               bmk_sched_blockprepare, bmk_sched_block, schedule; then bt_timedout
    bmk_sched_exit_withtls  schedule(&exit_data)

So `bmk_sched_exit` frees the area first and uses it afterwards.  In between it is on a free
list, and the next allocation of its size gets it, which is as a rule the area of a new thread:
then the thread on its way out takes the new thread for itself (`tls_taken`).  Where an area is
freed only when its thread has been switched out for the last time, every thread has its area
to itself and every read of `bmk_current` yields the thread that reads (`tls_exclusive`).

The allocator is at its specification (`Core.MemallocSafe`): an allocation gets a block that is
free.  The blocks that can be areas are `A`, the thread structures `T`; what is in the place of
`bmk_current` in a block is `slot`.
-/
import Librettos.Lib.Trans

namespace Librettos.Tls

open Option Trans
open Function (update update_of_ne update_self)

/-- What a block is used for. -/
inductive Use
  | free
  | tls
  | other
deriving DecidableEq, Repr

/-- Where a thread is.  `unborn` and `made` have no thread yet; `run` is anywhere else. -/
inductive Pc (T A : Type)
  | unborn
  | made
  | run
  /-- in `bmk_sched_create`, with the area of the new thread -/
  | creating (c : T) (a : A)
  | exitFree
  | exitCurrent
  | joinPost
  | joinWait
  | blockprepare
  | block
  /-- in `schedule`, for the join -/
  | scheduleJoin
  /-- switched out, for the join -/
  | out
  /-- back in `bmk_sched_block`, at `bt_timedout` -/
  | timedout
  /-- in `schedule`, for the last time -/
  | scheduleExit
  | gone
deriving DecidableEq, Repr

/-- `tp` is `btcb_tp`.  `misread` says that a thread has read something else than itself from
`bmk_current`. -/
structure State (T A : Type) where
  pc : T → Pc T A
  tp : T → A
  use : A → Use
  slot : A → Option T
  misread : Bool

inductive Act (T A : Type)
  /-- `t` calls `bmk_sched_create`: the structure and the area it gets -/
  | create (t c : T) (a : A)
  /-- `bmk_sched_exit`, and `bmk_sched_exit_withtls` by itself -/
  | exit (t : T)
  | exitWithtls (t : T)
  /-- the next step of `t`; `choice` decides on a join, and whether to wait for it -/
  | go (t : T) (choice : Bool)
  /-- a thread that waits in the join is woken and scheduled -/
  | resume (t : T)
  /-- the structure of a dead thread is free again -/
  | reap (t : T)
  /-- `bmk_sched_tls_free`, by anybody -/
  | tlsFree (a : A)
  /-- any other allocation; its owner writes to it; it is freed -/
  | memalloc (a : A)
  | write (a : A) (w : Option T)
  | memfree (a : A)
deriving DecidableEq, Repr

section
variable {T A : Type}

/-- The thread has been created and not been switched out for the last time. -/
def Pc.alive : Pc T A → Bool
  | .unborn | .made | .gone => false
  | _ => true

/-- The step reads `bmk_current`. -/
def Pc.reads : Pc T A → Bool
  | .run | .exitCurrent | .blockprepare | .block | .scheduleJoin | .timedout | .scheduleExit => true
  | _ => false

/-- The step after, on the way out and anywhere else. -/
def Pc.next (choice : Bool) : Pc T A → Option (Pc T A)
  | .run => some .run
  | .exitCurrent => some (if choice then .joinPost else .scheduleExit)
  | .joinPost => some .joinWait
  | .joinWait => some (if choice then .blockprepare else .scheduleExit)
  | .blockprepare => some .block
  | .block => some .scheduleJoin
  | .scheduleJoin => some .out
  | .timedout => some .scheduleExit
  | .scheduleExit => some .gone
  | _ => none

variable [DecidableEq T] [DecidableEq A]

def State.goto (s : State T A) (t : T) (p : Pc T A) : State T A :=
  { s with pc := update s.pc t p }

/-- `t` reads `bmk_current`. -/
def State.read (s : State T A) (t : T) : State T A :=
  { s with misread := s.misread || decide (s.slot (s.tp t) ≠ some t) }

def go (s : State T A) (t : T) (choice : Bool) : Option (State T A) :=
  match s.pc t with
  | .creating c a =>
    -- `inittcb`, `initcurrent`, and onto a run queue
    some ({ s with
      tp := update s.tp c a
      slot := update s.slot a (some c) }.goto c .run |>.goto t .run)
  | .exitFree =>
    match s.slot (s.tp t) with
    | none => none
    | some u =>
      some ({ s.read t with use := update s.use (s.tp u) .free }.goto t .exitCurrent)
  | p => (p.next choice).map fun q => (if p.reads then s.read t else s).goto t q

def step (s : State T A) : Act T A → Option (State T A)
  | .create t c a =>
    if s.pc t = .run ∧ s.pc c = .unborn ∧ s.use a = .free then
      some (({ s with
        use := update s.use a .tls
        slot := update s.slot a none }.goto t (.creating c a)).goto c .made)
    else none
  | .exit t => if s.pc t = .run then some (s.goto t .exitFree) else none
  | .exitWithtls t => if s.pc t = .run then some (s.goto t .exitCurrent) else none
  | .go t choice => go s t choice
  | .resume t => if s.pc t = .out then some (s.goto t .timedout) else none
  | .reap t => if s.pc t = .gone then some (s.goto t .unborn) else none
  | .tlsFree a =>
    if s.use a = .tls then some { s with use := update s.use a .free } else none
  | .memalloc a =>
    if s.use a = .free then some { s with use := update s.use a .other } else none
  | .write a w =>
    if s.use a = .other then some { s with slot := update s.slot a w } else none
  | .memfree a =>
    if s.use a = .other then some { s with use := update s.use a .free } else none

/-- One thread runs, in its area. -/
structure Init (main : T) (s : State T A) : Prop where
  pc : ∀ t, s.pc t = if t = main then .run else .unborn
  use : s.use (s.tp main) = .tls
  slot : s.slot (s.tp main) = some main
  misread : s.misread = false

/-- The area is that of a thread, or of one that is being created. -/
def InUse (s : State T A) (a : A) : Prop :=
  ∃ t, ((s.pc t).alive = true ∧ s.tp t = a) ∨ ∃ c, s.pc t = .creating c a

/-- An area is freed only when its thread has been switched out for the last time. -/
def lasting (s : State T A) : Act T A → Prop
  | .go t _ => s.pc t ≠ .exitFree
  | .tlsFree a => ¬ InUse s a
  | _ => True

/-! ## The invariant -/

/-- A thread's area is its own. -/
structure Own (s : State T A) (t : T) : Prop where
  use : s.use (s.tp t) = .tls
  slot : s.slot (s.tp t) = some t

/-- A thread that is being created, and the area for it. -/
structure Pending (s : State T A) (u c : T) (a : A) : Prop where
  use : s.use a = .tls
  made : s.pc c = .made
  only : ∀ v d b, s.pc v = .creating d b → d = c ∨ b = a → v = u
  apart : ∀ t, (s.pc t).alive = true → s.tp t ≠ a

structure Inv (s : State T A) : Prop where
  own : ∀ t, (s.pc t).alive = true → Own s t
  pending : ∀ u c a, s.pc u = .creating c a → Pending s u c a
  misread : s.misread = false

variable {s s' : State T A} {t c : T} {a : A}

section
omit [DecidableEq A]

theorem Init.inv {main : T} (h : Init main s) : Inv s where
  own := by
    intro t ht
    have hmain : t = main := by
      by_contra hne
      simp [h.pc t, hne, Pc.alive] at ht
    rw [hmain]
    exact ⟨h.use, h.slot⟩
  pending := by
    intro u c a hu
    rw [h.pc u] at hu
    split at hu <;> cases hu
  misread := h.misread

/-- A thread goes on; it neither starts nor ends a creation, and it does not come to life. -/
theorem Inv.goto (h : Inv s) {p q : Pc T A} (hpc : s.pc t = p) (halive : q.alive = true → p.alive = true)
    (hmade : p ≠ .made) (hq : ∀ c a, q ≠ .creating c a) : Inv (s.goto t q) := by
  have hlive : ∀ u, ((s.goto t q).pc u).alive = true → (s.pc u).alive = true := by
    intro u hu
    by_cases hut : u = t
    · subst hut
      rw [hpc]
      exact halive (by simpa [State.goto] using hu)
    · simpa [State.goto, hut] using hu
  have hcreating : ∀ u c a, (s.goto t q).pc u = .creating c a → s.pc u = .creating c a := by
    intro u c a hu
    by_cases hut : u = t
    · subst hut
      exact absurd (by simpa [State.goto] using hu) (hq c a)
    · simpa [State.goto, hut] using hu
  constructor
  case own =>
    intro u hu
    obtain ⟨huse, hslot⟩ := h.own u (hlive u hu)
    exact ⟨huse, hslot⟩
  case pending =>
    intro u c a hu
    obtain ⟨huse, hchild, honly, hapart⟩ := h.pending u c a (hcreating u c a hu)
    have hct : c ≠ t := by
      rintro rfl
      exact hmade (hpc.symm.trans hchild)
    refine ⟨huse, by simpa [State.goto, hct] using hchild, ?_, fun v hv => hapart v (hlive v hv)⟩
    exact fun v d b hv => honly v d b (hcreating v d b hv)
  case misread => exact h.misread

theorem Inv.read (h : Inv s) (ht : (s.pc t).alive = true) : s.read t = s := by
  simp [State.read, (h.own t ht).slot]

end

section
omit [DecidableEq T] [DecidableEq A]

theorem Inv.blocks (h : Inv s) {use : A → Use} {slot : A → Option T}
    (hblock : ∀ a, InUse s a → use a = s.use a ∧ slot a = s.slot a) :
    Inv { s with use := use, slot := slot } where
  own := by
    intro t ht
    obtain ⟨huse, hslot⟩ := hblock (s.tp t) ⟨t, .inl ⟨ht, rfl⟩⟩
    exact ⟨huse.trans (h.own t ht).use, hslot.trans (h.own t ht).slot⟩
  pending := by
    intro u c a hu
    obtain ⟨huse, hchild, honly, hapart⟩ := h.pending u c a hu
    exact ⟨(hblock a ⟨u, .inr ⟨c, hu⟩⟩).1.trans huse, hchild, honly, hapart⟩
  misread := h.misread

theorem Inv.use_eq (h : Inv s) (ha : InUse s a) : s.use a = .tls := by
  rcases ha with ⟨t, ⟨ht, rfl⟩ | ⟨c, hc⟩⟩
  · exact (h.own t ht).use
  · exact (h.pending t c a hc).use

end

theorem Inv.create (h : Inv s) (ht : s.pc t = .run) (hc : s.pc c = .unborn) (ha : s.use a = .free) :
    Inv (({ s with
      use := update s.use a .tls
      slot := update s.slot a none }.goto t (.creating c a)).goto c .made) := by
  have hnot : ¬ InUse s a := by
    intro hin
    simp [h.use_eq hin] at ha
  have hblocks : Inv { s with
      use := update s.use a .tls
      slot := update s.slot a none } := by
    refine h.blocks fun b hb => ?_
    have hba : b ≠ a := by
      rintro rfl
      exact hnot hb
    simp [hba]
  have hlive : ∀ u, (update (update s.pc t (.creating c a)) c .made u).alive = true →
      (s.pc u).alive = true := by
    intro u hu
    by_cases huc : u = c
    · simp [huc, Pc.alive] at hu
    · by_cases hut : u = t
      · rw [hut, ht]
        rfl
      · simpa [huc, hut] using hu
  have hcreating : ∀ v d b,
      update (update s.pc t (.creating c a)) c .made v = .creating d b →
        (v = t ∧ d = c ∧ b = a) ∨ s.pc v = .creating d b := by
    intro v d b hv
    by_cases hvc : v = c
    · simp [hvc] at hv
    · by_cases hvt : v = t
      · subst hvt
        simp only [ne_eq, hvc, not_false_eq_true, update_of_ne, update_self,
          Pc.creating.injEq] at hv
        exact .inl ⟨rfl, hv.1.symm, hv.2.symm⟩
      · exact .inr (by simpa [hvc, hvt] using hv)
  constructor
  case own =>
    intro u hu
    obtain ⟨huse, hslot⟩ := hblocks.own u (hlive u hu)
    exact ⟨huse, hslot⟩
  case pending =>
    intro u d b hu
    -- no other creation has this structure or this area
    have hother : ∀ v e f, s.pc v = .creating e f → e ≠ c ∧ f ≠ a := by
      intro v e f hv
      refine ⟨?_, ?_⟩
      · rintro rfl
        have := (h.pending v e f hv).made
        simp [hc] at this
      · rintro rfl
        exact hnot ⟨v, .inr ⟨e, hv⟩⟩
    rcases hcreating u d b hu with ⟨rfl, rfl, rfl⟩ | hu
    · refine ⟨by simp [State.goto], by simp [State.goto], ?_, ?_⟩
      · intro v e f hv he
        rcases hcreating v e f hv with ⟨rfl, -, -⟩ | hv
        · rfl
        · obtain ⟨h1, h2⟩ := hother v e f hv
          exact absurd he (by simp [h1, h2])
      · intro v hv hva
        exact hnot ⟨v, .inl ⟨hlive v hv, hva⟩⟩
    · obtain ⟨huse, hchild, honly, hapart⟩ := hblocks.pending u d b hu
      obtain ⟨hdc, hba⟩ := hother u d b hu
      have hdt : d ≠ t := by
        rintro rfl
        simp [ht] at hchild
      refine ⟨huse, by simpa [State.goto, hdc, hdt] using hchild, ?_, fun v hv => hapart v (hlive v hv)⟩
      intro v e f hv he
      rcases hcreating v e f hv with ⟨rfl, rfl, rfl⟩ | hv
      · rcases he with he | he
        · exact absurd he.symm hdc
        · exact absurd he.symm hba
      · exact honly v e f hv he
  case misread => exact h.misread

theorem Inv.created (h : Inv s) (ht : s.pc t = .creating c a) :
    Inv ({ s with
      tp := update s.tp c a
      slot := update s.slot a (some c) }.goto c .run |>.goto t .run) := by
  obtain ⟨huse, hchild, honly, hapart⟩ := h.pending t c a ht
  have hct : c ≠ t := by
    rintro rfl
    simp [ht] at hchild
  have hlive : ∀ u, u ≠ c → (update (update s.pc c .run) t .run u).alive = true →
      (s.pc u).alive = true := by
    intro u huc hu
    by_cases hut : u = t
    · rw [hut, ht]
      rfl
    · simpa [huc, hut] using hu
  have hcreating : ∀ v d b, update (update s.pc c .run) t .run v = .creating d b →
      s.pc v = .creating d b ∧ v ≠ t := by
    intro v d b hv
    by_cases hvt : v = t
    · simp [hvt] at hv
    · by_cases hvc : v = c
      · simp [hvc, hct] at hv
      · exact ⟨by simpa [hvc, hvt] using hv, hvt⟩
  constructor
  case own =>
    intro u hu
    by_cases huc : u = c
    · subst huc
      exact ⟨by simpa [State.goto] using huse, by simp [State.goto]⟩
    · have hu' := hlive u huc hu
      have hua : s.tp u ≠ a := hapart u hu'
      obtain ⟨huse', hslot'⟩ := h.own u hu'
      exact ⟨by simpa [State.goto, huc] using huse', by simpa [State.goto, huc, hua] using hslot'⟩
  case pending =>
    intro v d b hv
    obtain ⟨hv', hvt⟩ := hcreating v d b hv
    obtain ⟨huse', hchild', honly', hapart'⟩ := h.pending v d b hv'
    have hdc : d ≠ c := fun hdc => hvt (honly v d b hv' (.inl hdc))
    have hba : b ≠ a := fun hba => hvt (honly v d b hv' (.inr hba))
    have hdt : d ≠ t := by
      rintro rfl
      simp [ht] at hchild'
    refine ⟨huse', by simpa [State.goto, hdc, hdt] using hchild', ?_, fun u hu => ?_⟩
    · exact fun w e f hw => honly' w e f (hcreating w e f hw).1
    · by_cases huc : u = c
      · simpa [State.goto, huc] using hba.symm
      · simpa [State.goto, huc] using hapart' u (hlive u huc hu)
  case misread => exact h.misread

omit [DecidableEq T] [DecidableEq A] in
/-- The way out has no creation on it, and nobody on it is without a thread. -/
theorem Pc.next_spec {p q : Pc T A} {choice : Bool} (h : p.next choice = some q) :
    p.alive = true ∧ p ≠ .made ∧ ∀ c a, q ≠ .creating c a := by
  cases p <;> cases choice <;> simp [Pc.next, Pc.alive] at h ⊢ <;> simp [← h]

theorem Inv.go (h : Inv s) {choice : Bool} (hok : s.pc t ≠ .exitFree)
    (hs : go s t choice = some s') : Inv s' := by
  simp only [Tls.go] at hs
  split at hs
  case h_1 c a hpc =>
    cases hs
    exact h.created hpc
  case h_2 hpc => exact absurd hpc hok
  case h_3 p =>
    obtain ⟨q, hq, rfl⟩ := map_eq_some_iff.mp hs
    obtain ⟨halive, hmade, hcreating⟩ := Pc.next_spec hq
    have hread : (if (s.pc t).reads then s.read t else s) = s := by
      rw [h.read halive, ite_self]
    rw [hread]
    exact h.goto rfl (fun _ => halive) hmade hcreating

theorem Inv.step {act : Act T A} (h : Inv s) (hok : lasting s act) (hs : step s act = some s') :
    Inv s' := by
  -- a block that is not an area can change its use
  have hother : ∀ a, s.use a ≠ .tls → ∀ b, InUse s b → b ≠ a := by
    rintro a ha b hb rfl
    exact ha (h.use_eq hb)
  cases act with
  | create t c a =>
    obtain ⟨⟨ht, hc, ha⟩, ⟨⟩⟩ := ite_none_right_eq_some.mp hs
    exact h.create ht hc ha
  | exit | exitWithtls | resume =>
    obtain ⟨ht, ⟨⟩⟩ := ite_none_right_eq_some.mp hs
    exact h.goto ht (fun _ => rfl) (by simp) (by simp)
  | go t choice => exact h.go hok hs
  | reap t =>
    obtain ⟨ht, ⟨⟩⟩ := ite_none_right_eq_some.mp hs
    exact h.goto ht (fun hf => by cases hf) (by simp) (by simp)
  | tlsFree a =>
    obtain ⟨-, ⟨⟩⟩ := ite_none_right_eq_some.mp hs
    refine h.blocks fun b hb => ?_
    have hba : b ≠ a := by
      rintro rfl
      exact hok hb
    simp [hba]
  | memalloc a | write a | memfree a =>
    obtain ⟨ha, ⟨⟩⟩ := ite_none_right_eq_some.mp hs
    exact h.blocks fun b hb => by simp [hother a (by simp [ha]) b hb]

/-- **Exclusive areas.**  In every run in which an area is freed only when its thread has been
switched out for the last time, the area of a thread is allocated, as its area and as that
of no other thread, also of none that is being created; it has the thread in the place of
`bmk_current`, and no read of `bmk_current` has yielded anything but the thread that made it. -/
theorem tls_exclusive {main : T} (h : Reach step lasting (Init main) s) :
    (∀ t, (s.pc t).alive = true → s.use (s.tp t) = .tls ∧ s.slot (s.tp t) = some t ∧
      (∀ u, (s.pc u).alive = true → s.tp u = s.tp t → u = t) ∧
      ∀ u c, s.pc u ≠ .creating c (s.tp t)) ∧
    s.misread = false := by
  have hinv : Inv s := h.inv (fun _ h0 => h0.inv) fun _ _ _ hi hok hs => hi.step hok hs
  refine ⟨fun t ht => ?_, hinv.misread⟩
  obtain ⟨huse, hslot⟩ := hinv.own t ht
  refine ⟨huse, hslot, fun u hu hut => ?_, fun u c hu => (hinv.pending u c _ hu).apart t ht rfl⟩
  have hu' := (hinv.own u hu).slot
  rw [hut, hslot] at hu'
  exact (some.inj hu').symm

instance [Fintype T] (s : State T A) (a : A) : Decidable (InUse s a) :=
  decidable_of_iff (∃ t, ((s.pc t).alive = true ∧ s.tp t = a) ∨ ∃ c, s.pc t = .creating c a) Iff.rfl

instance [Fintype T] (s : State T A) : (act : Act T A) → Decidable (lasting s act)
  | .go t _ => inferInstanceAs (Decidable (s.pc t ≠ .exitFree))
  | .tlsFree a => inferInstanceAs (Decidable (¬ InUse s a))
  | .create _ _ _ | .exit _ | .exitWithtls _ | .resume _ | .reap _ | .memalloc _ | .write _ _
  | .memfree _ => isTrue trivial

end

/-- Thread 0 runs in the area 0. -/
def boot : State (Fin 3) (Fin 3) where
  pc := fun t => if t = 0 then .run else .unborn
  tp := fun _ => 0
  use := fun a => if a = 0 then .tls else .free
  slot := fun a => if a = 0 then some 0 else none
  misread := false

theorem boot_init : Init 0 boot := ⟨fun _ => rfl, rfl, rfl, rfl⟩

/-- A thread is created and exits without its area being freed before it is gone; the area is
then used again. -/
theorem tls_exclusive_again : ∃ s : State (Fin 3) (Fin 3), Reach step lasting (Init 0) s ∧
    s.pc 2 = .run ∧ s.tp 2 = 1 ∧ s.use 1 = .tls := by
  obtain ⟨s, hreach, hpc, htp⟩ := run_finds step lasting (Init 0)
    (fun s : State (Fin 3) (Fin 3) => s.pc 2 = .run ∧ s.tp 2 = 1)
    [.create 0 1 1, .go 0 false, .exitWithtls 1, .go 1 false, .go 1 false, .tlsFree 1,
      .create 0 2 1, .go 0 false] boot_init (by decide) (by decide)
  have huse := ((tls_exclusive hreach).1 2 (by rw [hpc]; rfl)).1
  rw [htp] at huse
  exact ⟨s, hreach, hpc, htp, huse⟩

/-- **An area is taken.**  Thread 1 is in `bmk_sched_exit` and has freed its area, which is on a
free list; thread 0 creates the thread 2 in it, and thread 1 takes itself for thread 2. -/
theorem tls_taken :
    (∃ s : State (Fin 3) (Fin 3), Reach step Trans.any (Init 0) s ∧
      (s.pc 1).alive = true ∧ s.use (s.tp 1) = .free) ∧
    ∃ s : State (Fin 3) (Fin 3), Reach step Trans.any (Init 0) s ∧
      (s.pc 1).alive = true ∧ s.slot (s.tp 1) = some 2 ∧ s.misread = true := by
  constructor
  · exact any_finds step (Init 0) _ [.create 0 1 1, .go 0 false, .exit 1, .go 1 false] boot_init
      (by decide)
  · exact any_finds step (Init 0) _
      [.create 0 1 1, .go 0 false, .exit 1, .go 1 false, .create 0 2 1, .go 0 false, .go 1 false]
      boot_init (by decide)

end Librettos.Tls
