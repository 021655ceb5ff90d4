/-
# `Xen.GnttabConc` — grant references taken and put back by many threads

`get_free_entry` and `put_free_entry` (`gnttab.c`) step by step.  The list is only touched inside
`gnttab_lock`; `gnttab_sem` counts outside of it, a getter before it has taken a reference and a
putter after it has put one back.  So the list is never shorter than the count: it is longer by the
getters that have a permit and no reference yet, and by the putters that have not raised the count
yet.  That is why a getter with a permit finds a reference.

The semaphore is a count, which `down` takes from when it is not zero (`Xen.Semaphore` is about its
code).  `place` is a ghost: where a reference is.  In use is one that is not free.
-/
import Librettos.Lib.Trans
import Librettos.Lib.Count
import Librettos.Xen.Gnttab

namespace Librettos.GnttabConc

open Function (update update_eq_self update_of_ne update_self)
open Count FreeChain Gnttab List Option Trans

/-- Where a reference is: in the list, in use, or passed to a call or about to be returned by one. -/
inductive Place (T : Type)
  | free
  | held
  | inCall (t : T)
deriving DecidableEq, Repr

/-- Where a thread is. -/
inductive Pc
  | idle
  /-- has its permit; at the lock of `get_free_entry` -/
  | getLock
  | getRead
  /-- has read `gnttab_list[0]`; at the assertion -/
  | getPop (ref : ℕ)
  | getExit (ref : ℕ)
  /-- the assertion has failed -/
  | fault
  /-- at the lock of `put_free_entry` -/
  | putLock (ref : ℕ)
  /-- at `gnttab_list[ref] = gnttab_list[0]` -/
  | putLink (ref : ℕ)
  /-- at `gnttab_list[0] = ref` -/
  | putHead (ref : ℕ)
  | putExit
  /-- at `up` -/
  | putUp
deriving DecidableEq, Repr

structure State (T : Type) where
  list : ℕ → ℕ
  sem : ℕ
  lock : Option T
  pc : T → Pc
  place : ℕ → Place T

inductive Act (T : Type)
  /-- a call of `get_free_entry` gets through `down` -/
  | get (t : T)
  /-- a call of `put_free_entry`, with a reference that is in use -/
  | put (t : T) (ref : ℕ)
  /-- the next step of `t` -/
  | go (t : T)
deriving DecidableEq, Repr

section
variable {T : Type} [DecidableEq T]

def State.goto (s : State T) (t : T) (c : Pc) : State T :=
  { s with pc := update s.pc t c }

def State.move (s : State T) (ref : ℕ) (p : Place T) : State T :=
  { s with place := update s.place ref p }

def go (s : State T) (t : T) : Option (State T) :=
  match s.pc t with
  | .idle => none
  | .getLock => if s.lock = none then some ({ s with lock := some t }.goto t .getRead) else none
  | .getRead => some (s.goto t (.getPop (s.list 0)))
  | .getPop ref =>
    if inRange ref then
      some (({ s with list := update s.list 0 (s.list ref) }.move ref (.inCall t)).goto t
        (.getExit ref))
    else some (s.goto t .fault)
  | .getExit ref => some (({ s with lock := none }.move ref .held).goto t .idle)
  | .fault => none
  | .putLock ref =>
    if s.lock = none then some ({ s with lock := some t }.goto t (.putLink ref)) else none
  | .putLink ref =>
    some ({ s with list := update s.list ref (s.list 0) }.goto t (.putHead ref))
  | .putHead ref =>
    some (({ s with list := update s.list 0 ref }.move ref .free).goto t .putExit)
  | .putExit => some ({ s with lock := none }.goto t .putUp)
  | .putUp => some ({ s with sem := s.sem + 1 }.goto t .idle)

def step (s : State T) : Act T → Option (State T)
  | .get t =>
    if s.pc t = .idle ∧ 0 < s.sem then some ({ s with sem := s.sem - 1 }.goto t .getLock) else none
  | .put t ref =>
    if s.pc t = .idle ∧ s.place ref = .held then
      some ((s.move ref (.inCall t)).goto t (.putLock ref))
    else none
  | .go t => go s t

omit [DecidableEq T] in
/-- `init_gnttab` has been called. -/
structure Init (s : State T) : Prop where
  table : ∃ entry, s.list = (initGnttab entry).list ∧ s.sem = (initGnttab entry).sem
  lock : s.lock = none
  pc : ∀ t, s.pc t = .idle
  place : ∀ ref, s.place ref = .free

/-- A thread for which the list has a reference more than the count: it has a permit and no reference
yet, or has put one back and not counted it yet. -/
def ahead : Pc → Bool
  | .getLock | .getRead | .getPop _ | .putExit | .putUp => true
  | _ => false

/-! ## The invariant -/

/-- The list has `n` references: those that are free. -/
structure Free (list : ℕ → ℕ) (place : ℕ → Place T) (n : ℕ) : Prop where
  nodup : (chain list 0 n).Nodup
  ends : Ends 0 list 0 n
  exact : ∀ ref, ref ∈ chain list 0 n ↔ inRange ref ∧ place ref = .free

/-- What a thread can rely on. -/
def Thread (s : State T) (t : T) : Pc → Prop
  | .idle | .getLock | .putUp => True
  | .getRead | .putExit => s.lock = some t
  | .getPop ref => s.lock = some t ∧ ref = s.list 0
  | .getExit ref | .putLink ref => s.lock = some t ∧ s.place ref = .inCall t
  | .fault => False
  | .putLock ref => s.place ref = .inCall t
  | .putHead ref => s.lock = some t ∧ s.place ref = .inCall t ∧ s.list ref = s.list 0

structure Inv (s : State T) : Prop where
  free : ∃ k, Tally ahead s.pc k ∧ Free s.list s.place (s.sem + k)
  range : ∀ ref, s.place ref ≠ .free → inRange ref
  thread : ∀ t, Thread s t (s.pc t)

variable {s s' : State T} {t x : T} {ref n k : ℕ} {list : ℕ → ℕ} {place : ℕ → Place T} {c : Pc}
variable {p : Place T}

omit [DecidableEq T] in
theorem Free.zero_notin (h : Free list place n) : 0 ∉ chain list 0 n :=
  fun h0 => ((h.exact 0).mp h0).1.ne_zero rfl

omit [DecidableEq T] in
theorem Free.pop (h : Free list place (n + 1)) (hp : p ≠ .free) :
    inRange (list 0) ∧ place (list 0) = .free ∧
      Free (update list 0 (list (list 0))) (update place (list 0) p) n := by
  have hzero := h.zero_notin
  have hchain : chain (update list 0 (list (list 0))) 0 n = chain list (list 0) n :=
    chain_pop hzero
  have hfirst := (h.exact (list 0)).mp (by rw [chain]; exact mem_cons_self)
  have hnodup := h.nodup
  rw [chain, nodup_cons] at hnodup
  refine ⟨hfirst.1, hfirst.2, ?_, h.ends.pop hzero, fun ref => ?_⟩
  · rw [hchain]
    exact hnodup.2
  · rw [hchain]
    have hexact := h.exact ref
    rw [chain, mem_cons] at hexact
    by_cases href : ref = list 0
    · rw [href, update_self]
      exact ⟨fun hin => absurd hin hnodup.1, fun hin => absurd hin.2 hp⟩
    · rw [update_of_ne href, ← hexact]
      exact ⟨.inr, fun hin => hin.resolve_left href⟩

section
variable (h : Free list place n)
include h

section
omit [DecidableEq T]

theorem Free.notin (hp : place ref ≠ .free) : ref ∉ chain list 0 n :=
  fun hin => hp ((h.exact ref).mp hin).2

theorem Free.moved (hp : place ref ≠ .free)
    (hp' : p ≠ .free) : Free list (update place ref p) n := by
  refine ⟨h.nodup, h.ends, fun r => ?_⟩
  by_cases hr : r = ref
  · rw [hr, update_self]
    exact ⟨fun hin => absurd hin (h.notin hp), fun hin => absurd hin.2 hp'⟩
  · rw [update_of_ne hr]
    exact h.exact r

theorem Free.linked {v : ℕ} (hne : ref ≠ 0) (hp : place ref ≠ .free) :
    Free (update list ref v) place n := by
  have hchain : chain (update list ref v) 0 n = chain list 0 n :=
    chain_update hne (h.notin hp)
  exact ⟨by rw [hchain]; exact h.nodup, h.ends.update hne (h.notin hp),
    fun r => by rw [hchain]; exact h.exact r⟩

theorem Free.push (hrange : inRange ref) (hp : place ref ≠ .free) (hlink : list ref = list 0) :
    Free (update list 0 ref) (update place ref .free) (n + 1) := by
  have hne := hrange.ne_zero
  have hnot := h.notin hp
  have hself : update list ref (list 0) = list := by
    rw [← hlink]
    exact update_eq_self ref list
  have hchain : chain (update list 0 ref) 0 (n + 1) = ref :: chain list 0 n := by
    have := chain_push hne h.zero_notin hnot
    rwa [hself] at this
  have hends := h.ends.push hne h.zero_notin hnot
  rw [hself] at hends
  refine ⟨by rw [hchain]; exact nodup_cons.mpr ⟨hnot, h.nodup⟩, hends, fun r => ?_⟩
  rw [hchain, mem_cons]
  by_cases hr : r = ref
  · rw [hr, update_self]
    exact ⟨fun _ => ⟨hrange, rfl⟩, fun _ => .inl rfl⟩
  · rw [update_of_ne hr, ← h.exact r]
    exact ⟨fun hin => hin.resolve_left hr, .inr⟩

end

end

omit [DecidableEq T] in
theorem Thread.other (h : Thread s x c)
    (hlock : s.lock = some x → s'.lock = some x ∧ s'.list = s.list)
    (hplace : ∀ ref, s.place ref = .inCall x → s'.place ref = .inCall x) : Thread s' x c := by
  cases c with
  | idle | getLock | putUp => trivial
  | fault => exact h
  | getRead | putExit => exact (hlock h).1
  | getPop ref => exact ⟨(hlock h.1).1, by rw [(hlock h.1).2]; exact h.2⟩
  | getExit ref | putLink ref => exact ⟨(hlock h.1).1, hplace ref h.2⟩
  | putLock ref => exact hplace ref h
  | putHead ref =>
    exact ⟨(hlock h.1).1, hplace ref h.2.1, by rw [(hlock h.1).2]; exact h.2.2⟩

/-- **The step rule.**  One thread moves, inside the lock or without touching the list, and moves at
most a reference that is not in the call of another. -/
theorem Inv.next (h : Inv s) (hpc : s'.pc = update s.pc t c)
    (hlock : ∀ x, x ≠ t → s.lock = some x → s'.lock = some x ∧ s'.list = s.list)
    (hplace : ∀ x, x ≠ t → ∀ ref, s.place ref = .inCall x → s'.place ref = .inCall x)
    (hk : Tally ahead s'.pc k) (hfree : Free s'.list s'.place (s'.sem + k))
    (hrange : ∀ ref, s'.place ref ≠ .free → inRange ref) (ht : Thread s' t c) : Inv s' := by
  refine ⟨⟨k, hk, hfree⟩, hrange, fun x => ?_⟩
  rw [hpc]
  by_cases hx : x = t
  · rw [hx, update_self]
    exact ht
  · rw [update_of_ne hx]
    exact (h.thread x).other (hlock x hx) (hplace x hx)

section
omit [DecidableEq T]

theorem Inv.here (h : Inv s) (hpc : s.pc t = c) : Thread s t c :=
  hpc ▸ h.thread t

theorem inCall_ne_free (hp : s.place ref = .inCall t) : s.place ref ≠ .free := by
  rw [hp]
  simp

theorem Inv.inCall_range (h : Inv s) (hp : s.place ref = .inCall t) : inRange ref :=
  h.range ref (inCall_ne_free hp)

theorem inCall_moved {r : ℕ} (h : s.place ref ≠ .inCall x)
    (hr : s.place r = .inCall x) : update s.place ref p r = .inCall x := by
  have hne : r ≠ ref := fun heq => h (heq ▸ hr)
  rw [update_of_ne hne]
  exact hr

theorem inCall_moved_own {r : ℕ} (hp : s.place ref = .inCall t) (hx : x ≠ t)
    (hr : s.place r = .inCall x) : update s.place ref p r = .inCall x := by
  refine inCall_moved (fun heq => hx ?_) hr
  rw [hp] at heq
  exact (Place.inCall.inj heq).symm

theorem range_moved (h : ∀ ref, s.place ref ≠ .free → inRange ref) (hr : inRange ref) :
    ∀ r, update s.place ref p r ≠ .free → inRange r := by
  intro r hp
  by_cases hne : r = ref
  · exact hne ▸ hr
  · rw [update_of_ne hne] at hp
    exact h r hp

end

/-- A step that leaves the list alone and keeps the balance of the count; a reference may move, from
and to a place in use. -/
theorem Inv.passes {sem : ℕ} {lock : Option T} {place : ℕ → Place T} (h : Inv s)
    (hlock : ∀ x, x ≠ t → s.lock = some x → lock = some x)
    (hsem : sem + (ahead c).toNat = s.sem + (ahead (s.pc t)).toNat)
    (hplace : ∀ x, x ≠ t → ∀ ref, s.place ref = .inCall x → place ref = .inCall x)
    (hfree : ∀ n, Free s.list s.place n → Free s.list place n)
    (hrange : ∀ ref, place ref ≠ .free → inRange ref)
    (ht : Thread ⟨s.list, sem, lock, update s.pc t c, place⟩ t c) :
    Inv ⟨s.list, sem, lock, update s.pc t c, place⟩ := by
  obtain ⟨k, hk, hf⟩ := h.free
  have hle : (ahead (s.pc t)).toNat ≤ k := by
    cases hb : ahead (s.pc t) with
    | false => exact Nat.zero_le k
    | true => exact hk.pos hb
  have hk' : Tally ahead (update s.pc t c) (k + (ahead c).toNat - (ahead (s.pc t)).toNat) :=
    hk.update t c (by omega)
  refine h.next rfl (fun x hx hl => ⟨hlock x hx hl, rfl⟩) hplace hk' ?_ hrange ht
  have hn : sem + (k + (ahead c).toNat - (ahead (s.pc t)).toNat) = s.sem + k := by omega
  exact hn ▸ hfree _ hf

theorem Inv.get (h : Inv s) (hpc : s.pc t = .idle) (hsem : 0 < s.sem) :
    Inv ({ s with sem := s.sem - 1 }.goto t .getLock) := by
  refine h.passes (fun _ _ hl => hl) ?_ (fun _ _ _ hr => hr) (fun _ hf => hf) h.range trivial
  rw [hpc]
  show s.sem - 1 + 1 = s.sem + 0
  omega

theorem Inv.put (h : Inv s) (hpc : s.pc t = .idle) (hp : s.place ref = .held) :
    Inv ((s.move ref (.inCall t)).goto t (.putLock ref)) := by
  have hfree : s.place ref ≠ .free := by simp [hp]
  refine h.passes (fun _ _ hl => hl) (by rw [hpc]; rfl)
    (fun x _ r hr => inCall_moved (by simp [hp]) hr) (fun _ hf => hf.moved hfree (by simp))
    (range_moved h.range (h.range ref hfree)) ?_
  exact update_self _ _ _

theorem Inv.enter (h : Inv s) (hlock : s.lock = none) (hahead : ahead c = ahead (s.pc t))
    (ht : Thread { s with lock := some t } t c) : Inv ({ s with lock := some t }.goto t c) :=
  h.passes (fun x _ hl => by rw [hlock] at hl; cases hl) (by rw [hahead]) (fun _ _ _ hr => hr)
    (fun _ hf => hf) h.range (ht.other (fun hl => ⟨hl, rfl⟩) fun _ hr => hr)

omit [DecidableEq T] in
theorem lock_other {x : T} {p : Prop} (hlock : s.lock = some t) (hx : x ≠ t)
    (hl : s.lock = some x) : p :=
  absurd (some.inj (hl.symm.trans hlock)) hx

section
variable (h : Inv s)
include h

theorem Inv.exit (hpc : s.pc t = .putExit) : Inv ({ s with lock := none }.goto t .putUp) := by
  have hlock : s.lock = some t := h.here hpc
  exact h.passes (fun x hx hl => lock_other hlock hx hl) (by rw [hpc]; rfl) (fun _ _ _ hr => hr)
    (fun _ hf => hf) h.range trivial

theorem Inv.getRead (hpc : s.pc t = .getRead) : Inv (s.goto t (.getPop (s.list 0))) := by
  have hlock : s.lock = some t := h.here hpc
  exact h.passes (fun _ _ hl => hl) (by rw [hpc]; rfl) (fun _ _ _ hr => hr) (fun _ hf => hf) h.range
    ⟨hlock, rfl⟩

theorem Inv.getPop_spec (hpc : s.pc t = .getPop ref) : inRange ref ∧ s.place ref = .free ∧
      Inv (({ s with list := update s.list 0 (s.list ref) }.move ref (.inCall t)).goto t
        (.getExit ref)) := by
  obtain ⟨hlock, rfl⟩ : s.lock = some t ∧ ref = s.list 0 :=
    h.here hpc
  obtain ⟨k, hk, hf⟩ := h.free
  -- the getter is one of those the list is ahead for
  obtain ⟨k', rfl⟩ : ∃ k', k = k' + 1 :=
    Nat.exists_eq_add_of_le' (hk.pos (by rw [hpc]; rfl))
  obtain ⟨hrange, hplace, hf'⟩ := Free.pop (p := .inCall t) hf (by simp)
  refine ⟨hrange, hplace, ?_⟩
  have hk' : Tally ahead (update s.pc t (.getExit (s.list 0))) k' :=
    hk.update t _ (by rw [hpc]; rfl)
  exact h.next rfl (fun x hx hl => lock_other hlock hx hl)
    (fun x _ r hr => inCall_moved (by simp [hplace]) hr) hk' hf'
    (range_moved h.range hrange) ⟨hlock, update_self _ _ _⟩

theorem Inv.getExit (hpc : s.pc t = .getExit ref) :
    Inv (({ s with lock := none }.move ref .held).goto t .idle) := by
  obtain ⟨hlock, hp⟩ : s.lock = some t ∧ s.place ref = .inCall t :=
    h.here hpc
  have hfree := inCall_ne_free hp
  exact h.passes (fun x hx hl => lock_other hlock hx hl) (by rw [hpc]; rfl)
    (fun x hx r hr => inCall_moved_own hp hx hr)
    (fun _ hf => hf.moved hfree (by simp)) (range_moved h.range (h.inCall_range hp)) trivial

theorem Inv.putLink (hpc : s.pc t = .putLink ref) :
    Inv ({ s with list := update s.list ref (s.list 0) }.goto t (.putHead ref)) := by
  obtain ⟨hlock, hp⟩ : s.lock = some t ∧ s.place ref = .inCall t :=
    h.here hpc
  have hne := (h.inCall_range hp).ne_zero
  have hfree := inCall_ne_free hp
  obtain ⟨k, hk, hf⟩ := h.free
  refine h.next rfl (fun x hx hl => lock_other hlock hx hl) (fun _ _ _ hr => hr)
    (hk.update t _ (by rw [hpc]; rfl)) (hf.linked hne hfree) h.range ⟨hlock, hp, ?_⟩
  show update s.list ref (s.list 0) ref = update s.list ref (s.list 0) 0
  rw [update_self, update_of_ne hne.symm]

theorem Inv.putHead (hpc : s.pc t = .putHead ref) :
    Inv (({ s with list := update s.list 0 ref }.move ref .free).goto t .putExit) := by
  obtain ⟨hlock, hp, hlink⟩ : s.lock = some t ∧ s.place ref = .inCall t ∧ s.list ref = s.list 0 :=
    h.here hpc
  have hrange := h.inCall_range hp
  have hfree := inCall_ne_free hp
  obtain ⟨k, hk, hf⟩ := h.free
  have hk' : Tally ahead (update s.pc t .putExit) (k + 1) :=
    hk.update t .putExit (by rw [hpc]; rfl)
  exact h.next rfl (fun x hx hl => lock_other hlock hx hl)
    (fun x hx r hr => inCall_moved_own hp hx hr)
    hk' (hf.push hrange hfree hlink) (range_moved h.range hrange) hlock

theorem Inv.putUp (hpc : s.pc t = .putUp) : Inv ({ s with sem := s.sem + 1 }.goto t .idle) :=
  h.passes (fun _ _ hl => hl) (by rw [hpc]; rfl) (fun _ _ _ hr => hr) (fun _ hf => hf) h.range trivial

theorem Inv.go (hgo : go s t = some s') : Inv s' := by
  cases hpc : s.pc t with
  | idle | fault => simp [GnttabConc.go, hpc] at hgo
  | getLock =>
    simp only [GnttabConc.go, hpc, ite_none_right_eq_some, some.injEq] at hgo
    obtain ⟨hlock, rfl⟩ := hgo
    exact h.enter hlock (by rw [hpc]; rfl) rfl
  | getRead =>
    simp only [GnttabConc.go, hpc, some.injEq] at hgo
    exact hgo ▸ h.getRead hpc
  | getPop ref =>
    obtain ⟨hrange, -, hinv⟩ := h.getPop_spec hpc
    simp only [GnttabConc.go, hpc, if_pos hrange, some.injEq] at hgo
    exact hgo ▸ hinv
  | getExit ref =>
    simp only [GnttabConc.go, hpc, some.injEq] at hgo
    exact hgo ▸ h.getExit hpc
  | putLock ref =>
    have hp : s.place ref = .inCall t := h.here hpc
    simp only [GnttabConc.go, hpc, ite_none_right_eq_some, some.injEq] at hgo
    obtain ⟨hlock, rfl⟩ := hgo
    exact h.enter hlock (by rw [hpc]; rfl) ⟨rfl, hp⟩
  | putLink ref =>
    simp only [GnttabConc.go, hpc, some.injEq] at hgo
    exact hgo ▸ h.putLink hpc
  | putHead ref =>
    simp only [GnttabConc.go, hpc, some.injEq] at hgo
    exact hgo ▸ h.putHead hpc
  | putExit =>
    simp only [GnttabConc.go, hpc, some.injEq] at hgo
    exact hgo ▸ h.exit hpc
  | putUp =>
    simp only [GnttabConc.go, hpc, some.injEq] at hgo
    exact hgo ▸ h.putUp hpc

theorem Inv.step {a : Act T} (hstep : step s a = some s') : Inv s' := by
  cases a with
  | get t =>
    simp only [GnttabConc.step, ite_none_right_eq_some, some.injEq] at hstep
    obtain ⟨⟨hpc, hsem⟩, rfl⟩ := hstep
    exact h.get hpc hsem
  | put t ref =>
    simp only [GnttabConc.step, ite_none_right_eq_some, some.injEq] at hstep
    obtain ⟨⟨hpc, hp⟩, rfl⟩ := hstep
    exact h.put hpc hp
  | go t => exact h.go hstep

end

/-! ## After `init_gnttab` -/

theorem foldl_putFreeEntry : ∀ (refs : List ℕ) (g : Table), Good g refs → Ends 0 g.list 0 g.sem →
    (refs.foldl putFreeEntry g).freeRefs = refs.reverse ++ g.freeRefs ∧
      Ends 0 (refs.foldl putFreeEntry g).list 0 (refs.foldl putFreeEntry g).sem
  | [], _, _, he => ⟨rfl, he⟩
  | r :: refs, g, hg, he => by
    obtain ⟨hrefs, hgood⟩ := hg.put
    have hnot : r ∉ g.freeRefs := by
      have hnodup := perm_middle.nodup_iff.mp hg.nodup
      exact fun hr => (nodup_cons.mp hnodup).1 (mem_append_left _ hr)
    have hends : Ends 0 (putFreeEntry g r).list 0 (putFreeEntry g r).sem :=
      he.push (hg.range r (by simp)).ne_zero hg.zero_notin hnot
    obtain ⟨hrefs', hends'⟩ := foldl_putFreeEntry refs (putFreeEntry g r) hgood hends
    refine ⟨?_, hends'⟩
    rw [foldl_cons, hrefs', hrefs, reverse_cons, append_assoc, singleton_append]

omit [DecidableEq T] in
theorem initGnttab_free (entry : ℕ → Entry) :
    Free (initGnttab entry).list (fun _ => (.free : Place T)) (initGnttab entry).sem := by
  have hfold := foldl_putFreeEntry allRefs _ (start_good entry) rfl
  rw [← initGnttab] at hfold
  -- the table itself is never computed
  generalize initGnttab entry = g at hfold
  obtain ⟨hrefs, hends⟩ := hfold
  have hchain : chain g.list 0 g.sem = allRefs.reverse := hrefs.trans (append_nil _)
  refine ⟨?_, hends, fun ref => ?_⟩
  · rw [hchain, nodup_reverse]
    exact nodup_range'
  · rw [hchain, mem_reverse, mem_allRefs]
    exact (and_iff_left rfl).symm

omit [DecidableEq T] in
theorem Init.inv (h : Init s) : Inv s := by
  obtain ⟨entry, hlist, hsem⟩ := h.table
  have hplace : s.place = fun _ => .free := funext h.place
  refine ⟨⟨0, Tally.zero fun t => by rw [h.pc t]; rfl, ?_⟩, fun ref hr => absurd (h.place ref) hr,
    fun t => ?_⟩
  · rw [hlist, hsem, hplace, Nat.add_zero]
    exact initGnttab_free entry
  · rw [h.pc t]
    trivial

theorem inv_reach (h : Reach step Trans.any Init s) : Inv s :=
  h.inv (fun _ h0 => h0.inv) fun _ _ _ hs _ hstep => hs.step hstep

def twoGetters : List (Act Bool) := [.get true, .get false, .go true, .go true]

end

end Librettos.GnttabConc
