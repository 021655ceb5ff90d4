/-
# `Base.LwpRegistry` — the list of LWPs of `_lwp.c`

`rumprun_makelwp` allocates a structure, numbers it, creates the thread and then links the
structure into `all_lwp`; `_lwp_exit` unlinks it.  The list is under a lock, and nothing else
is: `++curlwpid` is a load and a store, and the new thread can run as soon as it has been
created, which is before it is linked.

    makeInc    load of curlwpid                      exitUnlink  TAILQ_REMOVE
    makeStore  store of curlwpid and rl_lwpid
    makeCreate bmk_sched_create_withtls
    makeLink   TAILQ_INSERT_TAIL

So an LWP that exits at once unlinks a structure that is not in the list, and is linked when
it is gone; and two LWPs that are made at the same time can get the same number
(`registry_broken`).  Where an LWP unlinks itself only after it has been linked and no two
increments overlap, the list is as it should be (`registry_exact`).

An LWP is created from when it is linked, which is the last thing a successful
`rumprun_makelwp` does, and has exited from when it has unlinked itself.
-/
import Librettos.Lib.Trans
import Librettos.Lib.Count

namespace Librettos.LwpRegistry

open Trans
open Function (update update_of_ne update_self)

/-- An `int` -/
abbrev Lwpid := BitVec 32

/-- What an LWP is doing; of `c`, the one it makes.  `unborn` and `made` have no thread. -/
inductive Pc (R : Type)
  | unborn
  | made
  /-- in the application -/
  | run
  | makeInc (c : R)
  | makeStore (c : R) (value : Lwpid)
  | makeCreate (c : R)
  | makeLink (c : R)
  | exitUnlink
  | gone
deriving DecidableEq, Repr

/-- `stray` says that a structure was unlinked that was not in the list; `linked` that the
current `rumprun_makelwp` of an LWP has changed the list, and `spoilt` that such a one has
failed. -/
structure State (R : Type) where
  allLwp : List R
  curlwpid : Lwpid
  lwpid : R → Lwpid
  pc : R → Pc R
  created : R → Bool
  linked : R → Bool
  stray : Bool
  spoilt : Bool

/-- How `calloc` and `rump_pub_lwproc_newlwp` answer. -/
inductive Outcome
  | noMemory
  | noLwp
  | ok
deriving DecidableEq, Repr

inductive Act (R : Type)
  /-- `t` calls `rumprun_makelwp`; `c` is the structure that `calloc` returns -/
  | make (t c : R) (outcome : Outcome)
  /-- `t` calls `_lwp_exit` -/
  | exit (t : R)
  /-- the next step of `t`; `fail` says that no thread could be created -/
  | go (t : R) (fail : Bool)
deriving DecidableEq, Repr

section
variable {R : Type} [DecidableEq R]

def State.goto (s : State R) (t : R) (c : Pc R) : State R :=
  { s with pc := update s.pc t c }

/-- The `rumprun_makelwp` of `t` returns an error. -/
def State.fails (s : State R) (t : R) : State R :=
  { s with spoilt := s.spoilt || s.linked t }

def go (s : State R) (t : R) (fail : Bool) : Option (State R) :=
  match s.pc t with
  | .unborn | .made | .run | .gone => none
  | .makeInc c => some (s.goto t (.makeStore c s.curlwpid))
  | .makeStore c value =>
    some { s.goto t (.makeCreate c) with
      curlwpid := value + 1
      lwpid := update s.lwpid c (value + 1) }
  | .makeCreate c =>
    if fail then some (((s.fails t).goto t .run).goto c .unborn)
    else some ((s.goto t (.makeLink c)).goto c .run)
  | .makeLink c =>
    some { s.goto t .run with
      allLwp := s.allLwp ++ [c]
      created := update s.created c true
      linked := update s.linked t true }
  | .exitUnlink =>
    some { s.goto t .gone with
      allLwp := s.allLwp.erase t
      stray := s.stray || decide (t ∉ s.allLwp) }

def step (s : State R) : Act R → Option (State R)
  | .make t c outcome =>
    if s.pc t = .run ∧ s.pc c = .unborn then
      let s := { s with linked := update s.linked t false }
      match outcome with
      | .noMemory => some (s.fails t)
      | .noLwp => some (s.fails t)
      | .ok => some ((s.goto t (.makeInc c)).goto c .made)
    else none
  | .exit t => if s.pc t = .run then some (s.goto t .exitUnlink) else none
  | .go t fail => go s t fail

/-- `rumprun_lwp_init` has linked the main thread, with the number `FIRST_LWPID`. -/
structure Init (main : R) (s : State R) : Prop where
  allLwp : s.allLwp = [main]
  curlwpid : s.curlwpid = 1
  lwpid : s.lwpid main = 1
  pc : ∀ r, s.pc r = if r = main then .run else .unborn
  created : ∀ r, s.created r = decide (r = main)
  stray : s.stray = false
  spoilt : s.spoilt = false

/-- Between the load and the store of `curlwpid`. -/
def Pc.storing : Pc R → Bool
  | .makeStore _ _ => true
  | _ => false

/-- An LWP unlinks itself only when it has been linked; `curlwpid` is not loaded while it is
being incremented, nor at the end of its range. -/
def Pc.orderly (s : State R) (t : R) : Pc R → Prop
  | .exitUnlink => s.created t = true
  | .makeInc _ => s.curlwpid ≠ BitVec.intMax 32 ∧ ∀ u, (s.pc u).storing = false
  | _ => True

def orderly (s : State R) : Act R → Prop
  | .go t _ => (s.pc t).orderly s t
  | _ => True

/-! ## The invariant -/

/-- The LWP that is being made. -/
def Pc.child : Pc R → Option R
  | .makeInc c => some c
  | .makeStore c _ => some c
  | .makeCreate c => some c
  | .makeLink c => some c
  | _ => none

/-- There is a thread, or there has been one. -/
def Pc.started : Pc R → Bool
  | .unborn => false
  | .made => false
  | _ => true

/-- Who makes whom: a structure has one maker, it has no thread until its maker is about to link
it, and it is not created before that. -/
structure Family (s : State R) : Prop where
  maker : ∀ t u c, (s.pc t).child = some c → (s.pc u).child = some c → t = u
  early : ∀ t c, (s.pc t).child = some c → s.pc t ≠ .makeLink c → s.pc c = .made
  late : ∀ t c, s.pc t = .makeLink c → (s.pc c).started = true
  fresh : ∀ t c, (s.pc t).child = some c → s.created c = false
  unlinked : ∀ t c, (s.pc t).child = some c → s.linked t = false
  created : ∀ r, s.created r = true → (s.pc r).started = true
  gone : ∀ r, s.pc r = .gone → s.created r = true

/-- The structure has its number. -/
def Numbered (s : State R) (r : R) : Prop := (s.pc r).started = true ∨ ∃ t, s.pc t = .makeCreate r

/-- The numbers are different, and none is above `curlwpid`. -/
structure Ids (s : State R) : Prop where
  small : ∀ r, Numbered s r → (s.lwpid r).toInt ≤ s.curlwpid.toInt
  inj : ∀ r r', Numbered s r → Numbered s r' → s.lwpid r = s.lwpid r' → r = r'
  store : ∀ t c v, s.pc t = .makeStore c v → v = s.curlwpid ∧ v ≠ BitVec.intMax 32
  alone : ∀ t u, (s.pc t).storing = true → (s.pc u).storing = true → t = u

/-- What is in the list. -/
structure Listed (s : State R) : Prop where
  mem : ∀ r, r ∈ s.allLwp ↔ s.created r = true ∧ s.pc r ≠ .gone
  nodup : s.allLwp.Nodup
  stray : s.stray = false
  spoilt : s.spoilt = false

variable {s s' : State R} {t c : R} {v : Lwpid}

attribute [local grind =] Function.update_apply Pc.child Pc.started Pc.storing

/-! ### Who makes whom -/

section
variable (h : Family s)
include h

omit [DecidableEq R] in
theorem Family.sole {p : Pc R} (hpc : s.pc t = p) (hp : p.child = some c) (u : R)
    (hu : (s.pc u).child = some c) : u = t :=
  h.maker u t c hu (hpc ▸ hp)

omit [DecidableEq R] in
theorem Family.born (hu : (s.pc t).child = some c) : s.pc c ≠ .unborn := by
  intro hc
  have := h.early t c hu
  have := h.late t c
  grind

/-- `t` goes on to `q`, and makes whom it made before, or nobody any more. -/
theorem Family.goto {q : Pc R} (hp : (s.pc t).started = true) (hq : q.started = true)
    (hchild : ∀ c, q.child = some c →
      (s.pc t).child = some c ∧ s.pc t ≠ .makeLink c ∧ q ≠ .makeLink c)
    (hgone : q = .gone → s.created t = true) : Family (s.goto t q) := by
  have hpc : ∀ u, (s.goto t q).pc u = s.pc u ∨ u = t ∧ (s.goto t q).pc u = q := by
    simp only [State.goto]
    grind
  have hold : ∀ u c, ((s.goto t q).pc u).child = some c → (s.pc u).child = some c := by grind
  have hstarted : ∀ u, ((s.goto t q).pc u).started = (s.pc u).started := by grind
  constructor
  case maker => exact fun u v c hu hv => h.maker u v c (hold u c hu) (hold v c hv)
  case early =>
    intro u c hu hne
    have hmade : s.pc c = .made := h.early u c (hold u c hu) (by grind)
    have hct : c ≠ t := by rintro rfl; simp [hmade, Pc.started] at hp
    exact (update_of_ne hct ..).trans hmade
  case late => exact fun u c hu => (hstarted c).trans (h.late u c (by grind))
  case fresh => exact fun u c hu => h.fresh u c (hold u c hu)
  case unlinked => exact fun u c hu => h.unlinked u c (hold u c hu)
  case created => exact fun r hr => (hstarted r).trans (h.created r hr)
  case gone =>
    intro r hr
    rcases hpc r with he | ⟨rfl, he⟩
    · exact h.gone r (he ▸ hr)
    · exact hgone (he ▸ hr)

/-- `t` goes on to `q` and `c`, whom nobody else makes, to `r`. -/
theorem Family.both {q r : Pc R} (hp : (s.pc t).started = true) (hq : q.started = true)
    (hc : (s.pc c).started = false) (hsole : ∀ u, (s.pc u).child = some c → u = t)
    (hr : r.child = none) (hgone : q ≠ .gone ∧ r ≠ .gone)
    (hmake : ∀ d, q.child = some d → d = c ∧ s.linked t = false ∧
      (q = .makeLink c → r.started = true) ∧ (q ≠ .makeLink c → r = .made)) :
    Family ((s.goto t q).goto c r) := by
  have hct : c ≠ t := by rintro rfl; simp [hc] at hp
  have hfresh : s.created c = false := by
    by_contra hcr
    simp [h.created c (by simpa using hcr)] at hc
  generalize hs' : (s.goto t q).goto c r = s'
  have hrest : s'.created = s.created ∧ s'.linked = s.linked := hs' ▸ ⟨rfl, rfl⟩
  have hat : s'.pc t = q ∧ s'.pc c = r := by
    subst hs'
    simp [State.goto, hct.symm]
  have hpc : ∀ u, u ≠ t → u ≠ c → s'.pc u = s.pc u := by
    subst hs'
    intro u hut huc
    simp [State.goto, hut, huc]
  have hstarted : ∀ u, u ≠ c → (s'.pc u).started = (s.pc u).started := by
    intro u huc
    by_cases hut : u = t
    · rw [hut, hat.1, hp, hq]
    · rw [hpc u hut huc]
  -- whoever else makes somebody makes the same one as before
  have hwho : ∀ u d, (s'.pc u).child = some d → u = t ∧ d = c ∨
      u ≠ t ∧ d ≠ c ∧ (s.pc u).child = some d ∧ s'.pc u = s.pc u := by
    intro u d hu
    by_cases hut : u = t
    · rw [hut, hat.1] at hu
      exact .inl ⟨hut, (hmake d hu).1⟩
    · have huc : u ≠ c := by
        rintro rfl
        simp [hat.2, hr] at hu
      rw [hpc u hut huc] at hu ⊢
      exact .inr ⟨hut, fun hdc => hut (hsole u (hdc ▸ hu)), hu, rfl⟩
  constructor
  case maker =>
    intro u v d hu hv
    rcases hwho u d hu with ⟨rfl, rfl⟩ | ⟨-, hd, hu, -⟩ <;>
      rcases hwho v d hv with ⟨rfl, hd'⟩ | ⟨-, hd', hv, -⟩
    · rfl
    · exact absurd rfl hd'
    · exact absurd hd' hd
    · exact h.maker u v d hu hv
  case early =>
    intro u d hu hne
    have := h.early u d
    grind
  case late =>
    intro u d hu
    rcases hwho u d (by rw [hu]; rfl) with ⟨rfl, rfl⟩ | ⟨-, hd, -, he⟩
    · rw [hat.1] at hu
      rw [hat.2]
      exact (hmake d (by rw [hu]; rfl)).2.2.1 hu
    · exact (hstarted d hd).trans (h.late u d (he ▸ hu))
  case fresh =>
    intro u d hu
    have := h.fresh u d
    grind
  case unlinked =>
    intro u d hu
    have := h.unlinked u d
    grind
  case created =>
    intro u hu
    have := h.created u
    grind
  case gone =>
    intro u hu
    have hut : u ≠ t := by
      rintro rfl
      exact hgone.1 (hat.1 ▸ hu)
    have huc : u ≠ c := by
      rintro rfl
      exact hgone.2 (hat.2 ▸ hu)
    rw [hrest.1]
    exact h.gone u (hpc u hut huc ▸ hu)

theorem Family.relink : Family { s with linked := update s.linked t false } :=
  { h with
    unlinked := fun u c hu => by
      have := h.unlinked u c hu
      grind }

/-- `t` has linked `c`, whom nobody makes any more. -/
theorem Family.link (hpc : s.pc t = .makeLink c) : Family { s.goto t .run with
      allLwp := s.allLwp ++ [c]
      created := update s.created c true
      linked := update s.linked t true } := by
  have hgo := h.goto (t := t) (q := .run) (by rw [hpc]; rfl) rfl (by simp [Pc.child]) (by simp)
  have hnone : ∀ u d, ((s.goto t .run).pc u).child = some d → u ≠ t ∧ d ≠ c := by
    intro u d hu
    have := h.maker u t c
    simp only [State.goto] at hu
    grind
  have hlate : ((s.goto t .run).pc c).started = true := by
    have := h.late t c hpc
    simp only [State.goto]
    grind
  exact { hgo with
    fresh := fun u d hu => (update_of_ne (hnone u d hu).2 ..).trans (hgo.fresh u d hu)
    unlinked := fun u d hu => (update_of_ne (hnone u d hu).1 ..).trans (hgo.unlinked u d hu)
    created := fun r hr => by
      by_cases hrc : r = c
      · exact hrc ▸ hlate
      · exact hgo.created r ((update_of_ne hrc ..).symm.trans hr)
    gone := fun r hr => by
      by_cases hrc : r = c
      · rw [hrc]
        exact update_self ..
      · exact (update_of_ne hrc ..).trans (hgo.gone r hr) }

end

/-! ### Numbers -/

omit [DecidableEq R] in
/-- A step that gives no number and does not go on to the store. -/
theorem Ids.frame (h : Ids s) (hlwpid : s'.lwpid = s.lwpid) (hcur : s'.curlwpid = s.curlwpid)
    (hnum : ∀ r, Numbered s' r → Numbered s r)
    (hstore : ∀ t c v, s'.pc t = .makeStore c v → s.pc t = .makeStore c v) : Ids s' := by
  have hstoring : ∀ t, (s'.pc t).storing = true → (s.pc t).storing = true := by
    intro t ht
    cases hpc : s'.pc t with
    | makeStore c v =>
      rw [hstore t c v hpc]
      rfl
    | _ => simp [hpc, Pc.storing] at ht
  constructor
  case small =>
    intro r hr
    rw [hlwpid, hcur]
    exact h.small r (hnum r hr)
  case inj =>
    intro r r' hr hr' he
    rw [hlwpid] at he
    exact h.inj r r' (hnum r hr) (hnum r' hr') he
  case store =>
    intro t c v hpc
    rw [hcur]
    exact h.store t c v (hstore t c v hpc)
  case alone => exact fun t u ht hu => h.alone t u (hstoring t ht) (hstoring u hu)

theorem Ids.inc (h : Ids s) (hpc : s.pc t = .makeInc c) (hmax : s.curlwpid ≠ BitVec.intMax 32)
    (halone : ∀ u, (s.pc u).storing = false) : Ids (s.goto t (.makeStore c s.curlwpid)) := by
  have hnum : ∀ r, Numbered (s.goto t (.makeStore c s.curlwpid)) r → Numbered s r := by
    simp only [Numbered, State.goto] at *
    grind
  constructor
  case small => exact fun r hr => h.small r (hnum r hr)
  case inj => exact fun r r' hr hr' => h.inj r r' (hnum r hr) (hnum r' hr')
  case store =>
    simp only [State.goto] at *
    grind
  case alone =>
    simp only [State.goto] at *
    grind

theorem Ids.stored (h : Ids s) (hpc : s.pc t = .makeStore c v) :
    Ids { s.goto t (.makeCreate c) with
      curlwpid := v + 1
      lwpid := update s.lwpid c (v + 1) } := by
  obtain ⟨rfl, hmax⟩ := h.store t c v hpc
  have hadd := Count.toInt_add_one (by decide) hmax
  have hnum : ∀ r, r ≠ c → Numbered { s.goto t (.makeCreate c) with
      curlwpid := s.curlwpid + 1
      lwpid := update s.lwpid c (s.curlwpid + 1) } r →
      (s.lwpid r).toInt < (s.curlwpid + 1).toInt ∧ Numbered s r := by
    intro r hrc hr
    have hr' : Numbered s r := by
      simp only [Numbered, State.goto] at *
      grind
    have := h.small r hr'
    exact ⟨by omega, hr'⟩
  constructor
  case small =>
    intro r hr
    by_cases hrc : r = c
    · simp [hrc]
    · have := hnum r hrc hr
      simp only [update_of_ne hrc]
      omega
  case inj =>
    intro r r' hr hr' he
    by_cases hrc : r = c <;> by_cases hrc' : r' = c
    · rw [hrc, hrc']
    · simp only [hrc, update_self, update_of_ne hrc'] at he
      have := (hnum r' hrc' hr').1
      rw [he] at this
      omega
    · simp only [hrc', update_self, update_of_ne hrc] at he
      have := (hnum r hrc hr).1
      rw [he] at this
      omega
    · simp only [update_of_ne hrc, update_of_ne hrc'] at he
      exact h.inj r r' (hnum r hrc hr).2 (hnum r' hrc' hr').2 he
  case store =>
    intro u d w hu
    have halone := h.alone t u
    simp only [State.goto] at hu
    grind
  case alone =>
    intro u u' hu hu'
    have halone := h.alone
    simp only [State.goto] at hu hu'
    grind

/-! ### The list -/

omit [DecidableEq R] in
/-- A step that neither links nor unlinks. -/
theorem Listed.frame (h : Listed s) (hall : s'.allLwp = s.allLwp) (hcreated : s'.created = s.created)
    (hgone : ∀ r, s'.pc r = .gone ↔ s.pc r = .gone) (hstray : s'.stray = s.stray)
    (hspoilt : s'.spoilt = s.spoilt) : Listed s' := by
  refine ⟨fun r => ?_, hall ▸ h.nodup, hstray.trans h.stray, hspoilt.trans h.spoilt⟩
  rw [hall, hcreated, h.mem r, ne_eq, ne_eq, hgone r]

theorem Listed.link (h : Listed s) (hf : Family s) (hpc : s.pc t = .makeLink c) :
    Listed { s.goto t .run with
      allLwp := s.allLwp ++ [c]
      created := update s.created c true
      linked := update s.linked t true } := by
  have hfresh : s.created c = false := hf.fresh t c (by rw [hpc]; rfl)
  have hnew : c ∉ s.allLwp := by simp [h.mem, hfresh]
  have hgone : s.pc c ≠ .gone := by
    intro hc
    have := hf.gone c hc
    simp [hfresh] at this
  constructor
  case mem =>
    intro r
    have hmem := h.mem r
    simp only [List.mem_append, List.mem_singleton, State.goto]
    grind
  case nodup => exact List.nodup_append_comm.mp (List.nodup_cons.mpr ⟨hnew, h.nodup⟩)
  case stray => exact h.stray
  case spoilt => exact h.spoilt

theorem Listed.unlink (h : Listed s) (hpc : s.pc t = .exitUnlink) (hc : s.created t = true) :
    Listed { s.goto t .gone with
      allLwp := s.allLwp.erase t
      stray := s.stray || decide (t ∉ s.allLwp) } := by
  have ht : t ∈ s.allLwp := (h.mem t).mpr ⟨hc, by simp [hpc]⟩
  constructor
  case mem =>
    intro r
    have hmem := h.mem r
    rw [h.nodup.mem_erase_iff]
    simp only [State.goto]
    grind
  case nodup => exact h.nodup.erase t
  case stray => simp [h.stray, ht]
  case spoilt => exact h.spoilt

/-! ## Runs -/

structure Inv (s : State R) : Prop where
  family : Family s
  ids : Ids s
  listed : Listed s

theorem Init.inv {main : R} (h : Init main s) : Inv s := by
  have hpc := h.pc
  have hcreated := h.created
  have hnum : ∀ r, Numbered s r → r = main := by
    simp only [Numbered]
    grind
  constructor
  case family => constructor <;> grind
  case ids =>
    constructor
    case small =>
      intro r hr
      rw [hnum r hr, h.lwpid, h.curlwpid]
    case inj => exact fun r r' hr hr' _ => (hnum r hr).trans (hnum r' hr').symm
    case store => grind
    case alone => grind
  case listed =>
    refine ⟨fun r => ?_, by simp [h.allLwp], h.stray, h.spoilt⟩
    simp only [h.allLwp, List.mem_singleton, hcreated, hpc]
    grind

section
variable (h : Inv s)
include h

theorem Inv.makeFail : Inv ({ s with linked := update s.linked t false }.fails t) := by
  constructor
  case family => exact { h.family.relink (t := t) with }
  case ids => exact h.ids.frame rfl rfl (fun _ hr => hr) fun _ _ _ hu => hu
  case listed => exact h.listed.frame rfl rfl (fun _ => Iff.rfl) rfl (by simp [State.fails])

theorem Inv.make {outcome : Outcome} (ht : s.pc t = .run) (hc : s.pc c = .unborn)
    (hs : step s (.make t c outcome) = some s') : Inv s' := by
  simp only [step, ht, hc, and_self, if_true] at hs
  cases outcome with
  | noMemory | noLwp =>
    cases hs
    exact h.makeFail
  | ok =>
    cases hs
    have hfam : Family _ := (h.family.relink (t := t)).both (c := c) (q := .makeInc c) (r := .made)
      (by rw [ht]; rfl) rfl (by rw [hc]; rfl)
      (fun u hu => absurd hc (h.family.born hu)) rfl (by simp) (by simp [Pc.child])
    refine ⟨hfam, h.ids.frame rfl rfl ?_ ?_, h.listed.frame rfl rfl ?_ rfl rfl⟩ <;>
      simp only [Numbered, State.goto] <;> grind

theorem Inv.createFail (hpc : s.pc t = .makeCreate c) :
    Inv (((s.fails t).goto t .run).goto c .unborn) := by
  have hfam := h.family
  have hmade : s.pc c = .made := hfam.early t c (by rw [hpc]; rfl) (by simp [hpc])
  have hlinked : s.linked t = false := hfam.unlinked t c (by rw [hpc]; rfl)
  have hsame : s.fails t = s := by simp [State.fails, hlinked]
  rw [hsame]
  refine ⟨hfam.both (by rw [hpc]; rfl) rfl (by rw [hmade]; rfl) (hfam.sole hpc rfl) rfl (by simp)
    (by simp [Pc.child]), h.ids.frame rfl rfl ?_ ?_, h.listed.frame rfl rfl ?_ rfl rfl⟩ <;>
    simp only [Numbered, State.goto] <;> grind

theorem Inv.create (hpc : s.pc t = .makeCreate c) : Inv ((s.goto t (.makeLink c)).goto c .run) := by
  have hmade : s.pc c = .made := h.family.early t c (by rw [hpc]; rfl) (by simp [hpc])
  refine ⟨h.family.both (by rw [hpc]; rfl) rfl (by rw [hmade]; rfl) (h.family.sole hpc rfl) rfl (by simp)
    (by simp [Pc.child, Pc.started, h.family.unlinked t c (by rw [hpc]; rfl)]),
    h.ids.frame rfl rfl ?_ ?_, h.listed.frame rfl rfl ?_ rfl rfl⟩ <;>
    simp only [Numbered, State.goto] <;> grind

theorem Inv.go {fail : Bool} (hok : orderly s (.go t fail))
    (hs : go s t fail = some s') : Inv s' := by
  simp only [orderly] at hok
  cases hpc : s.pc t with
  | unborn | made | run | gone => simp [LwpRegistry.go, hpc] at hs
  | makeInc c =>
    simp only [hpc, Pc.orderly] at hok
    simp only [LwpRegistry.go, hpc, Option.some.injEq] at hs
    subst hs
    refine ⟨h.family.goto (by rw [hpc]; rfl) rfl (by simp [hpc, Pc.child]) (by simp),
      h.ids.inc hpc hok.1 hok.2, h.listed.frame rfl rfl ?_ rfl rfl⟩
    simp only [State.goto]
    grind
  | makeStore c value =>
    simp only [LwpRegistry.go, hpc, Option.some.injEq] at hs
    subst hs
    have hfam := h.family.goto (t := t) (q := .makeCreate c) (by rw [hpc]; rfl) rfl
      (by simp [hpc, Pc.child]) (by simp)
    refine ⟨{ hfam with }, h.ids.stored hpc,
      h.listed.frame rfl rfl ?_ rfl rfl⟩
    simp only [State.goto]
    grind
  | makeCreate c =>
    simp only [LwpRegistry.go, hpc] at hs
    split at hs
    · cases hs
      exact h.createFail hpc
    · cases hs
      exact h.create hpc
  | makeLink c =>
    simp only [LwpRegistry.go, hpc, Option.some.injEq] at hs
    subst hs
    refine ⟨h.family.link hpc, h.ids.frame rfl rfl ?_ ?_, h.listed.link h.family hpc⟩ <;>
      simp only [Numbered, State.goto] <;> grind
  | exitUnlink =>
    simp only [hpc, Pc.orderly] at hok
    simp only [LwpRegistry.go, hpc, Option.some.injEq] at hs
    subst hs
    have hfam := h.family.goto (t := t) (q := .gone) (by rw [hpc]; rfl) rfl (by simp [Pc.child])
      fun _ => hok
    refine ⟨{ hfam with }, h.ids.frame rfl rfl ?_ ?_,
      h.listed.unlink hpc hok⟩ <;> simp only [Numbered, State.goto] <;> grind

theorem Inv.step {a : Act R} (hok : orderly s a) (hs : step s a = some s') : Inv s' := by
  cases a with
  | make t c outcome =>
    obtain ⟨⟨ht, hc⟩, -⟩ := Option.ite_none_right_eq_some.mp hs
    exact h.make ht hc hs
  | exit t =>
    obtain ⟨hpc, ⟨⟩⟩ := Option.ite_none_right_eq_some.mp hs
    refine ⟨h.family.goto (by rw [hpc]; rfl) rfl (by simp [Pc.child]) (by simp),
      h.ids.frame rfl rfl ?_ ?_, h.listed.frame rfl rfl ?_ rfl rfl⟩ <;>
      simp only [Numbered, State.goto] <;> grind
  | go t fail => exact h.go hok hs

end

/-- **The registry.**  In every run in which an LWP unlinks itself only after it has been linked
and the increments of `curlwpid` do not overlap or overflow, the list has exactly the LWPs that
have been created and have not exited, each once and with its own number; nothing was
unlinked that was not in the list, and no failed call has changed it. -/
theorem registry_exact {main : R} (h : Reach step orderly (Init main) s) :
    (∀ r, r ∈ s.allLwp ↔ s.created r = true ∧ s.pc r ≠ .gone) ∧ s.allLwp.Nodup ∧
      (∀ r ∈ s.allLwp, ∀ r' ∈ s.allLwp, s.lwpid r = s.lwpid r' → r = r') ∧
      s.stray = false ∧ s.spoilt = false := by
  have hinv : Inv s := h.inv (fun _ h0 => h0.inv) fun _ _ _ hi hok hs => hi.step hok hs
  obtain ⟨hmem, hnodup, hstray, hspoilt⟩ := hinv.listed
  refine ⟨hmem, hnodup, fun r hr r' hr' he => ?_, hstray, hspoilt⟩
  have hstarted : ∀ r ∈ s.allLwp, Numbered s r :=
    fun r hr => .inl (hinv.family.created r ((hmem r).mp hr).1)
  exact hinv.ids.inj r r' (hstarted r hr) (hstarted r' hr') he

instance [Fintype R] (s : State R) (t : R) : (p : Pc R) → Decidable (p.orderly s t)
  | .exitUnlink => inferInstanceAs (Decidable (s.created t = true))
  | .makeInc _ => inferInstanceAs
      (Decidable (s.curlwpid ≠ BitVec.intMax 32 ∧ ∀ u, (s.pc u).storing = false))
  | .unborn | .made | .run | .makeStore _ _ | .makeCreate _ | .makeLink _ | .gone => isTrue trivial

instance [Fintype R] (s : State R) : (a : Act R) → Decidable (orderly s a)
  | .make _ _ _ => isTrue trivial
  | .exit _ => isTrue trivial
  | .go t _ => inferInstanceAs (Decidable ((s.pc t).orderly s t))

end

/-- The main thread, 0, runs. -/
def boot : State (Fin 4) where
  allLwp := [0]
  curlwpid := 1
  lwpid := fun _ => 1
  pc := fun r => if r = 0 then .run else .unborn
  created := fun r => decide (r = 0)
  linked := fun _ => false
  stray := false
  spoilt := false

theorem boot_init : Init 0 boot := ⟨rfl, rfl, rfl, fun _ => rfl, fun _ => rfl, rfl, rfl⟩

/-- `t` makes `c`. -/
def makes (t c : Fin 4) : List (Act (Fin 4)) :=
  [.make t c .ok, .go t false, .go t false, .go t false, .go t false]

/-- Two LWPs are made, and the first one exits. -/
theorem registry_exact_exit : ∃ s : State (Fin 4), Reach step orderly (Init 0) s ∧
    s.allLwp = [0, 2] ∧ s.lwpid 2 = 3 ∧ s.stray = false := by
  obtain ⟨s, hreach, hall, hid⟩ := run_finds step orderly (Init 0)
    (fun s => s.allLwp = [0, 2] ∧ s.lwpid 2 = 3)
    ((makes 0 1 ++ makes 0 2).append [.exit 1, .go 1 false]) boot_init (by decide) (by decide)
  exact ⟨s, hreach, hall, hid, (registry_exact hreach).2.2.2.1⟩

/-- **The registry is wrong.**  An LWP that exits before it is linked unlinks what is not in the
list, and stays in the list for ever; two LWPs that are made at the same time have the same
number. -/
theorem registry_broken :
    (∃ s : State (Fin 4), Reach step Trans.any (Init 0) s ∧ s.stray = true ∧
      s.allLwp = [0, 1] ∧ s.pc 1 = .gone) ∧
    ∃ s : State (Fin 4), Reach step Trans.any (Init 0) s ∧ s.allLwp = [0, 1, 2, 3] ∧
      s.lwpid 2 = s.lwpid 3 := by
  constructor
  · exact any_finds step (Init 0) _
      [.make 0 1 .ok, .go 0 false, .go 0 false, .go 0 false, .exit 1, .go 1 false, .go 0 false]
      boot_init (by decide)
  · exact any_finds step (Init 0) _
      ((makes 0 1).append [.make 0 2 .ok, .make 1 3 .ok, .go 0 false, .go 1 false, .go 0 false,
        .go 1 false, .go 0 false, .go 1 false, .go 0 false, .go 1 false])
      boot_init (by decide)

end Librettos.LwpRegistry
