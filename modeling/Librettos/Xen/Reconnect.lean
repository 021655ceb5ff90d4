/-
# `Xen.Reconnect` — what a reconnection of the frontend leaves behind

When the network server is restarted, `frontend_reconnecter` (`frontend.c`) terminates the two rings
that it shares with the old one and makes new ones.  A ring has

    a block of 2 pages for the references                2 grants, kept by the one before it
    a block of 2048 pages, of which 1158 are used        3 + 3 + 1152 grants, kept in the first block

`frontend_terminate_ring` ends all the grants.  It gives none of the pages back: there is no
`bmk_pgfree` in the file.  So a reconnection keeps the number of free references, releases none of
them twice, and costs 4100 pages (`reconnect_loses_pages`).

The grant table is that of `Xen.Gnttab` and the page allocator that of `Core.Pgalloc`.  The rest of
the domain uses both between the reconnections, and the backend maps and unmaps what it has been
granted.  An iteration is one step: terminating the old rings, the query for the server, and the
new rings.  The event channels that are set up after that have no part in this.  The backend only
reads the references of a ring, so they are kept apart from memory.
-/
import Librettos.Core.Pgalloc
import Librettos.Xen.Gnttab

namespace Librettos.Reconnect

open Gnttab List Option Trans Wp

/-- `NETDOM_RING_DATA_PAGES` -/
def netdomRingDataPages : ℕ := (9216 * 2 ^ 9 + pageSize - 1) / pageSize

/-- `gntmap_map2order` -/
def gntmapMap2order (count : ℕ) : ℕ :=
  let o := 64 - Pgalloc.clzl count
  if count &&& (count - 1) = 0 then o - 1 else o

/-- A ring: its two blocks, and the references to the pages of the second one. -/
structure Ring where
  grefsPages : ℕ
  sharedPages : ℕ
  aringGrefs : List ℕ
  fringGrefs : List ℕ
  bufGrefs : List ℕ

def Ring.refs (r : Ring) : List ℕ := r.aringGrefs ++ r.fringGrefs ++ r.bufGrefs

/-- The two rings.  The references to the first block of a ring are in `app_dom_info.grefs` for the
receive ring, and in the `next_grefs` of the receive ring for the other one. -/
structure Rings where
  rx : Ring
  tx : Ring
  appGrefs : ℕ × ℕ
  rxNextGrefs : ℕ × ℕ
  txNextGrefs : ℕ × ℕ

/-- `others` are the references that the rest of the domain has. -/
structure State where
  pages : Pgalloc.State
  gnttab : Table
  domid : ℕ
  rings : Option Rings
  others : List ℕ

/-! ## The functions -/

/-- `bmk_pgalloc`, and the halt if there is no block -/
def pgalloc (pages : Pgalloc.State) (order : ℕ) (msg : String) :
    Except Stop (Pgalloc.State × ℕ) :=
  match Pgalloc.bmkPgallocAlign pages.pg order Pgalloc.pageSize with
  | none => .error .asserts
  | some (none, _) => .error (.halts msg)
  | some (some p, pg) => .ok (⟨pg, insert (p, order) pages.live⟩, p)

/-- `frontend_terminate_ring`, with what it leaves in `result` -/
def frontendTerminateRing (g : Table) (ring : Ring) (result : ℕ × ℕ) :
    Except Stop (Table × (ℕ × ℕ)) := do
  let r₀ ← gnttabEndAccess g result.1
  let r₁ ← gnttabEndAccess r₀.1 result.2
  let g ← endAll r₁.1 ring.aringGrefs
  let g ← endAll g ring.fringGrefs
  let g ← endAll g ring.bufGrefs
  return (g, (r₁.2, result.2))

/-- What `frontend_init_ring` makes. -/
structure Made where
  pages : Pgalloc.State
  gnttab : Table
  ring : Ring
  result : ℕ × ℕ

def frontendInitRing (pages : Pgalloc.State) (g : Table) (domid : ℕ) : Except Stop Made := do
  let grefs ← pgalloc pages 1 "grefs shared page not allocated\n"
  let r₀ ← gnttabGrantAccess g domid (grefs.2 / pageSize) false
  let r₁ ← gnttabGrantAccess r₀.1 domid ((grefs.2 + pageSize) / pageSize) false
  let fring ← pgalloc grefs.1 (gntmapMap2order (6 + netdomRingDataPages))
    "shared pages are not allocated\n"
  let a ← grantPages r₁.1 domid (fring.2 + 3 * pageSize) 3
  let f ← grantPages a.1 domid fring.2 3
  let b ← grantPages f.1 domid (fring.2 + 6 * pageSize) netdomRingDataPages
  return ⟨fring.1, b.1, ⟨grefs.2, fring.2, a.2, f.2, b.2⟩, (r₀.2, r₁.2)⟩

/-- `HYPERVISOR_rumprun_service_op(RUMPRUN_SERVICE_QUERY)`: the domain of the server, if there is
one -/
def serviceQuery : Option ℕ → Except Stop ℕ
  | none => .error (.halts "HYP query fails")
  | some domid => .ok domid

/-- The rings are put in place; the one for sending is the end of the list. -/
def State.connect (s : State) (rx tx : Made) : State :=
  { s with
    pages := tx.pages
    gnttab := tx.gnttab
    rings := some ⟨rx.ring, tx.ring, rx.result, tx.result, (2 ^ 32 - 1, 2 ^ 32 - 1)⟩ }

/-- Both rings are made. -/
def initRings (s : State) : Except Stop State := do
  let rx ← frontendInitRing s.pages s.gnttab s.domid
  let tx ← frontendInitRing rx.pages rx.gnttab s.domid
  return s.connect rx tx

/-- `frontend_init` -/
def frontendInit (s : State) (query : Option ℕ) : Except Stop State := do
  let domid ← serviceQuery query
  initRings { s with domid := domid }

/-- An iteration of `frontend_reconnecter`. -/
def frontendReconnecter (s : State) (r : Rings) (query : Option ℕ) : Except Stop State := do
  let tx ← frontendTerminateRing s.gnttab r.tx r.rxNextGrefs
  let rx ← frontendTerminateRing tx.1 r.rx r.appGrefs
  let domid ← serviceQuery query
  initRings { s with gnttab := rx.1, domid := domid }

/-! ## The system -/

inductive Act
  | frontendInit (query : Option ℕ)
  | reconnect (query : Option ℕ)
  /-- the rest of the domain uses the page allocator -/
  | pages (a : Pgalloc.Act)
  /-- the rest of the domain grants a page -/
  | grant (domid frame : ℕ) (readonly : Bool)
  | endGrant (ref : ℕ)
  /-- the other domain maps a page that is granted to it -/
  | map (ref : ℕ) (writing : Bool)
  | unmap (ref : ℕ)

def step (s : State) : Act → Option State
  | .frontendInit query =>
    match s.rings with
    | none => (frontendInit s query).toOption
    | some _ => none
  | .reconnect query => s.rings.bind fun r => (frontendReconnecter s r query).toOption
  | .pages a => (Pgalloc.step s.pages a).map fun pages => { s with pages := pages }
  | .grant domid frame readonly =>
    (gnttabGrantAccess s.gnttab domid frame readonly).toOption.map fun r =>
      { s with gnttab := r.1, others := r.2 :: s.others }
  | .endGrant ref =>
    if ref ∈ s.others then
      (gnttabEndAccess s.gnttab ref).toOption.map fun r =>
        { s with gnttab := r.1, others := if r.2 = 1 then s.others.erase ref else s.others }
    else none
  | .map ref writing =>
    if (s.gnttab.entry ref).permitAccess then
      some { s with gnttab := { s.gnttab with
        entry := Function.update s.gnttab.entry ref
          { s.gnttab.entry ref with reading := true, writing := writing } } }
    else none
  | .unmap ref =>
    some { s with gnttab := { s.gnttab with
      entry := Function.update s.gnttab.entry ref
        { s.gnttab.entry ref with reading := false, writing := false } } }

/-- After `init_gnttab` and `bmk_pgalloc_loadmem`. -/
structure Init (min max : ℕ) (s : State) : Prop where
  pages : Pgalloc.Init min max s.pages
  gnttab : ∃ entry, s.gnttab = initGnttab entry
  rings : s.rings = none
  others : s.others = []

/-- The references of the two rings, in the order in which they are released. -/
def Rings.refs (r : Rings) : List ℕ :=
  (r.rxNextGrefs.1 :: r.rxNextGrefs.2 :: r.tx.refs) ++
    (r.appGrefs.1 :: r.appGrefs.2 :: r.rx.refs)

/-- No grant of the rings is still mapped by the old backend when they are terminated. -/
def unmapped (s : State) : Act → Prop
  | .reconnect _ => ∀ r ∈ s.rings, ∀ ref ∈ r.refs, (s.gnttab.entry ref).mapped = false
  | _ => True

/-! ## The invariant -/

/-- The references that are held. -/
def State.held (s : State) : List ℕ := s.rings.elim [] Rings.refs ++ s.others

structure Inv (min max : ℕ) (s : State) : Prop where
  pages : Pgalloc.SysInv min max s.pages
  gnttab : Good s.gnttab s.held
  size : ∀ r ∈ s.rings, r.rx.refs.length = 6 + netdomRingDataPages ∧
    r.tx.refs.length = 6 + netdomRingDataPages

section
variable {s s' : State} {min max : ℕ} {a : Act} {g : Table} {held : List ℕ} {pages : Pgalloc.State}
  {order : ℕ} {ring : Ring} {result : ℕ × ℕ} {query : Option ℕ} {r : Rings} {domid : ℕ}

theorem Init.inv (he : Pgalloc.Enough min max) (h : Init min max s) : Inv min max s := by
  obtain ⟨entry, hg⟩ := h.gnttab
  constructor
  case pages => exact Pgalloc.sysInv_init he h.pages
  case gnttab =>
    rw [State.held, h.rings, h.others, hg]
    exact (initGnttab_good entry).1
  case size => simp [h.rings]

theorem pgalloc_cases (h : Pgalloc.SysInv min max pages) (ho : order < Pgalloc.freelistLevels)
    (msg : String) : pgalloc pages order msg = .error (.halts msg) ∨
      ∃ pages' p, pgalloc pages order msg = .ok (pages', p) ∧ Pgalloc.SysInv min max pages' ∧
        (Pgalloc.freePages pages'.pg).card + 2 ^ order = (Pgalloc.freePages pages.pg).card := by
  rcases Pgalloc.bmkPgallocAlign_cases h.inv ho with hnone | ⟨bucket, p, hle, hp, hsome⟩
  · exact .inl (by rw [pgalloc, hnone])
  · exact .inr ⟨_, p, by rw [pgalloc, hsome], Pgalloc.sysInv_alloc h hle hp,
      Pgalloc.card_freePages_takeChunk h.inv hle hp⟩

theorem terminateRing_spec (h : Good g ((result.1 :: result.2 :: ring.refs) ++ held))
    (hu : ∀ ref ∈ result.1 :: result.2 :: ring.refs, (g.entry ref).mapped = false) :
    ∃ r, frontendTerminateRing g ring result = .ok r ∧ Good r.1 held ∧
      r.1.sem = g.sem + (2 + ring.refs.length) ∧
      ∀ x, x ∉ result.1 :: result.2 :: ring.refs → r.1.entry x = g.entry x := by
  obtain ⟨g', heq, hgood, hsem, hframe⟩ := Good.endAll _ h hu
  -- one after the other, they are the calls of the function
  rw [Ring.refs, endAll, append_assoc] at heq
  obtain ⟨r₀, h₀, heq⟩ := bind_ok heq
  obtain ⟨r₁, h₁, heq⟩ := bind_ok heq
  rw [endAll_append] at heq
  obtain ⟨ga, ha, heq⟩ := bind_ok heq
  rw [endAll_append] at heq
  obtain ⟨gf, hf, hb⟩ := bind_ok heq
  refine ⟨(g', (r₁.2, result.2)), ?_, hgood, ?_, hframe⟩
  · simp only [frontendTerminateRing, h₀, h₁, ha, hf, hb, bind, Except.bind, pure, Except.pure]
  · rw [hsem, length_cons, length_cons]
    omega

/-- The messages with which a ring is not made. -/
def noPages : List String := ["grefs shared page not allocated\n", "shared pages are not allocated\n"]

/-- A ring that has been made. -/
structure Fresh (min max : ℕ) (old : Pgalloc.State) (g : Table) (held : List ℕ) (m : Made) :
    Prop where
  pages : Pgalloc.SysInv min max m.pages
  gnttab : Good m.gnttab ((m.result.1 :: m.result.2 :: m.ring.refs) ++ held)
  size : m.ring.refs.length = 6 + netdomRingDataPages
  refs : m.gnttab.sem + (8 + netdomRingDataPages) = g.sem
  cost : (Pgalloc.freePages m.pages.pg).card + 2050 = (Pgalloc.freePages old.pg).card

theorem order_shared : gntmapMap2order (6 + netdomRingDataPages) = 11 := by decide

theorem initRing_made {pages₁ pages₂ : Pgalloc.State} {p q : ℕ}
    (hp : pgalloc pages 1 "grefs shared page not allocated\n" = .ok (pages₁, p))
    (hq : pgalloc pages₁ 11 "shared pages are not allocated\n" = .ok (pages₂, q)) (hg : Good g held)
    (hsem : 8 + netdomRingDataPages ≤ g.sem) (domid : ℕ) :
    ∃ m, frontendInitRing pages g domid = .ok m ∧ m.pages = pages₂ ∧
      Good m.gnttab ((m.result.1 :: m.result.2 :: m.ring.refs) ++ held) ∧
      m.ring.refs.length = 6 + netdomRingDataPages := by
  obtain ⟨g₀, r₀, h₀, hg₀, hsem₀⟩ := hg.grantAccess (by omega) domid (p / pageSize) false
  obtain ⟨g₁, r₁, h₁, hg₁, hsem₁⟩ :=
    hg₀.grantAccess (by omega) domid ((p + pageSize) / pageSize) false
  obtain ⟨ga, a, ha, hga, hsema, hlena⟩ :=
    Good.grantPages domid 3 (q + 3 * pageSize) hg₁ (by omega)
  obtain ⟨gf, f, hf, hgf, hsemf, hlenf⟩ := Good.grantPages domid 3 q hga (by omega)
  obtain ⟨gb, b, hb, hgb, -, hlenb⟩ :=
    Good.grantPages domid netdomRingDataPages (q + 6 * pageSize) hgf (by omega)
  refine ⟨⟨pages₂, gb, ⟨p, q, a, f, b⟩, (r₀, r₁)⟩, ?_, rfl, ?_, ?_⟩
  · simp only [frontendInitRing, hp, h₀, h₁, order_shared, hq, ha, hf, hb, bind, Except.bind, pure,
      Except.pure]
  · refine hgb.perm (perm_iff_count.mpr fun x => ?_)
    simp only [Ring.refs, count_append, count_cons]
    omega
  · simp only [Ring.refs, length_append, hlena, hlenf, hlenb]

theorem initRing_ok {m : Made} (h : frontendInitRing pages g domid = .ok m) :
    m.gnttab.sem + (8 + netdomRingDataPages) = g.sem ∧
      ∀ x, (g.entry x).mapped = false → (m.gnttab.entry x).mapped = false := by
  obtain ⟨grefs, -, h⟩ := bind_ok h
  obtain ⟨⟨g₀, r₀⟩, h₀, h⟩ := bind_ok h
  obtain ⟨⟨g₁, r₁⟩, h₁, h⟩ := bind_ok h
  obtain ⟨fring, -, h⟩ := bind_ok h
  obtain ⟨⟨ga, a⟩, ha, h⟩ := bind_ok h
  obtain ⟨⟨gf, f⟩, hf, h⟩ := bind_ok h
  obtain ⟨⟨gb, b⟩, hb, h⟩ := bind_ok h
  obtain rfl := Except.ok.inj h
  obtain ⟨hone, hkeep₀⟩ := grantAccess_ok h₀
  obtain ⟨htwo, hkeep₁⟩ := grantAccess_ok h₁
  obtain ⟨hpa, hkeepa⟩ := grantPages_ok _ _ _ ha
  obtain ⟨hpf, hkeepf⟩ := grantPages_ok _ _ _ hf
  obtain ⟨hpb, hkeepb⟩ := grantPages_ok _ _ _ hb
  dsimp only at *
  exact ⟨by omega, fun x hx => hkeepb x (hkeepf x (hkeepa x (hkeep₁ x (hkeep₀ x hx))))⟩

theorem initRing_spec (h : Pgalloc.SysInv min max pages) (hg : Good g held)
    (hsem : 8 + netdomRingDataPages ≤ g.sem) (domid : ℕ) :
    (∃ msg ∈ noPages, frontendInitRing pages g domid = .error (.halts msg)) ∨
      ∃ m, frontendInitRing pages g domid = .ok m ∧ Fresh min max pages g held m := by
  rcases pgalloc_cases h (by decide : 1 < Pgalloc.freelistLevels)
    "grefs shared page not allocated\n" with hno | ⟨pages₁, p, hp, hinv₁, hcard₁⟩
  · exact .inl ⟨_, mem_cons_self, by rw [frontendInitRing, hno]; rfl⟩
  rcases pgalloc_cases hinv₁ (by decide : 11 < Pgalloc.freelistLevels)
    "shared pages are not allocated\n" with hno | ⟨pages₂, q, hq, hinv₂, hcard₂⟩
  · obtain ⟨g₀, r₀, h₀, hg₀, hsem₀⟩ := hg.grantAccess (by omega) domid (p / pageSize) false
    obtain ⟨g₁, r₁, h₁, -, -⟩ :=
      hg₀.grantAccess (by omega) domid ((p + pageSize) / pageSize) false
    refine .inl ⟨_, mem_cons_of_mem _ mem_cons_self, ?_⟩
    simp only [frontendInitRing, hp, h₀, h₁, order_shared, hno, bind, Except.bind]
  · obtain ⟨m, hm, hpages, hgood, hsize⟩ := initRing_made hp hq hg hsem domid
    refine .inr ⟨m, hm, ?_⟩
    constructor
    case pages => exact hpages ▸ hinv₂
    case gnttab => exact hgood
    case size => exact hsize
    case refs => exact (initRing_ok hm).1
    case cost =>
      rw [hpages]
      omega

/-- Both rings are there. -/
structure Connected (min max : ℕ) (s s' : State) : Prop where
  inv : Inv min max s'
  refs : s'.gnttab.sem + 2 * (8 + netdomRingDataPages) = s.gnttab.sem
  cost : (Pgalloc.freePages s'.pages.pg).card + 4100 = (Pgalloc.freePages s.pages.pg).card

theorem initRings_spec (h : Pgalloc.SysInv min max s.pages) (hg : Good s.gnttab s.others)
    (hsem : 2 * (8 + netdomRingDataPages) ≤ s.gnttab.sem) :
    (∃ msg ∈ noPages, initRings s = .error (.halts msg)) ∨
      ∃ s', initRings s = .ok s' ∧ Connected min max s s' := by
  rcases initRing_spec h hg (by omega) s.domid with ⟨msg, hmsg, hno⟩ | ⟨rx, hrx, hfresh⟩
  · exact .inl ⟨msg, hmsg, by rw [initRings, hno]; rfl⟩
  have hrefs := hfresh.refs
  rcases initRing_spec hfresh.pages hfresh.gnttab (by omega) s.domid with
    ⟨msg, hmsg, hno⟩ | ⟨tx, htx, hfresh'⟩
  · refine .inl ⟨msg, hmsg, ?_⟩
    simp only [initRings, hrx, hno, bind, Except.bind]
  have hrefs' := hfresh'.refs
  have hcost := hfresh.cost
  have hcost' := hfresh'.cost
  refine .inr ⟨s.connect rx tx, ?_, ?_⟩
  · simp only [initRings, hrx, htx, bind, Except.bind, pure, Except.pure]
  constructor
  case inv =>
    refine ⟨hfresh'.pages, ?_, fun r hr => ?_⟩
    · refine hfresh'.gnttab.perm (.of_eq ?_)
      exact (append_assoc _ _ _).symm
    · cases hr
      exact ⟨hfresh.size, hfresh'.size⟩
  case refs =>
    dsimp only [State.connect]
    omega
  case cost =>
    dsimp only [State.connect]
    omega

theorem initRings_ok (h : Pgalloc.SysInv min max s.pages) (hg : Good s.gnttab s.others)
    (hok : initRings s = .ok s') : Connected min max s s' := by
  obtain ⟨rx, hrx, hrest⟩ := bind_ok hok
  obtain ⟨tx, htx, -⟩ := bind_ok hrest
  have hsem := (initRing_ok hrx).1
  have hsem' := (initRing_ok htx).1
  rcases initRings_spec h hg (by omega) with ⟨msg, -, hno⟩ | ⟨s'', heq, hconn⟩
  · rw [hno] at hok
    cases hok
  · rw [hok] at heq
    exact Except.ok.inj heq ▸ hconn

theorem terminate_spec (h : Inv min max s) (hr : s.rings = some r)
    (hu : ∀ ref ∈ r.refs, (s.gnttab.entry ref).mapped = false) :
    ∃ tx rx, frontendTerminateRing s.gnttab r.tx r.rxNextGrefs = .ok tx ∧
      frontendTerminateRing tx.1 r.rx r.appGrefs = .ok rx ∧ Good rx.1 s.others ∧
      rx.1.sem = s.gnttab.sem + 2 * (8 + netdomRingDataPages) := by
  have hgood := h.gnttab
  rw [State.held, hr, elim_some, Rings.refs, append_assoc] at hgood
  obtain ⟨hsize, hsize'⟩ := h.size r hr
  obtain ⟨tx, htx, hgood', hsem, hframe⟩ := terminateRing_spec hgood
    fun ref href => hu ref (mem_append_left _ href)
  have hu' : ∀ ref ∈ r.appGrefs.1 :: r.appGrefs.2 :: r.rx.refs, (tx.1.entry ref).mapped = false := by
    intro ref href
    -- the references of the two rings are different ones
    have hnot := disjoint_of_nodup_append hgood.nodup.of_append_right
    rw [hframe ref fun hin => hnot hin (mem_append_left _ href)]
    exact hu ref (mem_append_right _ href)
  obtain ⟨rx, hrx, hgood'', hsem', -⟩ := terminateRing_spec hgood' hu'
  exact ⟨tx, rx, htx, hrx, hgood'', by omega⟩

/-- An iteration: new rings are there, or there are no pages for them, or no server. -/
theorem reconnecter_spec (h : Inv min max s) (hr : s.rings = some r)
    (hu : ∀ ref ∈ r.refs, (s.gnttab.entry ref).mapped = false) (query : Option ℕ) :
    (∃ msg ∈ "HYP query fails" :: noPages,
      frontendReconnecter s r query = .error (.halts msg)) ∨
    ∃ s', frontendReconnecter s r query = .ok s' ∧ Inv min max s' ∧
      s'.gnttab.sem = s.gnttab.sem ∧
      (Pgalloc.freePages s'.pages.pg).card + 4100 = (Pgalloc.freePages s.pages.pg).card := by
  obtain ⟨tx, rx, htx, hrx, hgood, hsem⟩ := terminate_spec h hr hu
  cases query with
  | none =>
    refine .inl ⟨_, mem_cons_self, ?_⟩
    simp only [frontendReconnecter, htx, hrx, serviceQuery, bind, Except.bind]
  | some domid =>
    have heq : frontendReconnecter s r (some domid) =
        initRings { s with gnttab := rx.1, domid := domid } := by
      simp only [frontendReconnecter, htx, hrx, serviceQuery, bind, Except.bind]
    rw [heq]
    rcases initRings_spec (s := { s with gnttab := rx.1, domid := domid }) h.pages hgood
      (by dsimp only; omega) with ⟨msg, hmsg, hno⟩ | ⟨s', hok, hconn⟩
    · exact .inl ⟨msg, mem_cons_of_mem _ hmsg, hno⟩
    · have hrefs : s'.gnttab.sem + 2 * (8 + netdomRingDataPages) = rx.1.sem := hconn.refs
      exact .inr ⟨s', hok, hconn.inv, by omega, hconn.cost⟩

theorem toOption_some {ε β : Type} {x : Except ε β} {b : β} (h : x.toOption = some b) : x = .ok b := by
  cases x with
  | error e => cases h
  | ok c => exact congrArg Except.ok (some.inj h)

theorem Inv.grant {frame : ℕ} {readonly : Bool} (h : Inv min max s)
    (hs : step s (.grant domid frame readonly) = some s') : Inv min max s' := by
  obtain ⟨⟨g, ref⟩, hopt, rfl⟩ := map_eq_some_iff.mp hs
  have hok := toOption_some hopt
  have hsem := (grantAccess_ok hok).1
  obtain ⟨g', ref', heq, hgood, -⟩ := h.gnttab.grantAccess (by omega) domid frame readonly
  rw [hok] at heq
  obtain ⟨rfl, rfl⟩ := Prod.mk.inj (Except.ok.inj heq)
  exact ⟨h.pages, hgood.perm perm_middle.symm, h.size⟩

theorem Inv.endGrant {ref : ℕ} (h : Inv min max s) (hs : step s (.endGrant ref) = some s') :
    Inv min max s' := by
  obtain ⟨hin, hs⟩ := ite_none_right_eq_some.mp hs
  obtain ⟨⟨g, ret⟩, hopt, rfl⟩ := map_eq_some_iff.mp hs
  have hok := toOption_some hopt
  have hgood : Good s.gnttab (ref :: (s.rings.elim [] Rings.refs ++ s.others.erase ref)) :=
    h.gnttab.perm (((perm_cons_erase hin).append_left _).trans perm_middle)
  cases hm : (s.gnttab.entry ref).mapped with
  | true =>
    rw [gnttabEndAccess, if_pos (hgood.range ref (by simp)), if_pos hm] at hok
    obtain ⟨rfl, rfl⟩ := Prod.mk.inj (Except.ok.inj hok)
    exact { h with }
  | false =>
    obtain ⟨g', heq, hgood', -, -⟩ := hgood.endAccess hm
    rw [hok] at heq
    obtain ⟨rfl, rfl⟩ := Prod.mk.inj (Except.ok.inj heq)
    exact ⟨h.pages, hgood', h.size⟩

theorem Inv.step (h : Inv min max s) (hok : unmapped s a) (hs : step s a = some s') :
    Inv min max s' := by
  cases a with
  | frontendInit query =>
    rw [Reconnect.step] at hs
    cases hr : s.rings with
    | some r => simp [hr] at hs
    | none =>
      rw [hr] at hs
      obtain ⟨domid, -, hinit⟩ := bind_ok (toOption_some hs)
      have hgood := h.gnttab
      rw [State.held, hr] at hgood
      exact (initRings_ok (s := { s with domid := domid }) h.pages hgood hinit).inv
  | reconnect query =>
    obtain ⟨r, hr, hs⟩ := bind_eq_some_iff.mp hs
    have heq := toOption_some hs
    rcases reconnecter_spec h hr (hok r hr) query with ⟨msg, -, hno⟩ | ⟨s'', hs'', hinv, -, -⟩
    · rw [hno] at heq
      cases heq
    · rw [hs''] at heq
      exact Except.ok.inj heq ▸ hinv
  | pages a =>
    obtain ⟨pages, hp, rfl⟩ := map_eq_some_iff.mp hs
    exact ⟨Pgalloc.sysInv_step h.pages hp, h.gnttab, h.size⟩
  | grant domid frame readonly => exact h.grant hs
  | endGrant ref => exact h.endGrant hs
  | map ref writing =>
    obtain ⟨-, hs⟩ := ite_none_right_eq_some.mp hs
    cases hs
    exact ⟨h.pages, h.gnttab.entry _, h.size⟩
  | unmap ref =>
    cases hs
    exact ⟨h.pages, h.gnttab.entry _, h.size⟩

theorem reach_inv (he : Pgalloc.Enough min max) (h : Reach step unmapped (Init min max) s) :
    Inv min max s :=
  h.inv (fun _ h0 => h0.inv he) fun _ _ _ hi hok hs => hi.step hok hs

/-- **A reconnection loses pages.**  After any number of reconnections, and whatever the rest of the
domain and the backend do between them, as long as no grant of the old rings is mapped when they are
terminated: an iteration comes to new rings, or halts because there are no pages for them or no
server.  When there are new rings there are as many free references as before, all of them
different, and none has been released twice; and there are 4100 free pages less. -/
theorem reconnect_loses_pages (he : Pgalloc.Enough min max)
    (h : Reach step unmapped (Init min max) s) (hr : s.rings = some r)
    (hu : unmapped s (.reconnect query)) :
    (∀ e, frontendReconnecter s r query = .error e →
      ∃ msg ∈ "HYP query fails" :: noPages, e = .halts msg) ∧
    ∀ s', frontendReconnecter s r query = .ok s' →
      s'.gnttab.freeRefs.length = s.gnttab.freeRefs.length ∧ s'.gnttab.freeRefs.Nodup ∧
      s'.gnttab.twice = false ∧
      (Pgalloc.freePages s'.pages.pg).card + 4100 = (Pgalloc.freePages s.pages.pg).card := by
  rcases reconnecter_spec (reach_inv he h) hr (hu r hr) query with
    ⟨msg, hmsg, hno⟩ | ⟨s'', hs'', hinv, hsem, hcost⟩
  · rw [hno]
    exact ⟨fun e heq => ⟨msg, hmsg, (Except.error.inj heq).symm⟩, nofun⟩
  · rw [hs'']
    refine ⟨nofun, fun s' heq => ?_⟩
    obtain rfl := Except.ok.inj heq
    refine ⟨?_, hinv.gnttab.nodup.of_append_left, hinv.gnttab.twice, hcost⟩
    rw [Table.freeRefs, Table.freeRefs, FreeChain.length_chain, FreeChain.length_chain, hsem]

end

/-! ## A run -/

/-- The blocks for a ring are taken. -/
def ringBlocks (pages : Pgalloc.State) : Option Pgalloc.State :=
  ((pgalloc pages 1 "grefs shared page not allocated\n").bind fun grefs =>
    (pgalloc grefs.1 11 "shared pages are not allocated\n").map Prod.fst).toOption

section
variable {s : State} {pages pages' : Pgalloc.State} {min max : ℕ}

theorem ringBlocks_some (h : ringBlocks pages = some pages') : ∃ pages₁ p q,
    pgalloc pages 1 "grefs shared page not allocated\n" = .ok (pages₁, p) ∧
      pgalloc pages₁ 11 "shared pages are not allocated\n" = .ok (pages', q) := by
  obtain ⟨⟨pages₁, p⟩, hp, h⟩ := bind_ok (toOption_some h)
  obtain ⟨⟨pages₂, q⟩, hq, rfl⟩ := map_ok h
  exact ⟨pages₁, p, q, hp, hq⟩

theorem initRings_made {pages₁ pages₂ : Pgalloc.State} (hb : ringBlocks s.pages = some pages₁)
    (hb' : ringBlocks pages₁ = some pages₂) (hg : Good s.gnttab s.others)
    (hsem : 2 * (8 + netdomRingDataPages) ≤ s.gnttab.sem) :
    ∃ s' r, initRings s = .ok s' ∧ s'.pages = pages₂ ∧ s'.rings = some r ∧
      ((∀ x, (s.gnttab.entry x).mapped = false) → ∀ x, (s'.gnttab.entry x).mapped = false) := by
  obtain ⟨a₁, p₁, q₁, hp₁, hq₁⟩ := ringBlocks_some hb
  obtain ⟨rx, hrx, hpages, hgood, -⟩ := initRing_made hp₁ hq₁ hg (by omega) s.domid
  obtain ⟨hsem₁, hkeep₁⟩ := initRing_ok hrx
  rw [← hpages] at hb'
  obtain ⟨a₂, p₂, q₂, hp₂, hq₂⟩ := ringBlocks_some hb'
  obtain ⟨tx, htx, hpages', -, -⟩ := initRing_made hp₂ hq₂ hgood (by omega) s.domid
  obtain ⟨-, hkeep₂⟩ := initRing_ok htx
  refine ⟨s.connect rx tx, _, ?_, hpages', rfl, fun h x => hkeep₂ x (hkeep₁ x (h x))⟩
  simp only [initRings, hrx, htx, bind, Except.bind, pure, Except.pure]

end

theorem exists_blocks : ∃ p₀ p₁ p₂ p₃ p₄, Pgalloc.Init 0 0x4000000 p₀ ∧ ringBlocks p₀ = some p₁ ∧
    ringBlocks p₁ = some p₂ ∧ ringBlocks p₂ = some p₃ ∧ ringBlocks p₃ = some p₄ := by
  have hfour : ((Pgalloc.bmkPgallocLoadmem (fun _ => ⟨0, 0⟩) (fun _ => 0) 0 0x4000000).bind fun pg =>
      (ringBlocks ⟨pg, ∅⟩).bind fun p₁ => (ringBlocks p₁).bind fun p₂ =>
        (ringBlocks p₂).bind ringBlocks).isSome := by
    decide +kernel
  obtain ⟨p₄, h⟩ := isSome_iff_exists.mp hfour
  obtain ⟨pg, hload, h⟩ := bind_eq_some_iff.mp h
  obtain ⟨p₁, h₁, h⟩ := bind_eq_some_iff.mp h
  obtain ⟨p₂, h₂, h⟩ := bind_eq_some_iff.mp h
  obtain ⟨p₃, h₃, h₄⟩ := bind_eq_some_iff.mp h
  exact ⟨⟨pg, ∅⟩, p₁, p₂, p₃, p₄, ⟨⟨_, _, hload⟩, rfl⟩, h₁, h₂, h₃, h₄⟩

theorem enough_64 : Pgalloc.Enough 0 0x4000000 := ⟨by decide, by decide, by decide⟩

/-- The frontend is started, and then reconnects. -/
theorem exists_reconnect : ∃ s r s', Reach step unmapped (Init 0 0x4000000) s ∧
    s.rings = some r ∧ unmapped s (.reconnect (some 0)) ∧
    frontendReconnecter s r (some 0) = .ok s' := by
  obtain ⟨p₀, p₁, p₂, p₃, p₄, hinit, h₁, h₂, h₃, h₄⟩ := exists_blocks
  obtain ⟨g, hg⟩ : ∃ g, g = initGnttab fun _ => ⟨false, false, false, false, 0, 0⟩ := ⟨_, rfl⟩
  obtain ⟨hgood, hsem, hentry⟩ := initGnttab_good fun _ => ⟨false, false, false, false, 0, 0⟩
  rw [← hg] at hgood hsem hentry
  have hrefs : 2 * (8 + netdomRingDataPages) ≤ nrGrantEntries - nrReservedEntries := by decide
  -- the first two rings
  have hinit₀ : Init 0 0x4000000 ⟨p₀, g, 0, none, []⟩ := ⟨hinit, ⟨_, hg⟩, rfl, rfl⟩
  obtain ⟨s₁, r, hs₁, hpages₁, hr, hkeep⟩ :=
    initRings_made (s := ⟨p₀, g, 0, none, []⟩) h₁ h₂ hgood (hrefs.trans hsem.ge)
  have hstep : step ⟨p₀, g, 0, none, []⟩ (.frontendInit (some 0)) = some s₁ :=
    congrArg Except.toOption hs₁
  have hreach : Reach step unmapped (Init 0 0x4000000) s₁ :=
    .next (a := .frontendInit (some 0)) (.start hinit₀) trivial hstep
  have hmapped : ∀ x, (s₁.gnttab.entry x).mapped = false := by
    refine hkeep fun x => ?_
    rw [hentry]
    rfl
  -- they are terminated, and there are references and blocks for the next two
  obtain ⟨tx, rx, htx, hrx, hgood', hsem'⟩ := terminate_spec (reach_inv enough_64 hreach) hr
    fun ref _ => hmapped ref
  rw [← hpages₁] at h₃
  obtain ⟨s₂, -, hs₂, -, -, -⟩ :=
    initRings_made (s := { s₁ with gnttab := rx.1, domid := 0 }) h₃ h₄ hgood' (by dsimp only; omega)
  refine ⟨s₁, r, s₂, hreach, hr, fun _ _ ref _ => hmapped ref, ?_⟩
  simp only [frontendReconnecter, htx, hrx, serviceQuery, bind, Except.bind]
  exact hs₂

/-- The references are all there again, the pages are not. -/
theorem reconnect_loses_pages_once : ∃ s s', Reach step unmapped (Init 0 0x4000000) s ∧
    step s (.reconnect (some 0)) = some s' ∧
    s'.gnttab.freeRefs.length = s.gnttab.freeRefs.length ∧ s'.gnttab.twice = false ∧
    (Pgalloc.freePages s'.pages.pg).card + 4100 = (Pgalloc.freePages s.pages.pg).card := by
  obtain ⟨s, r, s', hreach, hr, hu, hok⟩ := exists_reconnect
  obtain ⟨hlen, -, htwice, hcost⟩ := (reconnect_loses_pages enough_64 hreach hr hu).2 s' hok
  refine ⟨s, s', hreach, ?_, hlen, htwice, hcost⟩
  rw [step, hr, bind_some, hok]
  rfl

/-- **Pages are leaked.**  A domain with 64 MiB reconnects once, and has fewer free pages than
before. -/
theorem pages_leak : ∃ s s', Reach step unmapped (Init 0 0x4000000) s ∧
    unmapped s (.reconnect (some 0)) ∧ step s (.reconnect (some 0)) = some s' ∧
    (Pgalloc.freePages s'.pages.pg).card ≠ (Pgalloc.freePages s.pages.pg).card := by
  obtain ⟨s, r, s', hreach, hr, hu, hok⟩ := exists_reconnect
  refine ⟨s, s', hreach, hu, ?_, ?_⟩
  · rw [step, hr, bind_some, hok]
    rfl
  · rcases reconnecter_spec (reach_inv enough_64 hreach) hr (hu r hr) (some 0) with
      ⟨msg, -, hno⟩ | ⟨s'', hs'', -, -, hcost⟩
    · rw [hno] at hok
      cases hok
    · rw [hs''] at hok
      obtain rfl := Except.ok.inj hok
      omega

end Librettos.Reconnect
