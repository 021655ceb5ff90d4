/-
# `Xen.Gntmap` — pages of other domains

`gntmap.c`.  A `gntmap` is a table of the addresses at which pages of other domains are mapped, with
the handles that the hypervisor gave for them.  `gntmap_map_grant_refs` takes a block of pages for
the whole request and maps the references one by one.  For each it reserves the first free entry
with a marker, and either enters the address or releases the entry again.  Where that fails it undoes
what it has done so far: it looks up the addresses one by one, and gives the block back.

So a search for an address has to find the entry that was made for it.  It does as an address in the
table is on a page that is not free (`Inv.backed`), and the block was free before the call: no entry
from before holds one of its addresses.

`mapped` is a ghost, what the hypervisor has mapped; to unmap that succeeds.  The answers of the
hypervisor are arbitrary otherwise (`Hyp`).  The table is also used by other threads: a call that is
under way somewhere else is a sequence of its pieces (`Act.reserve`, `Act.settle`).
-/
import Librettos.Xen.Reconnect

namespace Librettos.Gntmap

open List Option Pgalloc Trans
open Function (update update_comm update_eq_self update_idem update_of_ne update_self)
open Pgalloc (pageSize)
open Reconnect (gntmapMap2order)

/-- `struct gntmap_entry` -/
structure Entry where
  hostAddr : ℕ
  handle : ℕ
deriving DecidableEq, Repr

/-- `DEFAULT_MAX_GRANTS` -/
def defaultMaxGrants : ℕ := 4096

/-- `(unsigned long) -1L`, in an entry that is reserved -/
def marker : ℕ := 2 ^ 64 - 1

/-- `struct gnttab_map_grant_ref`, what goes in; of the flags `GNTMAP_host_map` is always set -/
structure MapOp where
  ref : ℕ
  dom : ℕ
  hostAddr : ℕ
  readonly : Bool
deriving DecidableEq, Repr

/-- `struct gnttab_unmap_grant_ref`, what goes in -/
structure UnmapOp where
  hostAddr : ℕ
  devBusAddr : ℕ
  handle : ℕ
deriving DecidableEq, Repr

/-- The result of a hypercall and the status of its operation, where 0 is `GNTST_okay`. -/
structure Answer where
  rc : ℤ
  status : ℤ
deriving DecidableEq, Repr

def Answer.failed (a : Answer) : Bool := a.rc != 0 || a.status != 0

def Answer.code (a : Answer) : ℤ := if a.rc ≠ 0 then a.rc else a.status

/-- The hypervisor: the answer for page `i` of a request, with the handle, and the answer to the unmap
of what is not mapped. -/
structure Hyp where
  map : ℕ → MapOp → Answer × ℕ
  unmap : UnmapOp → Answer

structure State where
  nentries : ℕ
  entries : ℕ → Entry
  /-- addresses and handles that are mapped -/
  mapped : Finset (ℕ × ℕ)
  pages : Pgalloc.State

def State.host (s : State) (j : ℕ) : ℕ := (s.entries j).hostAddr

/-- Entry `j` is written, and the hypervisor has changed its mappings. -/
def State.write (s : State) (j : ℕ) (e : Entry) (mapped : Finset (ℕ × ℕ)) : State :=
  { s with entries := update s.entries j e, mapped := mapped }

def State.setHost (s : State) (j a : ℕ) : State := s.write j ⟨a, (s.entries j).handle⟩ s.mapped

def gntmapFindFreeEntry (s : State) : Option (ℕ × State) :=
  ((List.range s.nentries).find? fun j => s.host j == 0).map fun j => (j, s.setHost j marker)

def gntmapFindEntry (s : State) (addr : ℕ) : Option ℕ :=
  (List.range s.nentries).find? fun j => s.host j == addr

def gntmapMapGrantRef (hyp : MapOp → Answer × ℕ) (s : State) (j hostAddr domid ref : ℕ)
    (writable : Bool) : ℤ × State :=
  let r := hyp ⟨ref, domid % 2 ^ 16, hostAddr, !writable⟩
  if r.1.failed then (r.1.code, s.setHost j 0)
  else (0, s.write j ⟨hostAddr, r.2⟩ (insert (hostAddr, r.2) s.mapped))

/-- `GNTTABOP_unmap_grant_ref` -/
def unmapOp (hyp : UnmapOp → Answer) (mapped : Finset (ℕ × ℕ)) (op : UnmapOp) :
    Answer × Finset (ℕ × ℕ) :=
  if (op.hostAddr, op.handle) ∈ mapped then (⟨0, 0⟩, mapped.erase (op.hostAddr, op.handle))
  else (hyp op, mapped)

def gntmapUnmapGrantRef (hyp : UnmapOp → Answer) (s : State) (j : ℕ) : ℤ × State :=
  let r := unmapOp hyp s.mapped ⟨s.host j, 0, (s.entries j).handle⟩
  if r.1.failed then (r.1.code, { s with mapped := r.2 })
  else (0, s.write j ⟨0, (s.entries j).handle⟩ r.2)

/-- `BMK_EINVAL` -/
def einval : ℤ := 22

/-- The loop of `_gntmap_munmap` from page `i` on, with `n` pages left. -/
def munmapFrom (hyp : UnmapOp → Answer) (startAddress : ℕ) : ℕ → ℕ → State → ℤ × State
  | 0, _, s => (0, s)
  | n + 1, i, s =>
    match gntmapFindEntry s ((startAddress + pageSize * i) % 2 ^ 64) with
    | none => (-einval, s)
    | some j =>
      let r := gntmapUnmapGrantRef hyp s j
      if r.1 ≠ 0 then r else munmapFrom hyp startAddress n (i + 1) r.2

/-- `gntmap_munmap`, which keeps the pages -/
def gntmapMunmap (hyp : UnmapOp → Answer) (s : State) (startAddress : ℕ) (count : ℤ) : ℤ × State :=
  munmapFrom hyp startAddress count.toNat 0 s

/-- The arguments of `gntmap_map_grant_refs`. -/
structure Request where
  count : ℕ
  domids : ℤ → ℕ
  domidsStride : ℤ
  refs : ℕ → ℕ
  writable : Bool

/-- Page `i` cannot be mapped. -/
def undo (hyp : Hyp) (req : Request) (addr i : ℕ) (s : State) : Option (Option ℕ × State) :=
  let s' := (munmapFrom hyp.unmap addr i 0 s).2
  (Pgalloc.bmkPgfree s'.pages.pg addr (gntmapMap2order req.count)).map fun pg =>
    (none, { s' with pages := ⟨pg, s'.pages.live.erase (addr, gntmapMap2order req.count)⟩ })

/-- The loop of `gntmap_map_grant_refs` from page `i` on, with `n` pages left. -/
def mapFrom (hyp : Hyp) (req : Request) (addr : ℕ) : ℕ → ℕ → State → Option (Option ℕ × State)
  | 0, _, s => some (some addr, s)
  | n + 1, i, s =>
    match gntmapFindFreeEntry s with
    | none => undo hyp req addr i s
    | some (j, s') =>
      let r := gntmapMapGrantRef (hyp.map i) s' j ((addr + pageSize * i) % 2 ^ 64)
        (req.domids (i * req.domidsStride)) (req.refs i) req.writable
      if r.1 ≠ 0 then undo hyp req addr i r.2 else mapFrom hyp req addr n (i + 1) r.2

/-- `gntmap_map_grant_refs`, with the address or `none` for `NULL`; without a result where the page
allocator would stop. -/
def gntmapMapGrantRefs (hyp : Hyp) (req : Request) (s : State) : Option (Option ℕ × State) :=
  match Pgalloc.bmkPgallocAlign s.pages.pg (gntmapMap2order req.count) pageSize with
  | none => none
  | some (none, pg) => some (none, { s with pages := { s.pages with pg := pg } })
  | some (some addr, pg) =>
    mapFrom hyp req addr req.count 0
      { s with pages := ⟨pg, insert (addr, gntmapMap2order req.count) s.pages.live⟩ }

def gntmapInit (s : State) : State :=
  { s with nentries := defaultMaxGrants, entries := fun _ => ⟨0, 0⟩ }

def gntmapFini (hyp : UnmapOp → Answer) (s : State) : State :=
  let s' := (List.range s.nentries).foldl
    (fun s j => if s.host j ≠ 0 then (gntmapUnmapGrantRef hyp s j).2 else s) s
  { s' with nentries := 0, entries := fun _ => ⟨0, 0⟩ }

/-! ## The system -/

inductive Act
  | map (hyp : Hyp) (req : Request)
  | munmap (hyp : UnmapOp → Answer) (startAddress : ℕ) (count : ℤ)
  | init
  | fini (hyp : UnmapOp → Answer)
  /-- a call of another thread has reserved an entry -/
  | reserve
  /-- and goes on with it -/
  | settle (hyp : MapOp → Answer × ℕ) (j hostAddr domid ref : ℕ) (writable : Bool)
  /-- other users of the pages -/
  | page (a : Pgalloc.Act)
  /-- other users of the hypervisor -/
  | remap (mapped : Finset (ℕ × ℕ))

def step (s : State) : Act → Option State
  | .map hyp req => (gntmapMapGrantRefs hyp req s).map Prod.snd
  | .munmap hyp startAddress count => some (gntmapMunmap hyp s startAddress count).2
  | .init => some (gntmapInit s)
  | .fini hyp => some (gntmapFini hyp s)
  | .reserve => (gntmapFindFreeEntry s).map Prod.snd
  | .settle hyp j hostAddr domid ref writable =>
    some (gntmapMapGrantRef hyp s j hostAddr domid ref writable).2
  | .page a => (Pgalloc.step s.pages a).map fun pages => { s with pages := pages }
  | .remap mapped => some { s with mapped := mapped }

/-- Entry `j` holds an address. -/
structure Holds (s : State) (j a : ℕ) : Prop where
  lt : j < s.nentries
  host : s.host j = a
  used : a ≠ 0
  entered : a ≠ marker

/-- The memory that is not free. -/
def taken (pg : Pgalloc.Pg) : Set ℕ := Pgalloc.managed pg \ Pgalloc.free pg

/-- A request has at least one page, and a page is not given back as long as it is mapped. -/
def Allowed (s : State) : Act → Prop
  | .map _ req => 1 ≤ req.count ∧ req.count < 2 ^ 32
  | .munmap _ _ _ | .init | .fini _ | .reserve => True
  -- the address is in a block of that thread's own
  | .settle _ j hostAddr _ _ _ => s.host j = marker ∧ pageSize ∣ hostAddr ∧
      hostAddr ∈ taken s.pages.pg ∧ ∀ i, ¬Holds s i hostAddr
  | .page (.free addr order) => ∀ j a, Holds s j a → a ∉ (Pgalloc.blk order addr).set
  | .page _ => True
  | .remap mapped => ∀ j a, Holds s j a → (a, (s.entries j).handle) ∈ mapped

/-- `gntmap_init` has been called. -/
structure Init (min max : ℕ) (s : State) : Prop where
  nentries : s.nentries = defaultMaxGrants
  entries : ∀ j, s.entries j = ⟨0, 0⟩
  pages : Pgalloc.Init min max s.pages

/-- The used entries, with their addresses. -/
def used (s : State) : Set (ℕ × ℕ) := {x | x.1 < s.nentries ∧ s.host x.1 = x.2 ∧ x.2 ≠ 0}

/-! ## The invariant -/

structure Inv (min max : ℕ) (s : State) : Prop where
  pages : Pgalloc.SysInv min max s.pages
  backed : ∀ j a, Holds s j a → pageSize ∣ a ∧ a ∈ taken s.pages.pg
  unique : ∀ i j a, Holds s i a → Holds s j a → i = j
  mapped : ∀ j a, Holds s j a → (a, (s.entries j).handle) ∈ s.mapped

section
variable {min max : ℕ} {s s' s₀ : State} {i j k a n addr order : ℕ} {e : Entry}
  {mapped : Finset (ℕ × ℕ)} {pages : Pgalloc.State} {hyp : Hyp} {req : Request}
variable {f : ℕ → ℕ} {js : List ℕ}

theorem entries_write_self : (s.write j e mapped).entries j = e := update_self _ _ _

theorem entries_write_of_ne (hne : i ≠ j) : (s.write j e mapped).entries i = s.entries i :=
  update_of_ne hne _ _

theorem host_write (s : State) (j : ℕ) (e : Entry) (mapped : Finset (ℕ × ℕ)) :
    (s.write j e mapped).host = update s.host j e.hostAddr := by
  funext i
  by_cases hi : i = j
  · rw [hi, State.host, entries_write_self, update_self]
  · rw [State.host, entries_write_of_ne hi, update_of_ne hi, State.host]

theorem Holds.congr (h : Holds s j a) (hn : s'.nentries = s.nentries) (hhost : s'.host j = s.host j) :
    Holds s' j a :=
  ⟨hn ▸ h.lt, hhost.trans h.host, h.used, h.entered⟩

theorem Holds.of_write (hne : i ≠ j) (h : Holds (s.write j e mapped) i a) : Holds s i a :=
  h.congr rfl (by rw [State.host, State.host, entries_write_of_ne hne])

theorem Holds.eq_of_write (h : Holds (s.write j e mapped) j a) : a = e.hostAddr := by
  rw [← h.host, State.host, entries_write_self]

theorem Inv.clear (h : Inv min max s) (he : e.hostAddr = 0 ∨ e.hostAddr = marker)
    (hmapped : ∀ i a, i ≠ j → Holds s i a → (a, (s.entries i).handle) ∈ mapped) :
    Inv min max (s.write j e mapped) := by
  -- what holds an address is another entry
  have hother : ∀ i a, Holds (s.write j e mapped) i a → i ≠ j := by
    rintro i a hi rfl
    exact he.elim (fun h0 => hi.used (hi.eq_of_write.trans h0))
      fun hm => hi.entered (hi.eq_of_write.trans hm)
  constructor
  case pages => exact h.pages
  case backed => exact fun i a hi => h.backed i a (hi.of_write (hother i a hi))
  case unique =>
    exact fun i i' a hi hi' =>
      h.unique i i' a (hi.of_write (hother i a hi)) (hi'.of_write (hother i' a hi'))
  case mapped =>
    intro i a hi
    have hne := hother i a hi
    rw [entries_write_of_ne hne]
    exact hmapped i a hne (hi.of_write hne)

theorem Inv.fill (h : Inv min max s) (j handle : ℕ) (hpage : pageSize ∣ addr)
    (htaken : addr ∈ taken s.pages.pg) (hfresh : ∀ i, ¬Holds s i addr) :
    Inv min max (s.write j ⟨addr, handle⟩ (insert (addr, handle) s.mapped)) where
  pages := h.pages
  backed := by
    intro i a hi
    by_cases hne : i = j
    · subst hne
      exact hi.eq_of_write ▸ ⟨hpage, htaken⟩
    · exact h.backed i a (hi.of_write hne)
  unique := by
    -- two entries with one address are both old, or both the new one
    intro i i' a hi hi'
    by_cases hne : i = j
    · by_cases hne' : i' = j
      · rw [hne, hne']
      · subst hne
        have ha : a = addr := hi.eq_of_write
        exact absurd (ha ▸ hi'.of_write hne') (hfresh i')
    · by_cases hne' : i' = j
      · subst hne'
        have ha : a = addr := hi'.eq_of_write
        exact absurd (ha ▸ hi.of_write hne) (hfresh i)
      · exact h.unique i i' a (hi.of_write hne) (hi'.of_write hne')
  mapped := by
    intro i a hi
    by_cases hne : i = j
    · subst hne
      rw [entries_write_self, hi.eq_of_write]
      exact Finset.mem_insert_self _ _
    · rw [entries_write_of_ne hne]
      exact Finset.mem_insert_of_mem (h.mapped i a (hi.of_write hne))

theorem Inv.withPages (h : Inv min max s) (hpages : Pgalloc.SysInv min max pages)
    (htaken : ∀ j a, Holds s j a → a ∈ taken pages.pg) : Inv min max { s with pages := pages } := by
  have hold : ∀ j a, Holds { s with pages := pages } j a → Holds s j a :=
    fun j a hj => hj.congr rfl rfl
  exact ⟨hpages, fun j a hj => ⟨(h.backed j a (hold j a hj)).1, htaken j a (hold j a hj)⟩,
    fun i j a hi hj => h.unique i j a (hold i a hi) (hold j a hj),
    fun j a hj => h.mapped j a (hold j a hj)⟩

/-! ## The pieces -/

theorem findEntry_some (h : gntmapFindEntry s a = some j) : j < s.nentries ∧ s.host j = a := by
  have hp := find?_some h
  exact ⟨mem_range.mp (mem_of_find?_eq_some h), beq_iff_eq.mp hp⟩

theorem findFreeEntry_some (h : gntmapFindFreeEntry s = some (j, s')) :
    j < s.nentries ∧ s.host j = 0 ∧ s' = s.setHost j marker := by
  obtain ⟨x, hx, heq⟩ := map_eq_some_iff.mp h
  obtain ⟨rfl, rfl⟩ := Prod.mk.inj heq
  obtain ⟨hlt, hhost⟩ := findEntry_some hx
  exact ⟨hlt, hhost, rfl⟩

section
variable (h : Inv min max s)
include h

theorem Inv.findEntry (hj : Holds s j a) : gntmapFindEntry s a = some j := by
  cases hf : gntmapFindEntry s a with
  | none =>
    have hno := find?_eq_none.mp hf j (mem_range.mpr hj.lt)
    exact absurd (beq_iff_eq.mpr hj.host) hno
  | some i =>
    obtain ⟨hlt, hhost⟩ := findEntry_some hf
    rw [h.unique i j a ⟨hlt, hhost, hj.used, hj.entered⟩ hj]

theorem Inv.mapped_erase (hj : j < s.nentries) {b : ℕ} (hne : i ≠ j)
    (hi : Holds s i a) : (a, (s.entries i).handle) ∈ s.mapped.erase (s.host j, b) := by
  refine Finset.mem_erase.mpr ⟨fun heq => hne ?_, h.mapped i a hi⟩
  have ha : a = s.host j := congrArg Prod.fst heq
  exact h.unique i j a hi ⟨hj, ha.symm, hi.used, hi.entered⟩

/-- The unmap of an address in the table succeeds. -/
theorem Inv.unmapGrantRef (hj : Holds s j a) (hyp : UnmapOp → Answer) :
    gntmapUnmapGrantRef hyp s j =
      (0, s.write j ⟨0, (s.entries j).handle⟩ (s.mapped.erase (s.host j, (s.entries j).handle))) := by
  have hop : unmapOp hyp s.mapped ⟨s.host j, 0, (s.entries j).handle⟩ =
      (⟨0, 0⟩, s.mapped.erase (s.host j, (s.entries j).handle)) :=
    if_pos (hj.host ▸ h.mapped j a hj)
  rw [gntmapUnmapGrantRef, hop]
  rfl

theorem Inv.unmap (hj : j < s.nentries) (hyp : UnmapOp → Answer) :
    Inv min max (gntmapUnmapGrantRef hyp s j).2 ∧
      (gntmapUnmapGrantRef hyp s j).2.nentries = s.nentries := by
  by_cases hm : (s.host j, (s.entries j).handle) ∈ s.mapped
  · have hop : unmapOp hyp s.mapped ⟨s.host j, 0, (s.entries j).handle⟩ =
        (⟨0, 0⟩, s.mapped.erase (s.host j, (s.entries j).handle)) := if_pos hm
    rw [gntmapUnmapGrantRef, hop]
    exact ⟨h.clear (.inl rfl) fun i a hne hi => h.mapped_erase hj hne hi, rfl⟩
  · have hop : unmapOp hyp s.mapped ⟨s.host j, 0, (s.entries j).handle⟩ =
        (hyp ⟨s.host j, 0, (s.entries j).handle⟩, s.mapped) := if_neg hm
    rw [gntmapUnmapGrantRef, hop]
    split
    · exact ⟨h, rfl⟩
    · exact ⟨h.clear (.inl rfl) fun i a _ hi => h.mapped i a hi, rfl⟩

end

theorem Inv.munmapFrom {hyp : UnmapOp → Answer} {startAddress : ℕ} : ∀ (n i : ℕ) {s : State},
    Inv min max s → Inv min max (munmapFrom hyp startAddress n i s).2
  | 0, _, _, h => h
  | n + 1, i, s, h => by
    rw [Gntmap.munmapFrom]
    split
    · exact h
    · next j hj =>
      obtain ⟨hinv, -⟩ := h.unmap (findEntry_some hj).1 hyp
      dsimp only
      split
      · exact hinv
      · exact hinv.munmapFrom n (i + 1)

theorem Inv.setHost (h : Inv min max s) (ha : a = 0 ∨ a = marker) : Inv min max (s.setHost j a) :=
  h.clear ha fun i a _ hi => h.mapped i a hi

theorem Inv.mapGrantRef {hyp : MapOp → Answer × ℕ} {domid ref : ℕ} {writable : Bool}
    (h : Inv min max s) (hpage : pageSize ∣ addr) (htaken : addr ∈ taken s.pages.pg)
    (hfresh : ∀ i, ¬Holds s i addr) :
    Inv min max (gntmapMapGrantRef hyp s j addr domid ref writable).2 := by
  rw [gntmapMapGrantRef]
  split
  · exact h.setHost (.inl rfl)
  · exact h.fill j _ hpage htaken hfresh

/-! ## The addresses of a request -/

/-- The addresses from page `k` on are in the entries `js`, on top of the addresses `f`. -/
def fill (f : ℕ → ℕ) (addr : ℕ) : ℕ → List ℕ → ℕ → ℕ
  | _, [] => f
  | k, j :: js => update (fill f addr (k + 1) js) j (addr + pageSize * k)

theorem fill_of_notin (h : j ∉ js) : fill f addr k js j = f j := by
  induction js generalizing k with
  | nil => rfl
  | cons x js ih =>
    rw [mem_cons, not_or] at h
    rw [fill, update_of_ne h.1, ih h.2]

theorem fill_append (h : j ∉ js) : fill f addr k (js ++ [j]) =
      update (fill f addr k js) j (addr + pageSize * (k + js.length)) := by
  induction js generalizing k with
  | nil => rfl
  | cons x js ih =>
    rw [mem_cons, not_or] at h
    rw [cons_append, fill, ih h.2, fill, update_comm h.1, length_cons,
      Nat.add_right_comm, Nat.add_assoc]

theorem fill_getElem (h : js.Nodup) {m : ℕ} (hm : m < js.length) :
    fill f addr k js js[m] = addr + pageSize * (k + m) := by
  induction js generalizing k m with
  | nil => exact absurd hm (Nat.not_lt_zero m)
  | cons x js ih =>
    rw [nodup_cons] at h
    cases m with
    | zero => exact update_self _ _ _
    | succ m =>
      have hm' : m < js.length := Nat.lt_of_succ_lt_succ hm
      have hne : js[m] ≠ x := fun heq => h.1 (heq ▸ getElem_mem hm')
      rw [getElem_cons_succ, fill, update_of_ne hne, ih h.2 hm', Nat.add_right_comm, Nat.add_assoc]

/-- From `s₀` on, the addresses from page `k` on have been entered. -/
structure Filled (s₀ s : State) (addr k : ℕ) (js : List ℕ) : Prop where
  nentries : s.nentries = s₀.nentries
  pages : s.pages = s₀.pages
  host : s.host = fill s₀.host addr k js
  nodup : js.Nodup
  free : ∀ j ∈ js, j < s₀.nentries ∧ s₀.host j = 0

/-- A block of which the pages are taken; no entry of `s₀` holds an address in it. -/
structure Block (s₀ : State) (addr order : ℕ) : Prop where
  page : pageSize ∣ addr
  pos : 0 < addr
  top : addr + 2 ^ order * pageSize < 2 ^ 64
  live : (addr, order) ∈ s₀.pages.live
  taken : (Pgalloc.blk order addr).set ⊆ taken s₀.pages.pg
  fresh : ∀ j a, Holds s₀ j a → a ∉ (Pgalloc.blk order addr).set

theorem Block.mem (hi : i < 2 ^ order) : addr + pageSize * i ∈ (blk order addr).set := by
  have hsize : 2 ^ (blk order addr).exp = 2 ^ order * pageSize := order2size_eq order
  refine ⟨Nat.le_add_right _ _, ?_⟩
  rw [hsize, Nat.mul_comm]
  exact Nat.add_lt_add_left (Nat.mul_lt_mul_of_pos_right hi (Nat.two_pow_pos _)) _

theorem Block.dvd (h : Block s₀ addr order) (i : ℕ) : pageSize ∣ addr + pageSize * i :=
  Nat.dvd_add h.page (Nat.dvd_mul_right _ _)

theorem Block.lt (h : Block s₀ addr order) (hi : i < 2 ^ order) : addr + pageSize * i < 2 ^ 64 := by
  have hle : pageSize * i ≤ 2 ^ order * pageSize := by
    rw [Nat.mul_comm]
    exact Nat.mul_le_mul_right _ hi.le
  exact lt_of_le_of_lt (Nat.add_le_add_left hle addr) h.top

theorem Block.holds (h : Block s₀ addr order) (hlt : j < s.nentries)
    (hhost : s.host j = addr + pageSize * i) : Holds s j (addr + pageSize * i) := by
  refine ⟨hlt, hhost, ?_, fun heq => ?_⟩
  · have := h.pos
    omega
  · have hdvd := h.dvd i
    rw [heq, marker, pageSize, pageShift] at hdvd
    omega

theorem Filled.munmapFrom (hyp : UnmapOp → Answer) (hb : Block s₀ addr order) :
    ∀ (js : List ℕ) (k : ℕ) {s : State}, Inv min max s → Filled s₀ s addr k js →
      k + js.length ≤ 2 ^ order → ∃ s', munmapFrom hyp addr js.length k s = (0, s') ∧
        Inv min max s' ∧ Filled s₀ s' addr (k + js.length) []
  | [], k, s, hinv, hf, _ => ⟨s, rfl, hinv, hf⟩
  | j :: js, k, s, hinv, hf, hle => by
    rw [length_cons] at hle
    obtain ⟨hlt, hzero⟩ := hf.free j mem_cons_self
    have hnodup := nodup_cons.mp hf.nodup
    have hhost : s.host j = addr + pageSize * k := by
      rw [hf.host]
      exact update_self _ _ _
    have hj : Holds s j (addr + pageSize * k) := hb.holds (hf.nentries ▸ hlt) hhost
    have hunmap := hinv.unmapGrantRef hj hyp
    have hinv' := (hinv.unmap hj.lt hyp).1
    rw [hunmap] at hinv'
    have hf' : Filled s₀ (s.write j ⟨0, (s.entries j).handle⟩
        (s.mapped.erase (s.host j, (s.entries j).handle))) addr (k + 1) js := by
      refine ⟨hf.nentries, hf.pages, ?_, hnodup.2, fun i hi => hf.free i (mem_cons_of_mem _ hi)⟩
      -- entry `j` is free again, as it was
      have hback : fill s₀.host addr (k + 1) js j = 0 := (fill_of_notin hnodup.1).trans hzero
      rw [host_write, hf.host, fill, update_idem, ← hback]
      exact update_eq_self j _
    obtain ⟨s', heq, hinv'', hf''⟩ :=
      Filled.munmapFrom hyp hb js (k + 1) hinv' hf' (by omega)
    refine ⟨s', ?_, hinv'', ?_⟩
    · rw [length_cons, Gntmap.munmapFrom, Nat.mod_eq_of_lt (hb.lt (by omega)),
        hinv.findEntry hj]
      dsimp only
      rw [hunmap]
      exact heq
    · rw [length_cons, ← Nat.add_assoc, Nat.add_right_comm]
      exact hf''

theorem pgfree_spec (h : Pgalloc.SysInv min max pages) (hm : (addr, order) ∈ pages.live) :
    ∃ pg, bmkPgfree pages.pg addr order = some pg ∧
      Pgalloc.SysInv min max ⟨pg, pages.live.erase (addr, order)⟩ ∧
      free pg = free pages.pg ∪ (blk order addr).set ∧
      pg.minpageAddr = pages.pg.minpageAddr ∧ pg.maxpageAddr = pages.pg.maxpageAddr := by
  obtain ⟨hdvd, hlo, hhi, hd⟩ := h.live_bounds hm
  obtain ⟨pg, hpg, -, hfree, hmin, hmax, -⟩ := bmkPgfree_inv h.inv hdvd hlo hhi hd
  obtain ⟨pg', hpg', hsys⟩ := sysInv_free h hm
  rw [hpg, some.injEq] at hpg'
  subst hpg'
  exact ⟨pg, hpg, hsys, hfree, hmin, hmax⟩

/-- A failed call leaves the entries as they were in `s₀`, and frees the block. -/
structure Undone (s₀ s : State) (addr order : ℕ) : Prop where
  nentries : s.nentries = s₀.nentries
  host : s.host = s₀.host
  free : Pgalloc.free s.pages.pg = Pgalloc.free s₀.pages.pg ∪ (Pgalloc.blk order addr).set
  minEq : s.pages.pg.minpageAddr = s₀.pages.pg.minpageAddr

theorem undo_spec (hyp : Hyp) (hb : Block s₀ addr (gntmapMap2order req.count))
    (hinv : Inv min max s) (hf : Filled s₀ s addr 0 js)
    (hle : js.length ≤ 2 ^ gntmapMap2order req.count) :
    ∃ s', undo hyp req addr js.length s = some (none, s') ∧ Inv min max s' ∧
      Undone s₀ s' addr (gntmapMap2order req.count) := by
  obtain ⟨s₁, heq, hinv₁, hf₁⟩ := Filled.munmapFrom hyp.unmap hb js 0 hinv hf (by omega)
  have hlive := hb.live
  rw [← hf₁.pages] at hlive
  obtain ⟨pg, hpg, hsys, hfree, hmin, hmax⟩ := pgfree_spec hinv₁.pages hlive
  refine ⟨{ s₁ with pages := ⟨pg, s₁.pages.live.erase (addr, gntmapMap2order req.count)⟩ }, ?_, ?_, ?_⟩
  · rw [undo, heq]
    rw [hpg]
    rfl
  · refine hinv₁.withPages hsys fun j a hj => ?_
    obtain ⟨hman, hnot⟩ := (hinv₁.backed j a hj).2
    have hold : Holds s₀ j a := hj.congr hf₁.nentries.symm (congrFun hf₁.host j).symm
    refine ⟨?_, ?_⟩
    · rw [managed, hmin, hmax]
      exact hman
    · rw [hfree]
      exact fun hin => hin.elim hnot (hb.fresh j a hold)
  · exact ⟨hf₁.nentries, hf₁.host, by rw [← hf₁.pages]; exact hfree, by rw [← hf₁.pages]; exact hmin⟩

theorem Filled.fresh (hb : Block s₀ addr order) (hf : Filled s₀ s addr 0 js)
    (hlt : js.length < 2 ^ order) (j : ℕ) : ¬Holds s j (addr + pageSize * js.length) := by
  intro hj
  have hpos : 0 < pageSize := Nat.two_pow_pos _
  have hhost := hj.host
  rw [hf.host] at hhost
  by_cases hin : j ∈ js
  · obtain ⟨m, hm, rfl⟩ := getElem_of_mem hin
    rw [fill_getElem hf.nodup hm, Nat.zero_add] at hhost
    have := Nat.eq_of_mul_eq_mul_left hpos (Nat.add_left_cancel hhost)
    omega
  · rw [fill_of_notin hin] at hhost
    exact hb.fresh j _ ⟨hf.nentries ▸ hj.lt, hhost, hj.used, hj.entered⟩ (Block.mem hlt)

theorem Filled.append {handle : ℕ} (hf : Filled s₀ s addr 0 js) (hlt : j < s.nentries)
    (hzero : s.host j = 0) (hpos : 0 < addr) :
    Filled s₀ (s.write j ⟨addr + pageSize * js.length, handle⟩ mapped) addr 0 (js ++ [j]) := by
  have hnot : j ∉ js := by
    intro hin
    obtain ⟨m, hm, rfl⟩ := getElem_of_mem hin
    rw [hf.host, fill_getElem hf.nodup hm] at hzero
    omega
  have hold : s₀.host j = 0 := by
    rw [hf.host, fill_of_notin hnot] at hzero
    exact hzero
  refine ⟨hf.nentries, hf.pages, ?_, ?_, fun i hi => ?_⟩
  · rw [host_write, hf.host, fill_append hnot, Nat.zero_add]
  · exact nodup_append.mpr ⟨hf.nodup, nodup_singleton j, fun a ha b hb heq =>
      hnot (mem_singleton.mp hb ▸ heq ▸ ha)⟩
  · rcases mem_append.mp hi with hi | hi
    · exact hf.free i hi
    · rw [mem_singleton.mp hi]
      exact ⟨hf.nentries ▸ hlt, hold⟩

theorem Answer.code_ne_zero {x : Answer} (h : x.failed = true) : x.code ≠ 0 := by
  rw [Answer.failed, Bool.or_eq_true, bne_iff_ne, bne_iff_ne] at h
  rw [Answer.code]
  split
  · next hrc => exact hrc
  · next hrc => exact h.resolve_left hrc

theorem write_setHost {b : ℕ} : (s.setHost j b).write j e mapped = s.write j e mapped := by
  rw [State.setHost, State.write, State.write, State.write, update_idem]

theorem setHost_setHost (hzero : s.host j = 0) : (s.setHost j marker).setHost j 0 = s := by
  have hentry : s.entries j = ⟨0, (s.entries j).handle⟩ := by rw [← hzero]; rfl
  rw [State.setHost, write_setHost, State.setHost, entries_write_self, State.write, ← hentry,
    update_eq_self]
  rfl

/-- After an entry has been reserved, the address is in it, or nothing has changed. -/
theorem mapGrantRef_reserved (op : MapOp → Answer × ℕ) (a domid ref : ℕ) (writable : Bool)
    (hzero : s.host j = 0) :
    (∃ code ≠ 0, gntmapMapGrantRef op (s.setHost j marker) j a domid ref writable = (code, s)) ∨
      ∃ handle, gntmapMapGrantRef op (s.setHost j marker) j a domid ref writable =
        (0, s.write j ⟨a, handle⟩ (insert (a, handle) s.mapped)) := by
  rw [gntmapMapGrantRef, setHost_setHost hzero, write_setHost]
  split
  · next hfail => exact .inl ⟨_, Answer.code_ne_zero hfail, rfl⟩
  · exact .inr ⟨_, rfl⟩

/-- **The loop.**  It ends with all the pages of the request mapped, or with none. -/
theorem mapFrom_spec (hyp : Hyp) (hb : Block s₀ addr (gntmapMap2order req.count))
    (hcount : req.count ≤ 2 ^ gntmapMap2order req.count) :
    ∀ (n : ℕ) (js : List ℕ) {s : State}, js.length + n = req.count → Inv min max s →
      Filled s₀ s addr 0 js → ∃ r s', mapFrom hyp req addr n js.length s = some (r, s') ∧
        Inv min max s' ∧ (r = none ∧ Undone s₀ s' addr (gntmapMap2order req.count) ∨
          r = some addr ∧ ∃ js', js'.length = req.count ∧ Filled s₀ s' addr 0 js')
  | 0, js, s, hlen, hinv, hf => ⟨some addr, s, rfl, hinv, .inr ⟨rfl, js, hlen, hf⟩⟩
  | n + 1, js, s, hlen, hinv, hf => by
    have hlt : js.length < 2 ^ gntmapMap2order req.count := by omega
    rw [mapFrom, Nat.mod_eq_of_lt (hb.lt hlt)]
    cases hfind : gntmapFindFreeEntry s with
    | none =>
      obtain ⟨s', heq, hinv', hu⟩ := undo_spec hyp hb hinv hf hlt.le
      exact ⟨none, s', heq, hinv', .inl ⟨rfl, hu⟩⟩
    | some r =>
      obtain ⟨j, s₁⟩ := r
      obtain ⟨hj, hzero, rfl⟩ := findFreeEntry_some hfind
      dsimp only
      rcases mapGrantRef_reserved (hyp.map js.length) (addr + pageSize * js.length)
        (req.domids (js.length * req.domidsStride)) (req.refs js.length) req.writable hzero with
        ⟨code, hcode, heq⟩ | ⟨handle, heq⟩
      · obtain ⟨s', heq', hinv', hu⟩ := undo_spec hyp hb hinv hf hlt.le
        rw [heq, if_pos hcode]
        exact ⟨none, s', heq', hinv', .inl ⟨rfl, hu⟩⟩
      · rw [heq, if_neg (not_not.mpr rfl)]
        have htaken : addr + pageSize * js.length ∈ taken s.pages.pg := by
          rw [hf.pages]
          exact hb.taken (Block.mem hlt)
        have hinv' := hinv.fill j handle (hb.dvd _) htaken (hf.fresh hb hlt)
        have hstep := mapFrom_spec hyp hb hcount n (js ++ [j]) (by simp; omega) hinv'
          (hf.append hj hzero hb.pos)
        rwa [length_append] at hstep

/-! ## The call -/

theorem map2order_spec (h1 : 1 ≤ n) (h32 : n < 2 ^ 32) :
    n ≤ 2 ^ gntmapMap2order n ∧ gntmapMap2order n < freelistLevels := by
  have hlog : Nat.log2 n < 32 := (Nat.log2_lt (by omega)).mpr h32
  have horder : 64 - clzl n = Nat.log2 n + 1 := by
    rw [clzl]
    omega
  rw [gntmapMap2order, horder, freelistLevels, pageShift]
  split
  · next hpow =>
    obtain ⟨m, rfl⟩ := (Nat.and_sub_one_eq_zero_iff_isPowerOfTwo (by omega)).mp hpow
    rw [Nat.log2_two_pow] at hlog ⊢
    exact ⟨le_rfl, by omega⟩
  · exact ⟨Nat.lt_log2_self.le, by omega⟩

/-- With a block, the call starts; none of the entries has an address in it. -/
theorem alloc_spec (h : Inv min max s) (ho : order < freelistLevels) :
    bmkPgallocAlign s.pages.pg order pageSize = some (none, s.pages.pg) ∨
      ∃ addr pg, bmkPgallocAlign s.pages.pg order pageSize = some (some addr, pg) ∧
        Inv min max { s with pages := ⟨pg, insert (addr, order) s.pages.live⟩ } ∧
        Block { s with pages := ⟨pg, insert (addr, order) s.pages.live⟩ } addr order ∧
        free pg ∪ (blk order addr).set = free s.pages.pg ∧
        pg.minpageAddr = s.pages.pg.minpageAddr := by
  rcases bmkPgallocAlign_cases h.pages.inv ho with hnone | ⟨bucket, addr, hle, hp, hsome⟩
  · exact .inl hnone
  · obtain ⟨hinv, hfree⟩ := takeChunk_inv h.pages.inv hle hp
    obtain ⟨hmin, hmax, -⟩ := takeChunk_frame (unlink s.pages.pg bucket addr) order bucket addr
    have hblk : (blk order addr).set ⊆ free s.pages.pg := h.pages.inv.block_free hle hp
    have hsys := sysInv_alloc h.pages hle hp
    obtain ⟨hdvd, hlo, hhi, -⟩ := hsys.live_bounds (Finset.mem_insert_self _ _)
    have hsub := hsys.live.subset (mem_liveBlks.mpr (Finset.mem_insert_self (addr, order) _))
    generalize takeChunk (unlink s.pages.pg bucket addr) order bucket addr = pg at *
    refine .inr ⟨addr, pg, hsome, ?_, ?_, ?_, hmin⟩
    · refine h.withPages hsys fun j a hj => ?_
      obtain ⟨hman, hnot⟩ := (h.backed j a hj).2
      refine ⟨?_, ?_⟩
      · rw [managed, hmin, hmax]
        exact hman
      · rw [hfree]
        exact fun hin => hnot hin.1
    · constructor
      case page => exact dvd_trans (order2size_dvd order) hdvd
      case pos => exact lt_of_lt_of_le hinv.minPos hlo
      case top =>
        rw [← order2size_eq]
        exact lt_of_le_of_lt hhi hinv.max64
      case live => exact Finset.mem_insert_self _ _
      case taken => exact hsub
      case fresh =>
        intro j a hj hin
        have hold : Holds s j a := hj.congr rfl rfl
        exact (h.backed j a hold).2.2 (hblk hin)
    · rw [hfree]
      exact Set.sdiff_union_of_subset hblk

theorem mapGrantRefs_spec (h : Inv min max s) (h1 : 1 ≤ req.count) (h32 : req.count < 2 ^ 32)
    (hyp : Hyp) :
    ∃ r s', gntmapMapGrantRefs hyp req s = some (r, s') ∧ Inv min max s' ∧
      (r = none ∧ s'.nentries = s.nentries ∧ s'.host = s.host ∧
          freePages s'.pages.pg = freePages s.pages.pg ∨
        ∃ addr js pages, r = some addr ∧ js.length = req.count ∧
          Block { s with pages := pages } addr (gntmapMap2order req.count) ∧
          Filled { s with pages := pages } s' addr 0 js) := by
  obtain ⟨hcount, horder⟩ := map2order_spec h1 h32
  rcases alloc_spec h horder with hnone | ⟨addr, pg, hsome, hinv, hb, hfree, hmin⟩
  · refine ⟨none, s, ?_, h, .inl ⟨rfl, rfl, rfl, rfl⟩⟩
    rw [gntmapMapGrantRefs, hnone]
  · obtain ⟨r, s', heq, hinv', hend⟩ := mapFrom_spec hyp hb hcount req.count [] (Nat.zero_add _)
      hinv ⟨rfl, rfl, rfl, nodup_nil, fun j hj => absurd hj not_mem_nil⟩
    refine ⟨r, s', ?_, hinv', ?_⟩
    · rw [gntmapMapGrantRefs, hsome]
      exact heq
    · rcases hend with ⟨hr, hu⟩ | ⟨hr, js, hlen, hf⟩
      · refine .inl ⟨hr, hu.nentries, hu.host, ?_⟩
        ext i
        rw [mem_freePages hinv'.pages.inv, mem_freePages h.pages.inv, hu.free, hfree,
          hu.minEq, hmin]
      · exact .inr ⟨addr, js, _, hr, hlen, hb, hf⟩

/-! ## Runs -/

theorem Inv.empty (hpages : Pgalloc.SysInv min max s.pages) (hentries : ∀ j, s.entries j = ⟨0, 0⟩) :
    Inv min max s := by
  have hno : ∀ j a, ¬Holds s j a := fun j a hj =>
    hj.used (hj.host.symm.trans (congrArg Entry.hostAddr (hentries j)))
  exact ⟨hpages, fun j a hj => absurd hj (hno j a), fun i _ a hi => absurd hi (hno i a),
    fun j a hj => absurd hj (hno j a)⟩

theorem Inv.fini (h : Inv min max s) (hyp : UnmapOp → Answer) : Inv min max (gntmapFini hyp s) := by
  have hfold : ∀ (js : List ℕ) {s : State}, (∀ j ∈ js, j < s.nentries) → Inv min max s →
      Inv min max (js.foldl
        (fun s j => if s.host j ≠ 0 then (gntmapUnmapGrantRef hyp s j).2 else s) s) := by
    intro js
    induction js with
    | nil => exact fun _ h => h
    | cons j js ih =>
      intro s hlt h
      rw [foldl_cons]
      split
      · obtain ⟨hinv, hn⟩ := h.unmap (hlt j mem_cons_self) hyp
        exact ih (fun i hi => hn ▸ hlt i (mem_cons_of_mem _ hi)) hinv
      · exact ih (fun i hi => hlt i (mem_cons_of_mem _ hi)) h
  have hinv := hfold (range s.nentries) (fun j hj => mem_range.mp hj) h
  exact Inv.empty hinv.pages fun _ => rfl

theorem mem_taken (h : Pgalloc.SysInv min max pages) :
    a ∈ taken pages.pg ↔ ∃ p o, (p, o) ∈ pages.live ∧ a ∈ (blk o p).set := by
  constructor
  · intro ha
    obtain ⟨b, ⟨o, hexp, hlive⟩, hab⟩ := (h.live.cover a).mp ha
    have hb : b = blk o b.addr := Dyadic.Blk.ext hexp rfl
    exact ⟨b.addr, o, hlive, hb ▸ hab⟩
  · rintro ⟨p, o, hlive, ha⟩
    exact h.live.subset (mem_liveBlks.mpr hlive) ha

theorem live_step {pages' : Pgalloc.State} {act : Pgalloc.Act} {p o : ℕ}
    (h : Pgalloc.step pages act = some pages') (hlive : (p, o) ∈ pages.live) :
    (p, o) ∈ pages'.live ∨ act = .free p o := by
  cases act with
  | alloc order align =>
    obtain ⟨⟨q, pg⟩, -, rfl⟩ := map_eq_some_iff.mp h
    cases q with
    | none => exact .inl hlive
    | some q => exact .inl (Finset.mem_insert_of_mem hlive)
  | free addr order =>
    simp only [Pgalloc.step, ite_none_right_eq_some] at h
    obtain ⟨-, h⟩ := h
    obtain ⟨pg, -, rfl⟩ := map_eq_some_iff.mp h
    by_cases heq : (p, o) = (addr, order)
    · obtain ⟨rfl, rfl⟩ := Prod.mk.inj heq
      exact .inr rfl
    · exact .inl (Finset.mem_erase.mpr ⟨heq, hlive⟩)
  | write addr order at_ hdr =>
    simp only [Pgalloc.step, ite_none_right_eq_some, some.injEq] at h
    obtain ⟨-, rfl⟩ := h
    exact .inl hlive

theorem Inv.page {act : Pgalloc.Act} (h : Inv min max s) (ha : Allowed s (.page act))
    (hstep : Pgalloc.step s.pages act = some pages) : Inv min max { s with pages := pages } := by
  have hsys := Pgalloc.sysInv_step h.pages hstep
  refine h.withPages hsys fun j a hj => ?_
  obtain ⟨p, o, hlive, hin⟩ := (mem_taken h.pages).mp (h.backed j a hj).2
  rcases live_step hstep hlive with hlive' | rfl
  · exact (mem_taken hsys).mpr ⟨p, o, hlive', hin⟩
  · exact absurd hin (ha j a hj)

theorem Inv.step {act : Act} (h : Inv min max s) (ha : Allowed s act)
    (hstep : step s act = some s') : Inv min max s' := by
  cases act with
  | map hyp req =>
    obtain ⟨r, hr, rfl⟩ := map_eq_some_iff.mp hstep
    obtain ⟨_, s₁, heq, hinv, -⟩ := mapGrantRefs_spec h ha.1 ha.2 hyp
    rw [hr, some.injEq] at heq
    exact heq ▸ hinv
  | munmap hyp startAddress count => exact some.inj hstep ▸ h.munmapFrom _ _
  | init => exact some.inj hstep ▸ Inv.empty h.pages fun _ => rfl
  | fini hyp => exact some.inj hstep ▸ h.fini hyp
  | reserve =>
    obtain ⟨⟨j, s₁⟩, hr, rfl⟩ := map_eq_some_iff.mp hstep
    exact (findFreeEntry_some hr).2.2 ▸ h.setHost (.inr rfl)
  | settle hyp j hostAddr domid ref writable =>
    obtain ⟨-, hpage, htaken, hfresh⟩ := ha
    exact some.inj hstep ▸ h.mapGrantRef hpage htaken hfresh
  | page act =>
    obtain ⟨pages, hr, rfl⟩ := map_eq_some_iff.mp hstep
    exact h.page ha hr
  | remap mapped =>
    have hinv : Inv min max { s with mapped := mapped } := by
      have hold : ∀ j a, Holds { s with mapped := mapped } j a → Holds s j a :=
        fun j a hj => hj.congr rfl rfl
      exact ⟨h.pages, fun j a hj => h.backed j a (hold j a hj),
        fun i j a hi hj => h.unique i j a (hold i a hi) (hold j a hj),
        fun j a hj => ha j a (hold j a hj)⟩
    exact some.inj hstep ▸ hinv

theorem inv_reach (he : Pgalloc.Enough min max) (h : Reach step Allowed (Init min max) s) :
    Inv min max s :=
  h.inv (fun _ h0 => Inv.empty (sysInv_init he h0.pages) h0.entries)
    fun _ _ _ hs ha hstep => hs.step ha hstep

theorem Filled.used_eq (hf : Filled { s with pages := pages } s' addr 0 js)
    (hpos : 0 < addr) :
    used s' = used s ∪ Set.range fun i : Fin js.length => (js.get i, addr + pageSize * i) := by
  have hn : s'.nentries = s.nentries := hf.nentries
  have hhost : s'.host = fill s.host addr 0 js := hf.host
  ext ⟨j, a⟩
  simp only [used, Set.mem_union, Set.mem_ofPred_eq, Set.mem_range, Prod.mk.injEq, hn, hhost]
  by_cases hin : j ∈ js
  · obtain ⟨m, hm, rfl⟩ := getElem_of_mem hin
    obtain ⟨hlt, hzero⟩ := hf.free _ hin
    have hold : s.host js[m] = 0 := hzero
    rw [fill_getElem hf.nodup hm, Nat.zero_add, hold]
    constructor
    · rintro ⟨-, rfl, -⟩
      exact .inr ⟨⟨m, hm⟩, rfl, rfl⟩
    · rintro (⟨-, h0, hne⟩ | ⟨i, hi, rfl⟩)
      · exact absurd h0.symm hne
      · have him : i = ⟨m, hm⟩ := nodup_iff_injective_get.mp hf.nodup hi
        exact ⟨hlt, by rw [him], by omega⟩
  · rw [fill_of_notin hin]
    refine ⟨.inl, fun h => h.resolve_right ?_⟩
    rintro ⟨i, rfl, -⟩
    exact hin (get_mem js i)

/-- The entries `slot`, all free before, hold the addresses of the request, and they are the only ones
that do. -/
structure Mapped (s s' : State) (addr : ℕ) {count : ℕ} (slot : Fin count → ℕ) : Prop where
  inj : Function.Injective slot
  free : ∀ i, slot i < s.nentries ∧ s.host (slot i) = 0
  used : used s' = used s ∪ Set.range fun i => (slot i, addr + pageSize * i)
  only : ∀ i : Fin count, ∀ j, (j, addr + pageSize * i) ∈ Gntmap.used s' ↔ j = slot i

theorem Filled.slots {count : ℕ} (hinv : Inv min max s')
    (hb : Block { s with pages := pages } addr order)
    (hf : Filled { s with pages := pages } s' addr 0 js) (hlen : js.length = count) :
    ∃ slot : Fin count → ℕ, Mapped s s' addr slot := by
  subst hlen
  have hused := hf.used_eq hb.pos
  refine ⟨js.get, nodup_iff_injective_get.mp hf.nodup, fun i => hf.free _ (get_mem js i),
    hused, fun i j => ?_⟩
  have hslot : (js.get i, addr + pageSize * i) ∈ used s' := by
    rw [hused]
    exact .inr ⟨i, rfl⟩
  constructor
  · rintro ⟨hlt, hhost, -⟩
    exact hinv.unique _ _ _ (hb.holds hlt hhost) (hb.holds hslot.1 hslot.2.1)
  · rintro rfl
    exact hslot

/-- **All or nothing.**  In every reachable state, and whatever the hypervisor answers, the call
returns: `NULL`, and then the used entries and the free pages are those from before, or an address,
and then as many free entries as pages were asked for hold the addresses from there on. -/
theorem mapping_all_or_nothing (he : Pgalloc.Enough min max)
    (h : Reach step Allowed (Init min max) s) (hyp : Hyp) (req : Request)
    (h1 : 1 ≤ req.count) (h32 : req.count < 2 ^ 32) :
    ∃ r s', gntmapMapGrantRefs hyp req s = some (r, s') ∧
      (r = none → used s' = used s ∧
        Pgalloc.freePages s'.pages.pg = Pgalloc.freePages s.pages.pg) ∧
      ∀ addr, r = some addr → ∃ slot : Fin req.count → ℕ, Mapped s s' addr slot := by
  obtain ⟨r, s', heq, hinv', hend⟩ := mapGrantRefs_spec (inv_reach he h) h1 h32 hyp
  refine ⟨r, s', heq, ?_⟩
  rcases hend with ⟨rfl, hn, hhost, hpages⟩ | ⟨addr, js, pages, rfl, hlen, hb, hf⟩
  · exact ⟨fun _ => ⟨by rw [used, used, hn, hhost], hpages⟩, nofun⟩
  · refine ⟨nofun, fun addr' heq' => ?_⟩
    rw [← some.inj heq']
    exact hf.slots hinv' hb hlen

end

/-! ## Two pages -/

/-- The hypervisor maps one page of a request. -/
def mapsOne : Hyp where
  map i _ := if i = 0 then (⟨0, 0⟩, 7) else (⟨0, -1⟩, 0)
  unmap _ := ⟨0, -1⟩

def pagesFrom (count ref : ℕ) : Request := ⟨count, fun _ => 1, 0, fun i => ref + i, true⟩

def sevenPages : State where
  nentries := defaultMaxGrants
  entries _ := ⟨0, 0⟩
  mapped := ∅
  pages := Pgalloc.small

/-- A page has been mapped.  In a request for two more the second one cannot be mapped, so neither
is. -/
theorem mapping_all_or_nothing_second :
    ∃ s s' : State, s.host 0 = 0x1000 ∧
      gntmapMapGrantRefs mapsOne (pagesFrom 2 9) s = some (none, s') ∧ used s' = used s ∧
      Pgalloc.freePages s'.pages.pg = Pgalloc.freePages s.pages.pg := by
  have hinit : Init 0 0x8000 sevenPages :=
    ⟨rfl, fun _ => rfl, Pgalloc.small_init⟩
  obtain ⟨s, hreach, hhost, hfails⟩ := run_finds step Allowed (Init 0 0x8000)
    (fun s => s.host 0 = 0x1000 ∧
      (gntmapMapGrantRefs mapsOne (pagesFrom 2 9) s).map Prod.fst = some none)
    [.map mapsOne (pagesFrom 1 8)] hinit ⟨⟨by decide, by decide⟩, fun _ _ => trivial⟩ (by decide +kernel)
  obtain ⟨r, s', heq, hnone, -⟩ := mapping_all_or_nothing Pgalloc.enough_small hreach mapsOne
    (pagesFrom 2 9) (by decide) (by decide)
  rw [heq] at hfails
  cases hfails
  exact ⟨s, s', hhost, heq, hnone rfl⟩

end Librettos.Gntmap
