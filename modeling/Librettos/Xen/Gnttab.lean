/-
# `Xen.Gnttab` — grant references

`gnttab.c`.  The references that are free are threaded through `gnttab_list`, entry 0 of which is
the head of the list; `gnttab_sem` counts them, so `get_free_entry` waits for one.  `inuse` is the
array of `GNT_DEBUG`, kept along as a ghost: `twice` is set where one of the assertions on it would
fail, that is where a reference is released or given out twice.

`Good g held` says that the free references and those that are held are all different.  Ending and
granting move references between the two (`Good.endAll`, `Good.grantPages`), and nothing is
released twice.
-/
import Librettos.Lib.FreeChain
import Librettos.Lib.Wp
import Mathlib.Data.List.Perm.Basic
import Mathlib.Tactic

namespace Librettos.Gnttab

open Function (update update_of_ne update_self)
open FreeChain List Wp

/-- `NR_RESERVED_ENTRIES` -/
def nrReservedEntries : ℕ := 8

/-- `NR_GRANT_FRAMES` -/
def nrGrantFrames : ℕ := 8

/-- `PAGE_SIZE` -/
def pageSize : ℕ := 4096

/-- `NR_GRANT_ENTRIES`; an entry has 8 bytes. -/
def nrGrantEntries : ℕ := nrGrantFrames * pageSize / 8

/-- `grant_entry_t`, with the flags one by one -/
structure Entry where
  permitAccess : Bool
  readonly : Bool
  reading : Bool
  writing : Bool
  domid : ℕ
  frame : ℕ
deriving DecidableEq, Repr

/-- What happens where a function does not return. -/
inductive Stop
  | blocks
  | asserts
  | halts (msg : String)
deriving DecidableEq, Repr

structure Table where
  list : ℕ → ℕ
  sem : ℕ
  entry : ℕ → Entry
  inuse : ℕ → Bool
  twice : Bool

def inRange (ref : ℕ) : Prop := nrReservedEntries ≤ ref ∧ ref < nrGrantEntries

instance (ref : ℕ) : Decidable (inRange ref) := inferInstanceAs (Decidable (_ ∧ _))

def putFreeEntry (g : Table) (ref : ℕ) : Table :=
  { g with
    list := update (update g.list ref (g.list 0)) 0 ref
    sem := g.sem + 1
    inuse := update g.inuse ref false
    twice := g.twice || !g.inuse ref }

/-- The first reference is taken off the list. -/
def Table.take (g : Table) (ref : ℕ) : Table :=
  { g with
    list := update g.list 0 (g.list ref)
    sem := g.sem - 1
    inuse := update g.inuse ref true
    twice := g.twice || g.inuse ref }

def getFreeEntry (g : Table) : Except Stop (Table × ℕ) :=
  if g.sem = 0 then .error .blocks
  else if inRange (g.list 0) then .ok (g.take (g.list 0), g.list 0)
  else .error .asserts

def gnttabGrantAccess (g : Table) (domid frame : ℕ) (readonly : Bool) : Except Stop (Table × ℕ) :=
  (getFreeEntry g).map fun r =>
    ({ r.1 with
      entry := update r.1.entry r.2 ⟨true, readonly, false, false, domid, frame⟩ }, r.2)

/-- The entry is mapped by the other domain. -/
def Entry.mapped (e : Entry) : Bool := e.reading || e.writing

def Entry.clear (e : Entry) : Entry :=
  { e with permitAccess := false, readonly := false, reading := false, writing := false }

/-- `gnttab_end_access`, with its result -/
def gnttabEndAccess (g : Table) (ref : ℕ) : Except Stop (Table × ℕ) :=
  if inRange ref then
    if (g.entry ref).mapped then .ok (g, 0)
    else
      .ok (putFreeEntry { g with entry := update g.entry ref (g.entry ref).clear } ref, 1)
  else .error .asserts

/-- A loop of `gnttab_end_access`. -/
def endAll (g : Table) : List ℕ → Except Stop Table
  | [] => .ok g
  | ref :: refs => (gnttabEndAccess g ref).bind fun r => endAll r.1 refs

/-- A loop of `gnttab_grant_access` over `n` pages. -/
def grantPages (g : Table) (domid : ℕ) : ℕ → ℕ → Except Stop (Table × List ℕ)
  | _, 0 => .ok (g, [])
  | addr, n + 1 =>
    (gnttabGrantAccess g domid (addr / pageSize) false).bind fun r =>
      (grantPages r.1 domid (addr + pageSize) n).map fun r' => (r'.1, r.2 :: r'.2)

/-- The references that `init_gnttab` puts on the list. -/
def allRefs : List ℕ := List.range' nrReservedEntries (nrGrantEntries - nrReservedEntries)

/-- `init_gnttab`, with whatever the table contains -/
def initGnttab (entry : ℕ → Entry) : Table :=
  allRefs.foldl putFreeEntry ⟨fun _ => 0, 0, entry, fun _ => true, false⟩

/-- The free references, from the head of the list. -/
def Table.freeRefs (g : Table) : List ℕ := chain g.list 0 g.sem

/-- The references that are free and those that are held are all different, and in use are those
that are held. -/
structure Good (g : Table) (held : List ℕ) : Prop where
  nodup : (g.freeRefs ++ held).Nodup
  range : ∀ r ∈ g.freeRefs ++ held, inRange r
  free : ∀ r ∈ g.freeRefs, g.inuse r = false
  held : ∀ r ∈ held, g.inuse r = true
  twice : g.twice = false

section
variable {g g' : Table} {held held' refs : List ℕ} {r n domid addr : ℕ}

theorem Good.perm (h : Good g held) (hp : held.Perm held') : Good g held' := by
  have hall := hp.append_left g.freeRefs
  exact ⟨hall.nodup_iff.mp h.nodup, fun r hr => h.range r (hall.mem_iff.mpr hr), h.free,
    fun r hr => h.held r (hp.mem_iff.mpr hr), h.twice⟩

theorem Good.entry (h : Good g held) (entry : ℕ → Entry) : Good { g with entry := entry } held :=
  { h with }

theorem inRange.ne_zero (h : inRange r) : r ≠ 0 := by
  have hle := h.1
  rw [nrReservedEntries] at hle
  omega

theorem Good.zero_notin (h : Good g held) : 0 ∉ g.freeRefs :=
  fun h0 => (h.range 0 (mem_append_left _ h0)).ne_zero rfl

theorem Good.put (h : Good g (r :: held)) :
    (putFreeEntry g r).freeRefs = r :: g.freeRefs ∧ Good (putFreeEntry g r) held := by
  have hrange := h.range r (by simp)
  have hnodup := perm_middle.nodup_iff.mp h.nodup
  rw [nodup_cons] at hnodup
  have hnot : r ∉ g.freeRefs := fun hr => hnodup.1 (mem_append_left _ hr)
  have hfree : (putFreeEntry g r).freeRefs = r :: g.freeRefs :=
    chain_push hrange.ne_zero h.zero_notin hnot
  refine ⟨hfree, ?_⟩
  constructor
  case nodup =>
    rw [hfree]
    exact nodup_cons.mpr hnodup
  case range =>
    rw [hfree]
    exact fun x hx => h.range x (perm_middle.mem_iff.mpr hx)
  case free =>
    rw [hfree]
    intro x hx
    by_cases hxr : x = r
    · rw [hxr]
      exact update_self _ _ _
    · exact (update_of_ne hxr _ _).trans (h.free x ((mem_cons.mp hx).resolve_left hxr))
  case held =>
    intro x hx
    have hxr : x ≠ r := fun heq => hnodup.1 (mem_append_right _ (heq ▸ hx))
    exact (update_of_ne hxr _ _).trans (h.held x (mem_cons_of_mem _ hx))
  case twice => simp [putFreeEntry, h.twice, h.held r mem_cons_self]

theorem Good.get (h : Good g held) (hsem : 0 < g.sem) :
    ∃ g' r, getFreeEntry g = .ok (g', r) ∧ Good g' (r :: held) ∧ g'.sem + 1 = g.sem ∧
      g'.entry = g.entry := by
  obtain ⟨n, hn⟩ := Nat.exists_eq_add_of_le' hsem
  have hfree : g.freeRefs = g.list 0 :: chain g.list (g.list 0) n := by
    rw [Table.freeRefs, hn, chain]
  have hzero := h.zero_notin
  have hrest : (g.take (g.list 0)).freeRefs = chain g.list (g.list 0) n := by
    have hpop : 0 ∉ chain g.list 0 (n + 1) := hn ▸ hzero
    have hsem' : (g.take (g.list 0)).sem = n := Nat.sub_eq_of_eq_add hn
    rw [Table.freeRefs, hsem']
    exact chain_pop hpop
  have hnodup := h.nodup
  rw [hfree, cons_append, nodup_cons] at hnodup
  have hrange := h.range
  rw [hfree] at hrange
  refine ⟨g.take (g.list 0), g.list 0, ?_, ?_, Nat.sub_add_cancel hsem, rfl⟩
  · rw [getFreeEntry, if_neg hsem.ne', if_pos (hrange (g.list 0) mem_cons_self)]
  · constructor
    case nodup =>
      rw [hrest]
      exact perm_middle.nodup_iff.mpr (nodup_cons.mpr hnodup)
    case range =>
      rw [hrest]
      exact fun x hx => hrange x (perm_middle.mem_iff.mp hx)
    case free =>
      rw [hrest]
      intro x hx
      have hxr : x ≠ g.list 0 := fun heq => hnodup.1 (mem_append_left _ (heq ▸ hx))
      exact (update_of_ne hxr _ _).trans
        (h.free x (by rw [hfree]; exact mem_cons_of_mem _ hx))
    case held =>
      intro x hx
      by_cases hxr : x = g.list 0
      · rw [hxr]
        exact update_self _ _ _
      · exact (update_of_ne hxr _ _).trans
          (h.held x ((mem_cons.mp hx).resolve_left hxr))
    case twice =>
      simp [Table.take, h.twice, h.free (g.list 0) (by rw [hfree]; exact mem_cons_self)]

theorem Good.endAccess (h : Good g (r :: held)) (hu : (g.entry r).mapped = false) :
    ∃ g', gnttabEndAccess g r = .ok (g', 1) ∧ Good g' held ∧ g'.sem = g.sem + 1 ∧
      ∀ x, x ≠ r → g'.entry x = g.entry x := by
  have hput := (h.entry (update g.entry r (g.entry r).clear)).put
  refine ⟨_, ?_, hput.2, rfl, fun x hx => update_of_ne hx _ _⟩
  rw [gnttabEndAccess, if_pos (h.range r (by simp)), hu]
  rfl

theorem Good.endAll : ∀ (refs : List ℕ) {g : Table}, Good g (refs ++ held) →
    (∀ r ∈ refs, (g.entry r).mapped = false) →
    ∃ g', endAll g refs = .ok g' ∧ Good g' held ∧ g'.sem = g.sem + refs.length ∧
      ∀ x, x ∉ refs → g'.entry x = g.entry x
  | [], g, h, _ => ⟨g, rfl, h, rfl, fun _ _ => rfl⟩
  | r :: refs, g, h, hu => by
    obtain ⟨g₁, heq, hgood, hsem, hframe⟩ := h.endAccess (hu r mem_cons_self)
    have hnot : r ∉ refs ++ held := by
      have hnodup := h.nodup.of_append_right
      rw [cons_append, nodup_cons] at hnodup
      exact hnodup.1
    have hu₁ : ∀ x ∈ refs, (g₁.entry x).mapped = false := by
      intro x hx
      rw [hframe x fun hxr => hnot (mem_append_left _ (hxr ▸ hx))]
      exact hu x (mem_cons_of_mem _ hx)
    obtain ⟨g', heq', hgood', hsem', hframe'⟩ := Good.endAll refs hgood hu₁
    refine ⟨g', ?_, hgood', ?_, fun x hx => ?_⟩
    · rw [Gnttab.endAll, heq]
      exact heq'
    · rw [hsem', hsem, length_cons]
      omega
    · rw [mem_cons, not_or] at hx
      rw [hframe' x hx.2, hframe x hx.1]

theorem Good.grantAccess (h : Good g held) (hsem : 0 < g.sem) (domid frame : ℕ) (readonly : Bool) :
    ∃ g' r, gnttabGrantAccess g domid frame readonly = .ok (g', r) ∧ Good g' (r :: held) ∧
      g'.sem + 1 = g.sem := by
  obtain ⟨g', r, heq, hgood, hsem', -⟩ := h.get hsem
  refine ⟨_, r, ?_, hgood.entry (update g'.entry r
    ⟨true, readonly, false, false, domid, frame⟩), hsem'⟩
  rw [gnttabGrantAccess, heq]
  rfl

theorem Good.grantPages (domid : ℕ) : ∀ (n addr : ℕ) {g : Table} {held : List ℕ}, Good g held →
    n ≤ g.sem → ∃ g' refs, grantPages g domid addr n = .ok (g', refs) ∧ Good g' (refs ++ held) ∧
      g'.sem + n = g.sem ∧ refs.length = n
  | 0, _, g, _, h, _ => ⟨g, [], rfl, h, rfl, rfl⟩
  | n + 1, addr, g, held, h, hsem => by
    obtain ⟨g₁, r, heq, hgood, hsem₁⟩ := h.grantAccess (by omega) domid (addr / pageSize) false
    obtain ⟨g', refs, heq', hgood', hsem', hlen⟩ :=
      Good.grantPages domid n (addr + pageSize) hgood (by omega)
    refine ⟨g', r :: refs, ?_, ?_, by omega, by rw [length_cons, hlen]⟩
    · rw [Gnttab.grantPages, heq]
      simp only [Except.bind, heq', Except.map]
    · exact hgood'.perm perm_middle

theorem endAll_append (refs' : List ℕ) : ∀ (refs : List ℕ) (g : Table),
    endAll g (refs ++ refs') = (endAll g refs).bind fun g' => endAll g' refs'
  | [], _ => rfl
  | r :: refs, g => by
    rw [cons_append, endAll, endAll]
    cases gnttabEndAccess g r with
    | error e => rfl
    | ok b => exact endAll_append refs' refs b.1

theorem grantAccess_ok {frame : ℕ} {readonly : Bool}
    (h : gnttabGrantAccess g domid frame readonly = .ok (g', r)) : g'.sem + 1 = g.sem ∧
      ∀ x, (g.entry x).mapped = false → (g'.entry x).mapped = false := by
  obtain ⟨⟨g₁, r₁⟩, hget, heq⟩ := map_ok h
  obtain ⟨rfl, -⟩ := Prod.mk.inj heq
  rw [getFreeEntry] at hget
  split at hget
  · cases hget
  · next hsem =>
    split at hget
    · cases hget
      refine ⟨Nat.sub_add_cancel (Nat.pos_of_ne_zero hsem), fun x hx => ?_⟩
      by_cases hxr : x = g.list 0
      · simp [hxr, Entry.mapped]
      · simpa [hxr, Table.take] using hx
    · cases hget

theorem grantPages_ok (domid : ℕ) : ∀ (n addr : ℕ) {g g' : Table} {refs : List ℕ},
    grantPages g domid addr n = .ok (g', refs) → g'.sem + n = g.sem ∧
      ∀ x, (g.entry x).mapped = false → (g'.entry x).mapped = false
  | 0, _, g, g', refs, h => by
    obtain ⟨rfl, -⟩ := Prod.mk.inj (Except.ok.inj h)
    exact ⟨rfl, fun _ hx => hx⟩
  | n + 1, addr, g, g', refs, h => by
    obtain ⟨⟨g₁, r⟩, hgrant, hrest⟩ := bind_ok h
    obtain ⟨⟨g₂, refs₂⟩, hpages, heq⟩ := map_ok hrest
    obtain ⟨rfl, -⟩ := Prod.mk.inj heq
    obtain ⟨hone, hkeep⟩ := grantAccess_ok hgrant
    obtain ⟨hmore, hkeep'⟩ := grantPages_ok domid n (addr + pageSize) hpages
    dsimp only at *
    exact ⟨by omega, fun x hx => hkeep' x (hkeep x hx)⟩

theorem mem_allRefs : r ∈ allRefs ↔ inRange r := by
  rw [allRefs, mem_range'_1, inRange, nrReservedEntries, nrGrantEntries, nrGrantFrames, pageSize]

theorem start_good (entry : ℕ → Entry) :
    Good ⟨fun _ => 0, 0, entry, fun _ => true, false⟩ allRefs where
  nodup := nodup_range'
  range := fun r hr => mem_allRefs.mp hr
  free := fun r hr => absurd hr not_mem_nil
  held := fun _ _ => rfl
  twice := by rfl

theorem initGnttab_good (entry : ℕ → Entry) :
    Good (initGnttab entry) [] ∧ (initGnttab entry).sem = nrGrantEntries - nrReservedEntries ∧
      (initGnttab entry).entry = entry := by
  have hfold : ∀ (refs : List ℕ) (g : Table), Good g refs →
      Good (refs.foldl putFreeEntry g) [] ∧
        (refs.foldl putFreeEntry g).sem = g.sem + refs.length ∧
        (refs.foldl putFreeEntry g).entry = g.entry := by
    intro refs
    induction refs with
    | nil => exact fun g h => ⟨h, rfl, rfl⟩
    | cons r refs ih =>
      intro g h
      obtain ⟨hgood, hsem, hentry⟩ := ih (putFreeEntry g r) h.put.2
      refine ⟨hgood, hsem.trans ?_, hentry⟩
      simp only [putFreeEntry, length_cons]
      omega
  obtain ⟨hgood, hsem, hentry⟩ := hfold allRefs _ (start_good entry)
  refine ⟨hgood, hsem.trans ?_, hentry⟩
  rw [allRefs, length_range', Nat.zero_add]

end

end Librettos.Gnttab
