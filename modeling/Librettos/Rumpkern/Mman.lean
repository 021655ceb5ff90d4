/-
# `Rumpkern.Mman` — the memory of the emulated `mmap`

`sys_mmap` takes memory for the whole mapping from the hypervisor and enters a chunk in
`mmc_list`; `sys_munmap` looks for a chunk around the given range, subtracts the pages of the
range from the chunk's `mm_pgsleft`, and gives the whole of the memory back when nothing is
left (`sys_mman.c`).

Which pages have been unmapped is not recorded.  Here each chunk has them as the ghost `gone`,
and `released` has the chunks whose memory was given back.  A page that is unmapped twice is
subtracted twice, so that the memory goes away under a page that is still in use
(`freed_in_use`).  Where no page is unmapped twice, no mapping is empty and no range reaches
past the end of the address space, `mm_pgsleft` is the number of pages left and the memory is
given back exactly when there are none (`released_when_gone`).

Sizes and addresses are 64 bits wide, and the additions of the source wrap.
-/
import Mathlib.Data.List.TakeWhile
import Librettos.Lib.Trans

namespace Librettos.Mman

open List Trans

/-- `PAGE_SIZE` -/
def pageSize : Nat := 4096

/-- `size_t` and pointers are below this. -/
def wordEnd : Nat := 2 ^ 64

/-- `roundup2(len, PAGE_SIZE)` -/
def roundup2 (len : Nat) : Nat := (len + (pageSize - 1)) % wordEnd / pageSize * pageSize

/-- The pages of a range, by their addresses. -/
def pages (start size : Nat) : Finset Nat :=
  (Finset.range (size / pageSize)).image fun i => start + i * pageSize

/-- `struct mmapchunk`, with the pages that have been unmapped. -/
structure Chunk where
  start : Nat
  size : Nat
  pgsleft : Nat
  gone : Finset Nat
deriving DecidableEq

/-- The pages that have not been unmapped. -/
def Chunk.left (c : Chunk) : Finset Nat := pages c.start c.size \ c.gone

/-- Where the mapping is, and how long. -/
def Chunk.range (c : Chunk) : Nat × Nat := (c.start, c.size)

/-- The list, the chunks whose memory has been given back, and all mappings that were made.
`panicked` is set by a `KASSERT` that fails. -/
structure State where
  mmcList : List Chunk
  released : List Chunk
  mapped : List (Nat × Nat)
  panicked : Bool
deriving DecidableEq

inductive Errno
  | ebadf
  | enomem
  | enodev
  | einval
  | eopnotsupp
  /-- what the file system returned -/
  | other (error : Nat)
deriving DecidableEq, Repr

/-- `mmapmem_alloc`, with the memory that `rump_hypermalloc` found. -/
def mmapmemAlloc (s : State) (roundedlen v : Nat) : State :=
  { s with
    mmcList := ⟨v, roundedlen, roundedlen / pageSize, ∅⟩ :: s.mmcList
    mapped := (v, roundedlen) :: s.mapped }

/-- The chunk has the range inside it. -/
def Chunk.around (c : Chunk) (addr roundedlen : Nat) : Bool :=
  decide (c.start ≤ addr) &&
    decide ((addr + roundedlen) % wordEnd ≤ (c.start + c.size) % wordEnd)

/-- The pages of the range are subtracted. -/
def Chunk.unmap (c : Chunk) (addr roundedlen : Nat) : Chunk :=
  { c with
    pgsleft := c.pgsleft - roundedlen / pageSize
    gone := c.gone ∪ pages addr roundedlen }

/-- `mmapmem_free` -/
def mmapmemFree (s : State) (addr roundedlen : Nat) : State × Option Errno :=
  let before := s.mmcList.takeWhile fun c => !c.around addr roundedlen
  match s.mmcList.dropWhile fun c => !c.around addr roundedlen with
  | [] => (s, some .einval)
  | mc :: after =>
    if mc.pgsleft < roundedlen / pageSize then ({ s with panicked := true }, none)
    else
      let mc := mc.unmap addr roundedlen
      if mc.pgsleft ≠ 0 then ({ s with mmcList := before ++ mc :: after }, none)
      else ({ s with mmcList := before ++ after, released := mc :: s.released }, none)

/-- The arguments of `sys_mmap` that it looks at. -/
structure MmapArgs where
  len : Nat
  /-- `prot == PROT_READ` -/
  protRead : Bool
  /-- `flags & MAP_FIXED` -/
  fixed : Bool
  /-- `flags & MAP_ANON` -/
  anon : Bool
  /-- `none` is `-1` -/
  fd : Option Nat
  pos : Nat
deriving DecidableEq, Repr

/-- What the file behind a mapping answers. -/
inductive File
  | missing
  | notReadable
  | notVnode
  | readError (error : Nat)
  | read
deriving DecidableEq, Repr

/-- `sys_mmap` -/
def sysMmap (s : State) (args : MmapArgs) (v : Nat) (file : File) : State × Option Errno :=
  if args.fd ≠ none ∧ args.protRead = false then (s, some .eopnotsupp)
  else if args.fixed = true then (s, some .enomem)
  else if args.pos % pageSize ≠ 0 then (s, some .einval)
  else
    let s := mmapmemAlloc s (roundup2 args.len) v
    if args.anon = true then (s, none)
    else
      match file with
      | .missing => (s, some .ebadf)
      | .notReadable => (s, some .ebadf)
      | .notVnode => (s, some .enodev)
      | .readError error => ((mmapmemFree s v (roundup2 args.len)).1, some (.other error))
      | .read => (s, none)

/-- `sys_munmap` -/
def sysMunmap (s : State) (addr len : Nat) : State × Option Errno :=
  if addr % pageSize ≠ 0 then (s, some .einval) else mmapmemFree s addr (roundup2 len)

inductive Act
  | mmap (args : MmapArgs) (v : Nat) (file : File)
  | munmap (addr len : Nat)
deriving DecidableEq, Repr

/-- `rump_hypermalloc` finds memory: whole pages, apart from those in use. -/
def Free (s : State) (v size : Nat) : Prop :=
  v ≠ 0 ∧ v % pageSize = 0 ∧ v + size < wordEnd ∧
    ∀ c ∈ s.mmcList, v + size ≤ c.start ∨ c.start + c.size ≤ v

instance (s : State) (v size : Nat) : Decidable (Free s v size) :=
  inferInstanceAs (Decidable (_ ∧ _))

/-- The calls of `sys_mmap` are those that succeed. -/
def step (s : State) : Act → Option State
  | .mmap args v file =>
    if s.panicked = false ∧ args.len < wordEnd ∧ Free s v (roundup2 args.len) ∧
        (sysMmap s args v file).2 = none then
      some (sysMmap s args v file).1
    else none
  | .munmap addr len =>
    if s.panicked = false ∧ addr < wordEnd ∧ len < wordEnd then some (sysMunmap s addr len).1
    else none

/-- Nothing is mapped. -/
def Init (s : State) : Prop := s = ⟨[], [], [], false⟩

/-- A mapping has at least one page; a range that is unmapped ends inside the address space, and
has no page of a mapping that has been unmapped before. -/
def once (s : State) : Act → Prop
  | .mmap args _ _ => roundup2 args.len ≠ 0
  | .munmap addr len => addr + roundup2 len < wordEnd ∧
      ∀ c ∈ s.mmcList, Disjoint (pages addr (roundup2 len)) c.gone

instance (s : State) : (a : Act) → Decidable (once s a)
  | .mmap args _ _ => inferInstanceAs (Decidable (roundup2 args.len ≠ 0))
  | .munmap addr len => inferInstanceAs (Decidable (addr + roundup2 len < wordEnd ∧
      ∀ c ∈ s.mmcList, Disjoint (pages addr (roundup2 len)) c.gone))

/-! ## The pages of a range -/

theorem card_pages (start size : Nat) : (pages start size).card = size / pageSize := by
  rw [pages, Finset.card_image_of_injective, Finset.card_range]
  intro i j h
  simp only [pageSize] at h
  omega

theorem pages_subset {start size addr len : Nat} (hstart : start % pageSize = 0)
    (haddr : addr % pageSize = 0) (hle : start ≤ addr) (hend : addr + len ≤ start + size) :
    pages addr len ⊆ pages start size := by
  intro p hp
  simp only [pages, Finset.mem_image, Finset.mem_range] at hp ⊢
  obtain ⟨i, hi, rfl⟩ := hp
  simp only [pageSize] at *
  exact ⟨(addr - start) / 4096 + i, by omega, by omega⟩

/-! ## The invariant -/

/-- A chunk in the list: it has whole pages, and counts those that are left. -/
structure Chunk.Ok (c : Chunk) : Prop where
  start : c.start % pageSize = 0
  bound : c.start + c.size < wordEnd
  pgsleft : c.pgsleft = c.left.card
  pos : c.pgsleft ≠ 0

structure Inv (s : State) : Prop where
  chunk : ∀ c ∈ s.mmcList, c.Ok
  released : ∀ c ∈ s.released, c.left = ∅
  mapped : s.mapped.Perm ((s.mmcList ++ s.released).map Chunk.range)
  panicked : s.panicked = false

section
variable {s s' : State} {c : Chunk} {addr roundedlen v : Nat}

theorem roundup2_mod (len : Nat) : roundup2 len % pageSize = 0 :=
  Nat.mul_mod_left _ _

theorem Inv.mmapmemAlloc (h : Inv s) (hlen : roundedlen % pageSize = 0) (hpos : roundedlen ≠ 0)
    (hfree : Free s v roundedlen) : Inv (mmapmemAlloc s roundedlen v) where
  chunk := by
    intro c hc
    rcases mem_cons.mp hc with rfl | hc
    · constructor
      case start => exact hfree.2.1
      case bound => exact hfree.2.2.1
      case pgsleft => rw [Chunk.left, Finset.sdiff_empty, card_pages]
      case pos =>
        simp only [pageSize] at *
        omega
    · exact h.chunk c hc
  released := h.released
  mapped := h.mapped.cons _
  panicked := h.panicked

/-- A range inside the chunk, none of it unmapped before, is made of pages that are left. -/
theorem Chunk.pages_subset_left (hstart : c.start % pageSize = 0) (hbound : c.start + c.size < wordEnd)
    (haround : c.around addr roundedlen = true) (haddr : addr % pageSize = 0)
    (hend : addr + roundedlen < wordEnd) (hfresh : Disjoint (pages addr roundedlen) c.gone) :
    pages addr roundedlen ⊆ c.left := by
  simp only [Chunk.around, Bool.and_eq_true, decide_eq_true_eq, Nat.mod_eq_of_lt hend,
    Nat.mod_eq_of_lt hbound] at haround
  exact Finset.subset_sdiff.mpr ⟨pages_subset hstart haddr haround.1 haround.2, hfresh⟩

theorem Chunk.left_unmap (c : Chunk) (addr roundedlen : Nat) :
    (c.unmap addr roundedlen).left = c.left \ pages addr roundedlen :=
  sdiff_sdiff_left.symm

theorem Chunk.pgsleft_unmap (hleft : c.pgsleft = c.left.card)
    (hsub : pages addr roundedlen ⊆ c.left) :
    roundedlen / pageSize ≤ c.pgsleft ∧
      (c.unmap addr roundedlen).pgsleft = (c.unmap addr roundedlen).left.card := by
  have hcard := Finset.card_le_card hsub
  rw [card_pages] at hcard
  refine ⟨hleft ▸ hcard, ?_⟩
  rw [Chunk.left_unmap, Finset.card_sdiff_of_subset hsub, card_pages, ← hleft]
  rfl

/-- What `mmapmem_free` does with the first chunk around the range: it panics, keeps the chunk
with fewer pages, or takes it from the list. -/
inductive Freed (s : State) (addr roundedlen : Nat) (before : List Chunk) (mc : Chunk)
    (after : List Chunk) : Prop
  | panics (hlt : mc.pgsleft < roundedlen / pageSize)
      (heq : mmapmemFree s addr roundedlen = ({ s with panicked := true }, none))
  | keeps (hle : roundedlen / pageSize ≤ mc.pgsleft)
      (hpos : (mc.unmap addr roundedlen).pgsleft ≠ 0)
      (heq : mmapmemFree s addr roundedlen =
        ({ s with mmcList := before ++ mc.unmap addr roundedlen :: after }, none))
  | releases (hle : roundedlen / pageSize ≤ mc.pgsleft)
      (hzero : (mc.unmap addr roundedlen).pgsleft = 0)
      (heq : mmapmemFree s addr roundedlen =
        ({ s with
            mmcList := before ++ after
            released := mc.unmap addr roundedlen :: s.released }, none))

theorem mmapmemFree_cases (s : State) (addr roundedlen : Nat) :
    ((∀ c ∈ s.mmcList, c.around addr roundedlen = false) ∧
      mmapmemFree s addr roundedlen = (s, some .einval)) ∨
    ∃ before mc after, s.mmcList = before ++ mc :: after ∧ mc.around addr roundedlen = true ∧
      Freed s addr roundedlen before mc after := by
  have hsplit := (takeWhile_append_dropWhile
    (p := fun c : Chunk => !c.around addr roundedlen) (l := s.mmcList)).symm
  cases hdrop : s.mmcList.dropWhile fun c => !c.around addr roundedlen with
  | nil =>
    refine .inl ⟨fun c hc => ?_, ?_⟩
    · simpa using dropWhile_eq_nil_iff.mp hdrop c hc
    · simp only [mmapmemFree, hdrop]
  | cons mc after =>
    rw [hdrop] at hsplit
    refine .inr ⟨_, mc, after, hsplit, ?_, ?_⟩
    · have hhead := head?_dropWhile_not (fun c : Chunk => !c.around addr roundedlen) s.mmcList
      rw [hdrop] at hhead
      simpa using hhead
    · by_cases hlt : mc.pgsleft < roundedlen / pageSize
      · exact .panics hlt (by simp only [mmapmemFree, hdrop, if_pos hlt])
      · by_cases hzero : (mc.unmap addr roundedlen).pgsleft = 0
        · refine .releases (Nat.not_lt.mp hlt) hzero ?_
          simp only [mmapmemFree, hdrop, if_neg hlt, ne_eq, hzero, not_true, if_false]
        · refine .keeps (Nat.not_lt.mp hlt) hzero ?_
          simp only [mmapmemFree, hdrop, if_neg hlt, ne_eq, hzero, not_false_eq_true, if_true]

theorem Inv.mmapmemFree (h : Inv s) (haddr : addr % pageSize = 0)
    (hend : addr + roundedlen < wordEnd)
    (hfresh : ∀ c ∈ s.mmcList, Disjoint (pages addr roundedlen) c.gone) :
    Inv (mmapmemFree s addr roundedlen).1 := by
  obtain ⟨-, heq⟩ | ⟨before, mc, after, hlist, haround, hfreed⟩ := mmapmemFree_cases s addr roundedlen
  · rw [heq]
    exact h
  have hmem : ∀ c, c ∈ before ∨ c ∈ after → c.Ok := by
    intro c hc
    refine h.chunk c ?_
    rw [hlist, mem_append, mem_cons]
    exact hc.imp_right .inr
  have hmc : mc ∈ s.mmcList := hlist ▸ mem_append_right _ mem_cons_self
  obtain ⟨hstart, hbound, hcount, -⟩ := h.chunk mc hmc
  have hsub := Chunk.pages_subset_left hstart hbound haround haddr hend (hfresh mc hmc)
  obtain ⟨hle, hleft⟩ := Chunk.pgsleft_unmap hcount hsub
  have hmapped := h.mapped
  rw [hlist] at hmapped
  cases hfreed with
  | panics hlt heq => exact absurd hlt (Nat.not_lt.mpr hle)
  | keeps _ hpos heq =>
    rw [heq]
    refine ⟨fun c hc => ?_, h.released, by simpa [Chunk.unmap, Chunk.range] using hmapped,
      h.panicked⟩
    rcases mem_append.mp hc with hc | hc
    · exact hmem c (.inl hc)
    · rcases mem_cons.mp hc with rfl | hc
      · exact ⟨hstart, hbound, hleft, hpos⟩
      · exact hmem c (.inr hc)
  | releases _ hzero heq =>
    rw [heq]
    refine ⟨fun c hc => hmem c (mem_append.mp hc), fun c hc => ?_, hmapped.trans ?_,
      h.panicked⟩
    · rcases mem_cons.mp hc with rfl | hc
      · rw [← Finset.card_eq_zero, ← hleft]
        exact hzero
      · exact h.released c hc
    · -- the chunk has gone from one list to the other
      simp only [append_assoc, cons_append, map_append, map_cons]
      refine List.Perm.append_left _ ?_
      exact (perm_middle (a := Chunk.range mc)).symm

theorem sysMmap_eq {args : MmapArgs} {file : File} (h : (sysMmap s args v file).2 = none) :
    (sysMmap s args v file).1 = mmapmemAlloc s (roundup2 args.len) v := by
  revert h
  unfold sysMmap
  split_ifs <;> cases file <;> simp

theorem Inv.step {a : Act} (h : Inv s) (hok : once s a) (hs : step s a = some s') : Inv s' := by
  cases a with
  | mmap args v file =>
    obtain ⟨⟨-, -, hfree, hsucc⟩, ⟨⟩⟩ := Option.ite_none_right_eq_some.mp hs
    rw [sysMmap_eq hsucc]
    exact h.mmapmemAlloc (roundup2_mod _) hok hfree
  | munmap addr len =>
    obtain ⟨-, ⟨⟩⟩ := Option.ite_none_right_eq_some.mp hs
    rw [sysMunmap]
    split
    · exact h
    · next haddr => exact h.mmapmemFree (not_not.mp haddr) hok.1 hok.2

/-- **Released when gone.**  In every run in which no page is unmapped twice, no mapping is
empty and no range leaves the address space, `mm_pgsleft` is the number of pages that are left;
a mapping in the list has one, and one whose memory was given back has none.  Every mapping
that was made is one or the other. -/
theorem released_when_gone (h : Reach step once Init s) :
    s.panicked = false ∧ (∀ c ∈ s.mmcList, c.pgsleft = c.left.card ∧ c.left.Nonempty) ∧
      (∀ c ∈ s.released, c.left = ∅) ∧
      s.mapped.Perm ((s.mmcList ++ s.released).map Chunk.range) := by
  have hinv : Inv s := by
    refine h.inv (I := Inv) ?_ fun _ _ _ hi hok hs => hi.step hok hs
    rintro _ rfl
    exact ⟨by simp, by simp, by simp, rfl⟩
  refine ⟨hinv.panicked, fun c hc => ?_, hinv.released, hinv.mapped⟩
  obtain ⟨-, -, hleft, hpos⟩ := hinv.chunk c hc
  exact ⟨hleft, Finset.card_pos.mp (Nat.pos_of_ne_zero (hleft ▸ hpos))⟩

end

/-- An anonymous mapping of `n` pages. -/
def anon (n : Nat) : MmapArgs := ⟨n * pageSize, false, false, true, none, 0⟩

/-- Two pages are mapped, and unmapped one after the other. -/
theorem released_when_gone_pages : ∃ s : State, Reach step once Init s ∧ s.mmcList = [] ∧
    s.released.length = 1 ∧ ∀ c ∈ s.released, c.left = ∅ := by
  obtain ⟨s, hreach, hlist, hone⟩ := run_finds step once Init
    (fun s => s.mmcList = [] ∧ s.released.length = 1)
    [.mmap (anon 2) 0x10000 .missing, .munmap 0x11000 1, .munmap 0x10000 4096] rfl
    (by decide) (by decide)
  exact ⟨s, hreach, hlist, hone, (released_when_gone hreach).2.2.1⟩

/-- **Freed in use.**  Two pages are mapped, and the first one is unmapped twice: the memory
is given back with the second page still mapped.  A chunk without pages stays in the list
with nothing left. -/
theorem freed_in_use :
    (∃ s : State, Reach step Trans.any Init s ∧
      ∃ c ∈ s.released, c.left = {0x11000}) ∧
    ∃ s : State, Reach step Trans.any Init s ∧ ∃ c ∈ s.mmcList, c.left = ∅ := by
  constructor
  · exact any_finds step Init _
      [.mmap (anon 2) 0x10000 .missing, .munmap 0x10000 4096, .munmap 0x10000 4096] rfl (by decide)
  · exact any_finds step Init _ [.mmap (anon 0) 0x10000 .missing] rfl (by decide)

end Librettos.Mman
