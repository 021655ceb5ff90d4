/-
# `Rumpkern.MmanCalls` — what a call of `sys_mmap` or `sys_munmap` leaves behind

`Rumpkern.Mman` follows the calls that succeed.  Here every call counts, with every argument of
64 bits and every answer of the file.

    sys_mmap fails      The chunk is in the list before the file is looked at.  A read that
                        fails takes it out again; a file that is missing, may not be read or is
                        no vnode leaves it there (`mmap_error_leaves_no_trace`).
    sys_mmap succeeds   `roundup2` wraps for the last page's worth of lengths: nothing is
                        reserved, and the call returns 0.
    sys_munmap          The end of the range wraps too, and a range that leaves the address
                        space ends below every chunk: the test lets it pass.

The lengths and ranges for which the two calls do what they say are found exactly
(`mmap_sizes`).  What is subtracted from `mm_pgsleft` is there as long as no page is unmapped
twice.
-/
import Librettos.Rumpkern.Mman

namespace Librettos.Mman

open List Trans

/-- The call ends before it takes memory: a file is to be mapped writable, the address is
fixed, or the offset is inside a page. -/
def MmapArgs.refused (args : MmapArgs) : Bool :=
  (args.fd.isSome && !args.protRead) || args.fixed || decide (args.pos % pageSize ≠ 0)

/-- The file is there, may be read and is a vnode. -/
def File.opened : File → Bool
  | .missing => false
  | .notReadable => false
  | .notVnode => false
  | .readError _ => true
  | .read => true

/-- The end of `sys_mmap` for a file: its answer, and what becomes of the chunk. -/
def File.mapped (s : State) (v roundedlen : Nat) : File → State × Option Errno
  | .missing => (s, some .ebadf)
  | .notReadable => (s, some .ebadf)
  | .notVnode => (s, some .enodev)
  | .readError error => ((mmapmemFree s v roundedlen).1, some (.other error))
  | .read => (s, none)

/-- The memory that was taken from the hypervisor and not given back. -/
def State.held (s : State) : Multiset (Nat × Nat) :=
  (s.mapped : Multiset (Nat × Nat)) - (s.released.map Chunk.range : Multiset (Nat × Nat))

section
variable {s s' : State} {args : MmapArgs} {file : File} {c : Chunk} {addr len roundedlen v : Nat}

/-! ## A call that fails -/

theorem sysMmap_of_refused (h : args.refused = true) : (sysMmap s args v file).1 = s := by
  unfold sysMmap
  split_ifs with hprot hfixed hpos
  · rfl
  · rfl
  · rfl
  all_goals
    cases hfd : args.fd <;> simp_all [MmapArgs.refused]

theorem sysMmap_of_not_refused (h : args.refused = false) :
    sysMmap s args v file =
      if args.anon = true then (mmapmemAlloc s (roundup2 args.len) v, none)
      else File.mapped (mmapmemAlloc s (roundup2 args.len) v) v (roundup2 args.len) file := by
  simp only [MmapArgs.refused, Bool.or_eq_false_iff, decide_eq_false_iff_not, not_not] at h
  obtain ⟨⟨hfd, hfixed⟩, hpos⟩ := h
  have hprot : ¬(args.fd ≠ none ∧ args.protRead = false) := by
    cases hfd' : args.fd <;> simp_all
  rw [sysMmap, if_neg hprot, if_neg (by simp [hfixed]), if_neg (by simp [hpos])]
  cases file <;> rfl

/-- The chunk that was entered last is the first around its own range, and has all its pages. -/
theorem mmapmemFree_mmapmemAlloc (s : State) (roundedlen v : Nat) :
    (mmapmemFree (mmapmemAlloc s roundedlen v) v roundedlen).1 =
      { s with
        released := ⟨v, roundedlen, 0, pages v roundedlen⟩ :: s.released
        mapped := (v, roundedlen) :: s.mapped } := by
  simp [mmapmemFree, mmapmemAlloc, Chunk.around, Chunk.unmap]

theorem held_give_back (s : State) (c : Chunk) :
    State.held { s with released := c :: s.released, mapped := c.range :: s.mapped } = s.held := by
  simp only [State.held, map_cons, ← Multiset.cons_coe, Multiset.sub_cons, Multiset.erase_cons_head]

/-- **No trace of a failed `sys_mmap`.**  The list and the memory are as before whenever the call
fails, if and only if it is refused at the top, is for anonymous memory, or gets to the read. -/
theorem mmap_error_leaves_no_trace (s : State) (args : MmapArgs) (v : Nat) (file : File) :
    ((sysMmap s args v file).2 ≠ none →
      (sysMmap s args v file).1.mmcList = s.mmcList ∧ (sysMmap s args v file).1.held = s.held) ↔
    (args.refused = true ∨ args.anon = true ∨ file.opened = true) := by
  cases hrefused : args.refused with
  | true =>
      rw [sysMmap_of_refused hrefused]
      simp
  | false =>
      rw [sysMmap_of_not_refused hrefused]
      cases hanon : args.anon with
      | true => simp
      | false =>
          cases file with
          | readError error =>
              have hback := held_give_back s
                ⟨v, roundup2 args.len, 0, pages v (roundup2 args.len)⟩
              simp only [Chunk.range] at hback
              simp [File.mapped, mmapmemFree_mmapmemAlloc, File.opened, hback]
          | read => simp [File.mapped, File.opened]
          | missing | notReadable | notVnode => simp [File.mapped, File.opened, mmapmemAlloc]

/-- A file descriptor that is not open: the call fails, and the chunk stays. -/
theorem mmap_ebadf_leaves_chunk :
    ∃ args : MmapArgs, (sysMmap ⟨[], [], [], false⟩ args 0x10000 .missing).2 = some .ebadf ∧
      (sysMmap ⟨[], [], [], false⟩ args 0x10000 .missing).1.mmcList =
        [⟨0x10000, 4096, 1, ∅⟩] :=
  ⟨⟨4096, true, false, false, some 3, 0⟩, by decide, by decide⟩

/-! ## Rounding -/

/-- `len` rounded up to whole pages, as a number. -/
def roundedUp (len : Nat) : Nat := (len + (pageSize - 1)) / pageSize * pageSize

theorem le_roundedUp (len : Nat) : len ≤ roundedUp len := by
  simp only [roundedUp, pageSize]
  omega

theorem roundup2_eq (h : len ≤ wordEnd - pageSize) : roundup2 len = roundedUp len := by
  have hlt : len + (pageSize - 1) < wordEnd := by
    simp only [wordEnd, pageSize] at *
    omega
  rw [roundup2, roundedUp, Nat.mod_eq_of_lt hlt]

/-- Beyond that nothing is left of the length. -/
theorem roundup2_eq_zero (hlen : len < wordEnd) (h : wordEnd - pageSize < len) :
    roundup2 len = 0 := by
  simp only [roundup2, wordEnd, pageSize] at *
  omega

theorem le_roundup2_iff (hlen : len < wordEnd) : len ≤ roundup2 len ↔ len ≤ wordEnd - pageSize := by
  constructor
  · intro hle
    by_contra hlt
    rw [roundup2_eq_zero hlen (Nat.not_le.mp hlt)] at hle
    exact hlt (hle.trans (Nat.zero_le _))
  · intro hle
    rw [roundup2_eq hle]
    exact le_roundedUp len

/-! ## The calls, whatever they return -/

/-- A call.  One that is not refused finds memory. -/
def call (s : State) : Act → Option State
  | .mmap args v file =>
    if s.panicked = false ∧ args.len < wordEnd ∧
        (args.refused = true ∨ Free s v (roundup2 args.len)) then
      some (sysMmap s args v file).1
    else none
  | .munmap addr len =>
    if s.panicked = false ∧ addr < wordEnd ∧ len < wordEnd then some (sysMunmap s addr len).1
    else none

/-- What holds of every chunk, of every new one and of the chunk a range is subtracted from. -/
theorem chunks_mmapmemFree {P : Chunk → Prop} (h : ∀ c ∈ s.mmcList, P c)
    (hunmap : ∀ c ∈ s.mmcList, c.around addr roundedlen = true → P (c.unmap addr roundedlen)) :
    ∀ c ∈ (mmapmemFree s addr roundedlen).1.mmcList, P c := by
  obtain ⟨-, heq⟩ | ⟨before, mc, after, hlist, haround, hfreed⟩ := mmapmemFree_cases s addr roundedlen
  · rw [heq]
    exact h
  rw [hlist] at h hunmap
  have hmc := hunmap mc (mem_append_right _ mem_cons_self) haround
  have hrest : ∀ c, c ∈ before ∨ c ∈ after → P c := by
    intro c hc
    refine h c ?_
    rw [mem_append, mem_cons]
    exact hc.imp_right .inr
  cases hfreed with
  | panics _ heq =>
    rw [heq, hlist]
    exact h
  | keeps _ _ heq =>
    rw [heq]
    intro c hc
    rcases mem_append.mp hc with hc | hc
    · exact hrest c (.inl hc)
    · rcases mem_cons.mp hc with rfl | hc
      · exact hmc
      · exact hrest c (.inr hc)
  | releases _ _ heq =>
    rw [heq]
    exact fun c hc => hrest c (mem_append.mp hc)

theorem chunks_sysMmap {P : Chunk → Prop} (h : ∀ c ∈ s.mmcList, P c) (hnew : args.refused = false →
      P ⟨v, roundup2 args.len, roundup2 args.len / pageSize, ∅⟩) :
    ∀ c ∈ (sysMmap s args v file).1.mmcList, P c := by
  cases hrefused : args.refused with
  | true =>
    rw [sysMmap_of_refused hrefused]
    exact h
  | false =>
    have halloc : ∀ c ∈ (mmapmemAlloc s (roundup2 args.len) v).mmcList, P c := by
      intro c hc
      rcases mem_cons.mp hc with rfl | hc
      · exact hnew hrefused
      · exact h c hc
    rw [sysMmap_of_not_refused hrefused]
    split
    · exact halloc
    · cases file with
      | readError error =>
        rw [File.mapped, mmapmemFree_mmapmemAlloc]
        exact h
      | missing | notReadable | notVnode | read => exact halloc

theorem panicked_sysMmap : (sysMmap s args v file).1.panicked = s.panicked := by
  cases hrefused : args.refused with
  | true => rw [sysMmap_of_refused hrefused]
  | false =>
    rw [sysMmap_of_not_refused hrefused]
    split
    · rfl
    · cases file with
      | readError error =>
        rw [File.mapped, mmapmemFree_mmapmemAlloc]
      | missing | notReadable | notVnode | read => rfl

/-- A chunk has whole pages inside the address space. -/
structure Chunk.Placed (c : Chunk) : Prop where
  start : c.start % pageSize = 0
  bound : c.start + c.size < wordEnd

theorem Free.placed {n : Nat} (h : Free s v roundedlen) : (Chunk.mk v roundedlen n ∅).Placed :=
  ⟨h.2.1, h.2.2.1⟩

theorem placed_of_reach (h : Reach call any Init s) : ∀ c ∈ s.mmcList, c.Placed := by
  refine h.inv (I := fun s => ∀ c ∈ s.mmcList, c.Placed) ?_ ?_
  · rintro _ rfl
    simp
  · intro s a s' hinv _ hs
    cases a with
    | mmap args v file =>
      obtain ⟨⟨-, -, hfree⟩, ⟨⟩⟩ := Option.ite_none_right_eq_some.mp hs
      refine chunks_sysMmap hinv fun hrefused => ?_
      exact Free.placed (hfree.resolve_left (by simp [hrefused]))
    | munmap addr len =>
      obtain ⟨-, ⟨⟩⟩ := Option.ite_none_right_eq_some.mp hs
      rw [sysMunmap]
      split
      · exact hinv
      · exact chunks_mmapmemFree hinv fun c hc _ => ⟨(hinv c hc).start, (hinv c hc).bound⟩

/-! ## A range that is unmapped -/

/-- The length can be rounded up and the range ends inside the address space. -/
def inAddressSpace (addr len : Nat) : Prop :=
  len ≤ wordEnd - pageSize ∧ addr + roundup2 len < wordEnd

/-- The address is inside a page, or no chunk passes the test. -/
def rejected (s : State) (addr len : Nat) : Prop :=
  addr % pageSize ≠ 0 ∨ ∀ c ∈ s.mmcList, c.around addr (roundup2 len) = false

/-- The range has its pages in the chunk. -/
def Chunk.Covers (c : Chunk) (addr len : Nat) : Prop :=
  c.start ≤ addr ∧ addr + roundedUp len ≤ c.start + c.size

theorem sysMunmap_eq_none_iff : (sysMunmap s addr len).2 = none ↔ ¬rejected s addr len := by
  rw [sysMunmap, rejected]
  split
  · next haddr => simp [haddr]
  · next haddr =>
    obtain ⟨hnone, heq⟩ | ⟨before, mc, after, hlist, haround, hfreed⟩ :=
      mmapmemFree_cases s addr (roundup2 len)
    · rw [heq]
      simp only [reduceCtorEq, false_iff, not_not]
      exact .inr hnone
    · have hmc : mc ∈ s.mmcList := hlist ▸ mem_append_right _ mem_cons_self
      have hres : (mmapmemFree s addr (roundup2 len)).2 = none := by
        cases hfreed with
        | panics _ heq | keeps _ _ heq | releases _ _ heq => rw [heq]
      simp only [hres, true_iff, not_or, not_forall]
      exact ⟨haddr, mc, hmc, by simp [haround]⟩

theorem Chunk.Placed.covers (h : c.Placed) (haround : c.around addr (roundup2 len) = true)
    (hspace : inAddressSpace addr len) : c.Covers addr len := by
  obtain ⟨hlen, hend⟩ := hspace
  simp only [Chunk.around, Bool.and_eq_true, decide_eq_true_eq, Nat.mod_eq_of_lt hend,
    Nat.mod_eq_of_lt h.bound] at haround
  rw [Chunk.Covers, ← roundup2_eq hlen]
  exact haround

/-- No chunk has a range for which something wraps. -/
theorem Chunk.Placed.inAddressSpace (h : c.Placed) (hlen : len < wordEnd)
    (hcovers : c.Covers addr len) : inAddressSpace addr len := by
  have hbound := h.bound
  obtain ⟨-, hend⟩ := hcovers
  have hle : len ≤ wordEnd - pageSize := by
    by_contra hlt
    -- such a length is rounded up to the whole address space
    simp only [roundedUp, wordEnd, pageSize] at *
    omega
  refine ⟨hle, ?_⟩
  rw [roundup2_eq hle]
  omega

/-! ## The count -/

structure Chunk.Counted (c : Chunk) : Prop extends c.Placed where
  pgsleft : c.pgsleft = c.left.card

/-- A range that is unmapped ends inside the address space, and has no page that has been
unmapped before. -/
def fresh (s : State) : Act → Prop
  | .mmap _ _ _ => True
  | .munmap addr len => addr + roundup2 len < wordEnd ∧
      ∀ c ∈ s.mmcList, Disjoint (pages addr (roundup2 len)) c.gone

instance (s : State) : (a : Act) → Decidable (fresh s a)
  | .mmap _ _ _ => inferInstanceAs (Decidable True)
  | .munmap addr len => inferInstanceAs (Decidable (addr + roundup2 len < wordEnd ∧
      ∀ c ∈ s.mmcList, Disjoint (pages addr (roundup2 len)) c.gone))

structure CountInv (s : State) : Prop where
  chunk : ∀ c ∈ s.mmcList, c.Counted
  panicked : s.panicked = false

theorem CountInv.mmapmemFree (h : CountInv s) (haddr : addr % pageSize = 0)
    (hend : addr + roundedlen < wordEnd)
    (hfresh : ∀ c ∈ s.mmcList, Disjoint (pages addr roundedlen) c.gone) :
    CountInv (mmapmemFree s addr roundedlen).1 := by
  have hunmap : ∀ c ∈ s.mmcList, c.around addr roundedlen = true →
      roundedlen / pageSize ≤ c.pgsleft ∧ (c.unmap addr roundedlen).Counted := by
    intro c hc haround
    obtain ⟨⟨hstart, hbound⟩, hcount⟩ := h.chunk c hc
    have hsub := Chunk.pages_subset_left hstart hbound haround haddr hend (hfresh c hc)
    obtain ⟨hle, hleft⟩ := Chunk.pgsleft_unmap hcount hsub
    exact ⟨hle, ⟨hstart, hbound⟩, hleft⟩
  refine ⟨chunks_mmapmemFree h.chunk fun c hc ha => (hunmap c hc ha).2, ?_⟩
  obtain ⟨-, heq⟩ | ⟨before, mc, after, hlist, haround, hfreed⟩ := mmapmemFree_cases s addr roundedlen
  · rw [heq]
    exact h.panicked
  have hmc : mc ∈ s.mmcList := hlist ▸ mem_append_right _ mem_cons_self
  cases hfreed with
  | panics hlt _ => exact absurd (hunmap mc hmc haround).1 (Nat.not_le.mpr hlt)
  | keeps _ _ heq | releases _ _ heq =>
    rw [heq]
    exact h.panicked

theorem CountInv.call {a : Act} (h : CountInv s) (hok : fresh s a) (hs : call s a = some s') :
    CountInv s' := by
  cases a with
  | mmap args v file =>
    obtain ⟨⟨-, -, hfree⟩, ⟨⟩⟩ := Option.ite_none_right_eq_some.mp hs
    refine ⟨chunks_sysMmap h.chunk fun hrefused => ?_, panicked_sysMmap.trans h.panicked⟩
    refine ⟨Free.placed (hfree.resolve_left (by simp [hrefused])), ?_⟩
    rw [Chunk.left, Finset.sdiff_empty, card_pages]
  | munmap addr len =>
    obtain ⟨-, ⟨⟩⟩ := Option.ite_none_right_eq_some.mp hs
    rw [sysMunmap]
    split
    · exact h
    · next haddr => exact h.mmapmemFree (not_not.mp haddr) hok.1 hok.2

theorem panicked_of_reach (h : Reach Mman.call fresh Init s) : s.panicked = false := by
  have hinv : CountInv s := by
    refine h.inv (I := CountInv) ?_ fun _ _ _ hi hok hs => hi.call hok hs
    rintro _ rfl
    exact ⟨by simp, rfl⟩
  exact hinv.panicked

end

/-- **Sizes.**  A `sys_mmap` that returns 0 has reserved `len` bytes at the address it returns,
if and only if `len` can be rounded up.  A `sys_munmap` that returns 0 was given a range inside
one chunk, if and only if nothing wraps on the way or no chunk passes the test.  And where no
page is unmapped twice, what is subtracted from `mm_pgsleft` is there. -/
theorem mmap_sizes (s : State) :
    (∀ (args : MmapArgs) (v : Nat) (file : File), args.len < wordEnd →
      (sysMmap s args v file).2 = none →
      ((∃ c, (sysMmap s args v file).1.mmcList = c :: s.mmcList ∧ c.start = v ∧
        args.len ≤ c.size) ↔ args.len ≤ wordEnd - pageSize)) ∧
    (∀ addr len : Nat, Reach call Trans.any Init s → addr < wordEnd → len < wordEnd →
      (((sysMunmap s addr len).2 = none → ∃ c ∈ s.mmcList, c.Covers addr len) ↔
        inAddressSpace addr len ∨ rejected s addr len)) ∧
    (Reach call fresh Init s → s.panicked = false) := by
  refine ⟨?_, ?_, fun hs => panicked_of_reach hs⟩
  · intro args v file hlen hres
    rw [sysMmap_eq hres, ← le_roundup2_iff hlen]
    constructor
    · rintro ⟨c, hc, -, hle⟩
      obtain ⟨rfl, -⟩ := cons.inj hc
      exact hle
    · intro hle
      exact ⟨_, rfl, rfl, hle⟩
  · intro addr len hs haddr hlen
    have hplaced := placed_of_reach hs
    rw [sysMunmap_eq_none_iff]
    constructor
    · intro himp
      by_cases hrej : rejected s addr len
      · exact .inr hrej
      · obtain ⟨c, hc, hcovers⟩ := himp hrej
        exact .inl ((hplaced c hc).inAddressSpace hlen hcovers)
    · rintro (hspace | hrej) hacc
      · simp only [rejected, not_or, not_forall, Bool.not_eq_false] at hacc
        obtain ⟨-, c, hc, haround⟩ := hacc
        exact ⟨c, hc, (hplaced c hc).covers haround hspace⟩
      · exact absurd hrej hacc

/-- Two pages are mapped, and the first one is unmapped. -/
theorem mmap_sizes_two_pages : ∃ s : State, Reach call fresh Init s ∧
    s.mmcList.length = 1 ∧ s.panicked = false := by
  obtain ⟨s, hreach, hlength⟩ := run_finds call fresh Init (fun s => s.mmcList.length = 1)
    [.mmap (anon 2) 0x10000 .missing, .munmap 0x10000 4096] rfl (by decide) (by decide)
  exact ⟨s, hreach, hlength, (mmap_sizes s).2.2 hreach⟩

/-- **Sizes that wrap.**  A mapping of all but one of `2^64` bytes succeeds with none; with two
pages mapped far below, the last page of the address space is unmapped; and of two pages the
first is unmapped, and then both, of which one is left. -/
theorem sizes_wrap :
    ((sysMmap ⟨[], [], [], false⟩ ⟨2 ^ 64 - 1, false, false, true, none, 0⟩ 0x10000 .missing).2 =
        none ∧
      (sysMmap ⟨[], [], [], false⟩ ⟨2 ^ 64 - 1, false, false, true, none, 0⟩ 0x10000
        .missing).1.mmcList = [⟨0x10000, 0, 0, ∅⟩]) ∧
    (∃ s : State, Reach call Trans.any Init s ∧
      s.mmcList = [⟨0x10000, 0x2000, 2, ∅⟩] ∧
      (sysMunmap s (2 ^ 64 - 4096) 4096).2 = none) ∧
    ∃ s : State, Reach call Trans.any Init s ∧ s.panicked = true := by
  refine ⟨⟨by decide, by decide⟩, ?_, ?_⟩
  · exact any_finds call Init _ [.mmap (anon 2) 0x10000 .missing] rfl (by decide)
  · exact any_finds call Init _
      [.mmap (anon 2) 0x10000 .missing, .munmap 0x10000 4096, .munmap 0x10000 0x2000] rfl (by decide)

end Librettos.Mman
