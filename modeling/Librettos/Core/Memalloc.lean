/-
# `Core.Memalloc` — the kernel heap

`bmk_memalloc` and `bmk_memfree` (`memalloc.c`).  A request is rounded up, with its header and
its alignment, to a block of `2^(bucket+5)` bytes; small blocks come from free lists that are
filled by cutting up pages, larger ones straight from the page allocator.  The header stands
in the eight bytes before the pointer and is all that `bmk_memfree` goes by.

The page allocator is taken at its specification: it answers with a block of the asked size
that starts at a multiple of its size and is apart from those it has given out, or with
`NULL`, and it asserts that the order is one of its levels.  The answer is part of the label of
a step.

Memory is modelled as far as headers go: `mem` has the header at an address, `none` where the
bytes are anything else.  Whatever is written over the bytes of a header destroys it: the
links of the free lists, which stand in the free blocks, and what the owner of an allocation
writes into it.

This file is the model with the arithmetic of sizes: `lt_bucketFor` says that a block is large
enough for what is asked of it, `alignUp_add` that a block has the pointer at its alignment.
-/
import Librettos.Lib.Dyadic
import Librettos.Lib.Trans

namespace Librettos.Memalloc

open Function (update)
open Nat

/-- `MINSHIFT` -/
def minshift : Nat := 5

/-- `BMK_PCPU_PAGE_SHIFT` -/
def pageShift : Nat := 12

/-- `FREELIST_LEVELS` -/
def freelistLevels : Nat := 64 - pageShift

/-- `LOCALBUCKETS` -/
def localbuckets : Nat := pageShift - minshift

/-- `MINALIGN` -/
def minalign : Nat := 16

/-- `MAGIC` -/
def magic : Nat := 0xef

/-- `sizeof(struct memalloc_hdr)` -/
def hdrSize : Nat := 8

/-- `sizeof(struct memalloc_freeblk)` -/
def linkSize : Nat := 16

/-- `unsigned long` is below this. -/
def wordEnd : Nat := 2 ^ 64

inductive Who
  | wiredbmk
  | rumpkern
  | user
deriving DecidableEq, Repr

/-- `struct memalloc_hdr` -/
structure Hdr where
  alignpad : Nat
  magic : Nat
  index : Nat
  who : Who
deriving DecidableEq, Repr

/-- An allocation that has not been freed: the request, the pointer that was returned, and the
block it is in. -/
structure Alloc where
  nbytes : Nat
  align : Nat
  who : Who
  ptr : Nat
  base : Nat
  index : Nat
deriving DecidableEq, Repr

/-- `out` are the blocks that the page allocator has given out, with their orders.  `halted` is
set by an assertion that fails and by `bmk_platform_halt`. -/
structure State where
  freebuckets : Nat → List Nat
  mem : Nat → Option Hdr
  out : Finset (Nat × Nat)
  live : List Alloc
  halted : Bool

/-! ## Sizes -/

/-- `(x + (align - 1)) & ~(align - 1)` -/
def alignUp (x align : Nat) : Nat := (x + (align - 1)) % wordEnd &&& (wordEnd - align)

/-- `__builtin_clzl`, for an argument that is not 0 -/
def clzl (x : Nat) : Nat := 63 - x.log2

/-- The bucket for a number of bytes. -/
def bucketFor (allocbytes : Nat) : Nat :=
  if allocbytes < 2 ^ minshift then 0
  else
    let bucket := 64 - clzl (allocbytes >>> minshift)
    if allocbytes &&& (allocbytes - 1) = 0 then bucket - 1 else bucket

/-- The size of a block. -/
def blockSize (bucket : Nat) : Nat := 2 ^ (bucket + minshift)

/-- `if (align < MINALIGN) align = MINALIGN` -/
def alignFor (align : Nat) : Nat := if align < minalign then minalign else align

/-- `allocbytes` -/
def allocbytesFor (nbytes align : Nat) : Nat := (nbytes + alignUp hdrSize align) % wordEnd

/-! ## The free lists -/

/-- Something is written to the `n` bytes at `lo`. -/
def clobber (mem : Nat → Option Hdr) (lo n : Nat) : Nat → Option Hdr :=
  fun a => if a + hdrSize ≤ lo ∨ lo + n ≤ a then mem a else none

/-- The back link of the first block of a list is written. -/
def backLink (mem : Nat → Option Hdr) : List Nat → Nat → Option Hdr
  | [] => mem
  | x :: _ => clobber mem (x + 8) 8

/-- `LIST_INSERT_HEAD` -/
def insertHead (s : State) (bucket frb : Nat) : State :=
  { s with
    freebuckets := update s.freebuckets bucket (frb :: s.freebuckets bucket)
    mem := clobber (backLink s.mem (s.freebuckets bucket)) frb linkSize }

/-- `bmk_pgalloc`: the answer of the page allocator, if it is a possible one; `none` is the failure
of its assertion. -/
def pgalloc (s : State) (order : Nat) (page : Option Nat) : Option (State × Option Nat) :=
  if freelistLevels ≤ order then none
  else
    match page with
    | none => some (s, none)
    | some p =>
      if p ≠ 0 ∧ 2 ^ (order + pageShift) ∣ p ∧ p + 2 ^ (order + pageShift) < wordEnd ∧
          ∀ q ∈ s.out, p + 2 ^ (order + pageShift) ≤ q.1 ∨ q.1 + 2 ^ (q.2 + pageShift) ≤ p then
        some ({ s with out := insert (p, order) s.out }, some p)
      else some (s, none)

/-- The loop of `morecore`: `n` blocks after the one at `p`. -/
def carve (s : State) (bucket sz : Nat) : Nat → Nat → State
  | 0, _ => s
  | n + 1, p => carve (insertHead s bucket (p + sz)) bucket sz n (p + sz)

/-- `morecore`; `none` is the failure of its assertion. -/
def morecore (s : State) (bucket : Nat) (page : Option Nat) : Option (State × Option Nat) :=
  let sz := blockSize bucket
  let nblks := 2 ^ pageShift / sz
  if nblks ≤ 1 then none
  else
    (pgalloc s 0 page).map fun r =>
      match r with
      | (s, none) => (s, none)
      | (s, some p) => (carve s bucket sz (nblks - 1) p, some p)

/-- `bucketalloc` -/
def bucketalloc (s : State) (bucket : Nat) (page : Option Nat) : Option (State × Option Nat) :=
  match s.freebuckets bucket with
  | [] => morecore s bucket page
  | frb :: rest =>
    some ({ s with
      freebuckets := update s.freebuckets bucket rest
      mem := backLink s.mem rest }, some frb)

/-! ## The functions -/

/-- Where the block of a request comes from. -/
def blockalloc (s : State) (bucket : Nat) (page : Option Nat) : Option (State × Option Nat) :=
  if localbuckets ≤ bucket then pgalloc s (bucket + minshift - pageShift) page
  else bucketalloc s bucket page

/-- The header of a block is written, and the allocation is there. -/
def State.place (s : State) (nbytes align : Nat) (who : Who) (bucket hdr : Nat) : State :=
  let rv := alignUp (hdr + hdrSize) (alignFor align)
  { s with
    mem := update (clobber s.mem (rv - hdrSize) hdrSize) (rv - hdrSize)
      (some ⟨(rv - hdr) % 2 ^ 32, magic, bucket % 2 ^ 8, who⟩)
    live := ⟨nbytes, align, who, rv, hdr, bucket⟩ :: s.live }

/-- `bmk_memalloc`; `none` is the failure of an assertion. -/
def memalloc (s : State) (nbytes align : Nat) (who : Who) (page : Option Nat) :
    Option (State × Option Nat) :=
  if align &&& (align - 1) ≠ 0 then some (s, none)
  else if 2 ^ 31 < alignFor align then none
  else
    let bucket := bucketFor (allocbytesFor nbytes (alignFor align))
    (blockalloc s bucket page).map fun r =>
      match r with
      | (s, none) => (s, none)
      | (s, some hdr) =>
        (s.place nbytes align who bucket hdr, some (alignUp (hdr + hdrSize) (alignFor align)))

/-- `bmk_memfree`; `none` is the halt for a wrong `who`. -/
def memfree (s : State) (cp : Nat) (who : Who) : Option State :=
  if cp = 0 then some s
  else
    match s.mem (cp - hdrSize) with
    | none => some s
    | some hdr =>
      if hdr.magic ≠ magic then some s
      else if hdr.who ≠ who then none
      else
        let origp := cp - hdr.alignpad
        if localbuckets ≤ hdr.index then
          some { s with out := s.out.erase (origp, hdr.index + minshift - pageShift) }
        else some (insertHead s hdr.index origp)

inductive Act
  | memalloc (nbytes align : Nat) (who : Who) (page : Option Nat)
  | memfree (a : Alloc)
  /-- the owner of an allocation writes to some of its bytes -/
  | write (a : Alloc) (lo n : Nat)
deriving DecidableEq, Repr

def step (s : State) : Act → Option State
  | .memalloc nbytes align who page =>
    if s.halted = false ∧ nbytes < wordEnd ∧ (align = 0 ∨ ∃ k ∈ List.range 32, align = 2 ^ k) then
      match memalloc s nbytes align who page with
      | none => some { s with halted := true }
      | some (s, _) => some s
    else none
  | .memfree a =>
    if s.halted = false ∧ a ∈ s.live then
      match memfree { s with live := s.live.erase a } a.ptr a.who with
      | none => some { s with halted := true }
      | some s => some s
    else none
  | .write a lo n =>
    if s.halted = false ∧ a ∈ s.live ∧ a.ptr ≤ lo ∧ lo + n ≤ a.ptr + a.nbytes then
      some { s with mem := clobber s.mem lo n }
    else none

/-- `bmk_memalloc_init` has been called. -/
structure Init (s : State) : Prop where
  freebuckets : ∀ i, s.freebuckets i = []
  out : s.out = ∅
  live : s.live = []
  halted : s.halted = false

/-- The size of a request with its header and its alignment is a size. -/
def roomy (_ : State) : Act → Prop
  | .memalloc nbytes align _ _ => nbytes + alignFor align < wordEnd
  | _ => True

instance (s : State) : (a : Act) → Decidable (roomy s a)
  | .memalloc nbytes align _ _ => inferInstanceAs (Decidable (nbytes + alignFor align < wordEnd))
  | .memfree _ => isTrue trivial
  | .write _ _ _ => isTrue trivial

/-- It is the size of a block. -/
def bounded (_ : State) : Act → Prop
  | .memalloc nbytes align _ _ => nbytes + alignFor align ≤ 2 ^ 63
  | _ => True

instance (s : State) : (a : Act) → Decidable (bounded s a)
  | .memalloc nbytes align _ _ => inferInstanceAs (Decidable (nbytes + alignFor align ≤ 2 ^ 63))
  | .memfree _ => isTrue trivial
  | .write _ _ _ => isTrue trivial

/-! ## The arithmetic -/

section
variable {k x nbytes : Nat}

/-- A multiple of a power of two below the end of the address space has another one before the
end. -/
theorem add_le_wordEnd (hk : k ≤ 64) (hx : 2 ^ k ∣ x) (hend : x < wordEnd) : x + 2 ^ k ≤ wordEnd := by
  obtain ⟨q, rfl⟩ := hx
  have hsplit : wordEnd = 2 ^ k * 2 ^ (64 - k) := by
    rw [← pow_add, Nat.add_sub_cancel' hk, wordEnd]
  rw [hsplit] at hend ⊢
  have hq : q + 1 ≤ 2 ^ (64 - k) := Nat.lt_of_mul_lt_mul_left hend
  calc 2 ^ k * q + 2 ^ k = 2 ^ k * (q + 1) := by ring
    _ ≤ 2 ^ k * 2 ^ (64 - k) := mul_le_mul_left _ hq

/-- At a multiple of the alignment, room for a header is one more multiple. -/
theorem alignUp_add (hk : 3 ≤ k) (hk' : k ≤ 64) (hx : 2 ^ k ∣ x) (hend : x + 2 ^ k < wordEnd) :
    alignUp (x + hdrSize) (2 ^ k) = x + 2 ^ k := by
  have h8 : 2 ^ 3 ≤ 2 ^ k := Nat.pow_le_pow_right two_pos hk
  have hnext := add_le_wordEnd hk' (dvd_add hx dvd_rfl) hend
  obtain ⟨q, rfl⟩ := hx
  simp only [wordEnd, hdrSize] at *
  rw [alignUp, wordEnd, mod_eq_of_lt (by omega), Dyadic.and_mask (by omega) hk', Dyadic.floor]
  have hsplit : 2 ^ k * q + 8 + (2 ^ k - 1) = 7 + 2 ^ k * (q + 1) := by
    rw [mul_add, mul_one]
    omega
  rw [hsplit, Nat.add_mul_div_left _ _ (Nat.two_pow_pos k), Nat.div_eq_of_lt (by omega)]
  ring

theorem allocbytesFor_eq (hk : 3 ≤ k) (hk' : k < 64) (hroom : nbytes + 2 ^ k < wordEnd) :
    allocbytesFor nbytes (2 ^ k) = nbytes + 2 ^ k := by
  have hup : alignUp (0 + hdrSize) (2 ^ k) = 0 + 2 ^ k := by
    refine alignUp_add hk hk'.le (dvd_zero _) ?_
    rw [zero_add]
    exact Nat.pow_lt_pow_right one_lt_two hk'
  rw [zero_add, zero_add] at hup
  rw [allocbytesFor, hup, mod_eq_of_lt hroom]

/-- The leading zeros tell between which powers of two a size is. -/
theorem clzl_spec (hx : x < wordEnd) (hlow : ¬ x < 2 ^ minshift) :
    ∃ l, 64 - clzl (x >>> minshift) = l + 1 ∧ 2 ^ (l + minshift) ≤ x ∧ x < 2 ^ (l + minshift + 1) := by
  have hne : x >>> minshift ≠ 0 := by
    rw [Nat.shiftRight_eq_div_pow]
    exact Nat.div_ne_zero_iff.mpr ⟨by simp [minshift], not_lt.mp hlow⟩
  have hlt : (x >>> minshift).log2 < 59 := by
    rw [log2_lt hne, shiftRight_eq_div_pow]
    exact Nat.div_lt_of_lt_mul hx
  have hself := log2_self_le hne
  have hself' := lt_log2_self (n := x >>> minshift)
  rw [clzl]
  generalize (x >>> minshift).log2 = l at *
  rw [shiftRight_eq_div_pow, Nat.le_div_iff_mul_le (Nat.two_pow_pos _), ← pow_add] at hself
  rw [shiftRight_eq_div_pow, Nat.div_lt_iff_lt_mul (Nat.two_pow_pos _), ← pow_add] at hself'
  refine ⟨l, ?_, hself, by rwa [add_right_comm]⟩
  omega

theorem le_blockSize (hx : x < wordEnd) : x ≤ blockSize (bucketFor x) := by
  rw [bucketFor]
  split
  · next hlow => exact hlow.le
  · next hlow =>
    obtain ⟨l, hl, -, hlt⟩ := clzl_spec hx hlow
    simp only [hl]
    split
    · next hpow =>
      -- a power of two below the next one is at most the one before that
      have hne : x ≠ 0 := by
        rintro rfl
        exact hlow (Nat.two_pow_pos _)
      have hself := Dyadic.eq_two_pow_of_and_pred hne hpow
      rw [hself] at hlt ⊢
      have := (Nat.pow_lt_pow_iff_right one_lt_two).mp hlt
      exact Nat.pow_le_pow_right two_pos (by simp only [Nat.add_sub_cancel]; omega)
    · rw [blockSize, add_right_comm]
      exact hlt.le

/-- No smaller block is large enough. -/
theorem bucketFor_le {b : Nat} (hx : x < wordEnd) (hle : x ≤ blockSize b) : bucketFor x ≤ b := by
  rw [bucketFor]
  split
  · exact zero_le _
  · next hlow =>
    obtain ⟨l, hl, hge, -⟩ := clzl_spec hx hlow
    have hlb := (Nat.pow_le_pow_iff_right one_lt_two).mp (hge.trans hle)
    simp only [hl]
    split
    · omega
    · next hpow =>
      -- of the power of two itself it would have been the bucket
      rcases eq_or_ne l b with rfl | hne
      · rw [hle.antisymm hge, blockSize, and_two_pow_sub_one_eq_mod, mod_self] at hpow
        exact absurd rfl hpow
      · omega

theorem blockSize_mul {b : Nat} (hb : b < localbuckets) :
    blockSize b * (2 ^ pageShift / blockSize b) = 2 ^ pageShift ∧
      1 < 2 ^ pageShift / blockSize b := by
  simp only [localbuckets, minshift, pageShift] at hb
  rw [blockSize, Nat.pow_div (by simp only [minshift, pageShift]; omega) two_pos, ← pow_add]
  simp only [minshift, pageShift]
  exact ⟨by congr 1; omega, Nat.one_lt_two_pow (by omega)⟩

theorem blockSize_eq_page {b : Nat} (hb : localbuckets ≤ b) :
    blockSize b = 2 ^ (b + minshift - pageShift + pageShift) := by
  rw [blockSize, Nat.sub_add_cancel]
  simp only [localbuckets, minshift, pageShift] at *
  omega

theorem alignFor_eq {align : Nat} (h : align = 0 ∨ ∃ k ∈ List.range 32, align = 2 ^ k) :
    align &&& (align - 1) = 0 ∧
      ∃ k, 4 ≤ k ∧ k ≤ 31 ∧ alignFor align = 2 ^ k ∧ max align minalign = 2 ^ k := by
  have hmax : alignFor align = max align minalign := by
    rw [alignFor]
    split
    · next hlt => exact (max_eq_right hlt.le).symm
    · next hge => exact (max_eq_left (not_lt.mp hge)).symm
  rw [hmax]
  rcases h with rfl | ⟨k, hk, rfl⟩
  · exact ⟨rfl, 4, le_rfl, by omega, rfl, rfl⟩
  · have hk32 := List.mem_range.mp hk
    refine ⟨by rw [and_two_pow_sub_one_eq_mod, mod_self], max k 4, le_max_right _ _,
      by omega, ?_, ?_⟩ <;>
    exact ((pow_right_mono₀ one_le_two).map_max (a := k) (b := 4)).symm

end

/-! ## What a search for a block does -/

/-- A possible answer of the page allocator. -/
structure PageFree (s : State) (order p : Nat) : Prop where
  ne : p ≠ 0
  aligned : 2 ^ (order + pageShift) ∣ p
  bound : p + 2 ^ (order + pageShift) < wordEnd
  apart : ∀ q ∈ s.out, p + 2 ^ (order + pageShift) ≤ q.1 ∨ q.1 + 2 ^ (q.2 + pageShift) ≤ p

section
variable {s s' : State} {b order p : Nat} {page : Option Nat}

theorem pgalloc_cases (s : State) (order : Nat) (page : Option Nat) :
    freelistLevels ≤ order ∧ pgalloc s order page = none ∨ pgalloc s order page = some (s, none) ∨
    ∃ p, page = some p ∧ PageFree s order p ∧
      pgalloc s order page = some ({ s with out := insert (p, order) s.out }, some p) := by
  by_cases hlevel : freelistLevels ≤ order
  · exact .inl ⟨hlevel, if_pos hlevel⟩
  unfold pgalloc
  rw [if_neg hlevel]
  cases page with
  | none => exact .inr (.inl rfl)
  | some p =>
    dsimp only
    split
    · next h => exact .inr (.inr ⟨p, rfl, ⟨h.1, h.2.1, h.2.2.1, h.2.2.2⟩, rfl⟩)
    · exact .inr (.inl rfl)

/-- Single pages are always a level. -/
theorem pgalloc_zero_cases (s : State) (page : Option Nat) :
    pgalloc s 0 page = some (s, none) ∨ ∃ p, page = some p ∧ PageFree s 0 p ∧
      pgalloc s 0 page = some ({ s with out := insert (p, 0) s.out }, some p) :=
  (pgalloc_cases s 0 page).resolve_left fun h => absurd h.1 (by decide)

theorem pgalloc_of_free (h : PageFree s 0 p) :
    pgalloc s 0 (some p) = some ({ s with out := insert (p, 0) s.out }, some p) := by
  rw [pgalloc, if_neg (by decide)]
  exact if_pos ⟨h.ne, h.aligned, h.bound, h.apart⟩

/-- Where a block can come from: from nowhere, with or without a failing assertion, from the page
allocator, from the free list, or from a new page, the rest of which goes to the free list. -/
inductive Search (s : State) (b : Nat) (page : Option Nat) : Option (State × Option Nat) → Prop
  | halt (hb : freelistLevels ≤ b + minshift - pageShift) : Search s b page none
  | nothing : Search s b page (some (s, none))
  | page {p : Nat} (hb : localbuckets ≤ b) (hfree : PageFree s (b + minshift - pageShift) p) :
      Search s b page (some ({ s with out := insert (p, b + minshift - pageShift) s.out }, some p))
  | list {frb : Nat} {rest : List Nat} (hb : b < localbuckets)
      (hlist : s.freebuckets b = frb :: rest) :
      Search s b page (some ({ s with
        freebuckets := update s.freebuckets b rest
        mem := backLink s.mem rest }, some frb))
  | core {p : Nat} (hb : b < localbuckets) (hlist : s.freebuckets b = []) (hpage : page = some p)
      (hfree : PageFree s 0 p) :
      Search s b page (some (carve { s with out := insert (p, 0) s.out } b (blockSize b)
        (2 ^ pageShift / blockSize b - 1) p, some p))

theorem blockalloc_search (s : State) (b : Nat) (page : Option Nat) :
    Search s b page (blockalloc s b page) := by
  rw [blockalloc]
  split
  · next hb =>
    obtain ⟨hlevel, heq⟩ | heq | ⟨p, -, hfree, heq⟩ :=
      pgalloc_cases s (b + minshift - pageShift) page
    · rw [heq]
      exact .halt hlevel
    · rw [heq]
      exact .nothing
    · rw [heq]
      exact .page hb hfree
  · next hb =>
    rw [not_le] at hb
    rw [bucketalloc]
    cases hlist : s.freebuckets b with
    | cons frb rest => exact .list hb hlist
    | nil =>
      have hblks := not_le.mpr (blockSize_mul hb).2
      obtain heq | ⟨p, hpage, hfree, heq⟩ := pgalloc_zero_cases s page
      · simp only [morecore, if_neg hblks, heq]
        exact .nothing
      · simp only [morecore, if_neg hblks, heq]
        exact .core hb hlist hpage hfree

theorem carve_frame (b sz : Nat) : ∀ (n p : Nat) (s : State),
    (carve s b sz n p).live = s.live ∧ (carve s b sz n p).halted = s.halted
  | 0, _, _ => ⟨rfl, rfl⟩
  | n + 1, p, s => carve_frame b sz n (p + sz) (insertHead s b (p + sz))

theorem blockalloc_frame {r : Option Nat} (h : blockalloc s b page = some (s', r)) :
    s'.live = s.live ∧ s'.halted = s.halted := by
  have hsearch := blockalloc_search s b page
  rw [h] at hsearch
  cases hsearch with
  | nothing | page _ _ | list _ _ => exact ⟨rfl, rfl⟩
  | core _ _ _ _ => exact carve_frame _ _ _ _ _

/-- What a request does that is given a pointer: it finds a block and puts the allocation there. -/
theorem memalloc_some {nbytes align rv : Nat} {who : Who}
    (h : memalloc s nbytes align who page = some (s', some rv)) :
    ∃ t hdr, blockalloc s (bucketFor (allocbytesFor nbytes (alignFor align))) page = some (t, some hdr) ∧
      s' = t.place nbytes align who (bucketFor (allocbytesFor nbytes (alignFor align))) hdr ∧
      rv = alignUp (hdr + hdrSize) (alignFor align) := by
  rw [memalloc] at h
  split at h
  · simp at h
  · split at h
    · cases h
    · obtain ⟨⟨t, r⟩, hblock, hr⟩ := Option.map_eq_some_iff.mp h
      cases r with
      | none => simp at hr
      | some hdr =>
        obtain ⟨rfl, hrv⟩ := Prod.mk.inj hr
        exact ⟨t, hdr, hblock, rfl, (Option.some.inj hrv).symm⟩

theorem memalloc_none {nbytes align : Nat} {who : Who}
    (h : memalloc s nbytes align who page = some (s', none)) : s' = s := by
  rw [memalloc] at h
  split at h
  · exact (Prod.mk.inj (Option.some.inj h)).1.symm
  · split at h
    · cases h
    · obtain ⟨⟨t, r⟩, hblock, hr⟩ := Option.map_eq_some_iff.mp h
      cases r with
      | some hdr => simp at hr
      | none =>
        have hsearch := blockalloc_search s
          (bucketFor (allocbytesFor nbytes (alignFor align))) page
        rw [hblock] at hsearch
        cases hsearch
        exact (Prod.mk.inj hr).1.symm

theorem memalloc_live {nbytes align rv : Nat} {who : Who}
    (h : memalloc s nbytes align who page = some (s', some rv)) :
    ∃ a, s'.live = a :: s.live ∧ a.ptr = rv := by
  obtain ⟨t, hdr, hblock, rfl, rfl⟩ := memalloc_some h
  exact ⟨_, congrArg (_ :: ·) (blockalloc_frame hblock).1, rfl⟩

theorem memalloc_halted {nbytes align : Nat} {who : Who} {r : Option Nat}
    (h : memalloc s nbytes align who page = some (s', r)) : s'.halted = s.halted := by
  cases r with
  | none => rw [memalloc_none h]
  | some rv =>
    obtain ⟨t, hdr, hblock, rfl, -⟩ := memalloc_some h
    exact (blockalloc_frame hblock).2

end

end Librettos.Memalloc
