/-
# `Core.MemallocBooks` — the books of the heap

What `bmk_memfree` knows of a block is in the eight bytes before the pointer: how far back the
block starts, and which bucket it is from (`memalloc.c`).  From that it decides on the free list
or on the order for `bmk_pgfree`, and counts the block out of `nmalloc`.  So the books are right
as long as a header reads as it was written, and that it does so is what `Core.MemallocSafe`
shows.  Here the books are kept with it:

    nmalloc    as in the source: mallocs minus frees of each bucket, in an unsigned int
    cores      the pages that `morecore` got for each bucket
    returned   what was given to `bmk_pgfree`, with the order

The blocks of a bucket, free and live, are at all times what its pages were cut into
(`books_kept`).  `nmalloc` counts modulo `2^32`, and a heap of 8 TiB has that many blocks of half
a page (`nmalloc_wraps`).
-/
import Librettos.Core.MemallocSafe

namespace Librettos.Memalloc

open List Nat State Trans
open Function (update update_of_ne update_self)

/-- What `bmk_memfree` reads from a header: the start of the block and the bucket. -/
def decode (s : State) (cp : Nat) : Option (Nat × Nat) :=
  (s.mem (cp - hdrSize)).bind fun hdr =>
    if hdr.magic = magic then some (cp - hdr.alignpad, hdr.index) else none

structure Books where
  heap : State
  nmalloc : Nat → Nat
  cores : Nat → List Nat
  returned : List (Nat × Nat)

/-- `unsigned` is below this. -/
def uintEnd : Nat := 2 ^ 32

/-- The block was found in `bucketalloc`: `nmalloc[bucket]++`, and where the list was empty,
`morecore` got a page. -/
def Books.allocated (b : Books) (bucket : Nat) (page : Option Nat) (heap : State) : Books :=
  { b with
    heap := heap
    nmalloc := update b.nmalloc bucket ((b.nmalloc bucket + 1) % uintEnd)
    cores :=
      if b.heap.freebuckets bucket = [] then
        update b.cores bucket (page.toList ++ b.cores bucket)
      else b.cores }

/-- `bmk_memalloc` -/
def Books.memalloc (b : Books) (nbytes align : Nat) (who : Who) (page : Option Nat) :
    Option Books :=
  let bucket := bucketFor (allocbytesFor nbytes (alignFor align))
  (Memalloc.memalloc b.heap nbytes align who page).map fun r =>
    if r.2 ≠ none ∧ bucket < localbuckets then b.allocated bucket page r.1
    else { b with heap := r.1 }

/-- `bmk_memfree`: `nmalloc[index]--`, or `bmk_pgfree`. -/
def Books.memfree (b : Books) (cp : Nat) (who : Who) : Option Books :=
  (Memalloc.memfree b.heap cp who).map fun heap =>
    match decode b.heap cp with
    | none => { b with heap := heap }
    | some (origp, index) =>
      if localbuckets ≤ index then
        { b with
          heap := heap
          returned := (origp, index + minshift - pageShift) :: b.returned }
      else
        { b with
          heap := heap
          nmalloc := update b.nmalloc index
            ((b.nmalloc index + uintEnd - 1) % uintEnd) }

/-- The caller of `bmk_memfree` gives the allocation up. -/
def Books.giveUp (b : Books) (a : Alloc) : Books :=
  { b with heap := { b.heap with live := b.heap.live.erase a } }

def Books.halt (b : Books) : Books := { b with heap := { b.heap with halted := true } }

/-- A step of the heap, with its books. -/
def Books.step (b : Books) : Act → Option Books
  | .memalloc nbytes align who page =>
    if b.heap.halted = false ∧ nbytes < wordEnd ∧
        (align = 0 ∨ ∃ k ∈ List.range 32, align = 2 ^ k) then
      some ((b.memalloc nbytes align who page).getD b.halt)
    else none
  | .memfree a =>
    if b.heap.halted = false ∧ a ∈ b.heap.live then
      some (((b.giveUp a).memfree a.ptr a.who).getD (b.giveUp a).halt)
    else none
  | .write a lo n =>
    if b.heap.halted = false ∧ a ∈ b.heap.live ∧ a.ptr ≤ lo ∧ lo + n ≤ a.ptr + a.nbytes then
      some { b with heap := { b.heap with mem := clobber b.heap.mem lo n } }
    else none

structure Books.Init (b : Books) : Prop where
  heap : Memalloc.Init b.heap
  nmalloc : ∀ i, b.nmalloc i = 0
  cores : ∀ i, b.cores i = []

/-- The requests are for less than `2^62` bytes. -/
def moderate (_ : Books) : Act → Prop
  | .memalloc nbytes _ _ _ => nbytes < 2 ^ 62
  | .memfree _ => True
  | .write _ _ _ => True

/-! ## The blocks of a page -/

/-- What a page is cut into. -/
def blocksOf (i p : Nat) : List Nat :=
  (List.range (2 ^ pageShift / blockSize i)).map fun k => p + blockSize i * k

/-- The blocks after the first one, the last one in front. -/
def cut (p sz n : Nat) : List Nat := ((List.range n).map fun k => p + sz * (k + 1)).reverse

theorem cut_succ (p sz n : Nat) : cut p sz (n + 1) = cut (p + sz) sz n ++ [p + sz] := by
  have hshift : ∀ k, p + sz * (k + 1 + 1) = p + sz + sz * (k + 1) := fun k => by ring
  simp only [cut, range_succ_eq_map, map_cons, map_map, reverse_cons]
  simp [Function.comp_def, hshift]

theorem carve_freebuckets (b sz : Nat) : ∀ (n p : Nat) (s : State), (carve s b sz n p).freebuckets =
      update s.freebuckets b (cut p sz n ++ s.freebuckets b)
  | 0, p, s => by simp [carve, cut]
  | n + 1, p, s => by
    rw [carve, carve_freebuckets b sz n, cut_succ]
    simp [insertHead]

theorem carve_out (b sz : Nat) : ∀ (n p : Nat) (s : State), (carve s b sz n p).out = s.out
  | 0, _, _ => rfl
  | n + 1, p, s => by rw [carve, carve_out b sz n, insertHead]

theorem blocksOf_perm {i : Nat} (hi : i < localbuckets) (p : Nat) :
    (blocksOf i p).Perm (p :: cut p (blockSize i) (2 ^ pageShift / blockSize i - 1)) := by
  obtain ⟨-, hblks⟩ := blockSize_mul hi
  obtain ⟨n, hn⟩ := Nat.exists_eq_add_of_lt (Nat.zero_lt_one.trans hblks)
  have hn' : 2 ^ pageShift / blockSize i = n + 1 := by omega
  rw [blocksOf, hn', Nat.add_sub_cancel, range_succ_eq_map, cut]
  simp only [map_cons, map_map, mul_zero, add_zero]
  exact (reverse_perm _).symm.cons p

theorem mem_page_iff {i : Nat} (hi : i < localbuckets) (p x : Nat) :
    (p ≤ x ∧ x < p + 2 ^ pageShift) ↔ ∃ y ∈ blocksOf i p, y ≤ x ∧ x < y + blockSize i := by
  obtain ⟨hmul, -⟩ := blockSize_mul hi
  have hpos : 0 < blockSize i := blockSize_pos i
  simp only [blocksOf, mem_map, mem_range]
  constructor
  · rintro ⟨hle, hlt⟩
    have hdiv := div_add_mod (x - p) (blockSize i)
    have hmod := mod_lt (x - p) hpos
    refine ⟨_, ⟨(x - p) / blockSize i, ?_, rfl⟩, by omega, by omega⟩
    rw [div_lt_iff_lt_mul hpos, mul_comm, hmul]
    omega
  · rintro ⟨_, ⟨k, hk, rfl⟩, hle, hlt⟩
    have hstop : blockSize i * k + blockSize i ≤ 2 ^ pageShift :=
      calc blockSize i * k + blockSize i = blockSize i * (k + 1) := by ring
        _ ≤ blockSize i * (2 ^ pageShift / blockSize i) := mul_le_mul_left _ hk
        _ = 2 ^ pageShift := hmul
    omega

/-! ## The invariant -/

/-- The blocks of a bucket that are live. -/
def liveIn (i : Nat) (live : List Alloc) : List Nat :=
  (live.filter fun a => decide (a.index = i)).map Alloc.base

/-- What is true of the books of one bucket. -/
structure Bucket (i nmalloc : Nat) (free cores : List Nat) (live : List Alloc) : Prop where
  nmalloc : nmalloc = (liveIn i live).length % uintEnd
  blocks : (free ++ liveIn i live).Perm (cores.flatMap (blocksOf i))

structure BooksInv (b : Books) : Prop where
  heap : Inv b.heap
  pages : ∀ a ∈ b.heap.live, localbuckets ≤ a.index →
    (a.base, a.index + minshift - pageShift) ∈ b.heap.out
  bucket : ∀ i < localbuckets,
    Bucket i (b.nmalloc i) (b.heap.freebuckets i) (b.cores i) b.heap.live

section
variable {i nmalloc x : Nat} {free cores : List Nat} {live : List Alloc} {a : Alloc}

theorem liveIn_cons_of_eq (h : a.index = i) : liveIn i (a :: live) = a.base :: liveIn i live := by
  simp [liveIn, h]

theorem liveIn_cons_of_ne (h : a.index ≠ i) : liveIn i (a :: live) = liveIn i live := by
  simp [liveIn, h]

theorem liveIn_perm {live' : List Alloc} (h : live.Perm live') :
    (liveIn i live).Perm (liveIn i live') :=
  (h.filter _).map _

theorem Bucket.perm {live' : List Alloc} (h : Bucket i nmalloc free cores live)
    (hp : live.Perm live') : Bucket i nmalloc free cores live' where
  nmalloc := h.nmalloc.trans (congrArg (· % uintEnd) (liveIn_perm hp).length_eq)
  blocks := ((liveIn_perm hp).append_left free).symm.trans h.blocks

theorem Bucket.other (hne : a.index ≠ i) :
    Bucket i nmalloc free cores (a :: live) ↔ Bucket i nmalloc free cores live := by
  constructor
  · rintro ⟨hn, hb⟩
    rw [liveIn_cons_of_ne hne] at hn hb
    exact ⟨hn, hb⟩
  · rintro ⟨hn, hb⟩
    exact ⟨by rwa [liveIn_cons_of_ne hne], by rwa [liveIn_cons_of_ne hne]⟩

theorem Bucket.count (h : Bucket i nmalloc free cores live) (ha : a.index = i) :
    (nmalloc + 1) % uintEnd = (liveIn i (a :: live)).length % uintEnd := by
  rw [h.nmalloc, liveIn_cons_of_eq ha, length_cons, mod_add_mod]

theorem Bucket.take (h : Bucket i nmalloc (a.base :: free) cores live) (ha : a.index = i) :
    Bucket i ((nmalloc + 1) % uintEnd) free cores (a :: live) := by
  refine ⟨h.count ha, ?_⟩
  rw [liveIn_cons_of_eq ha]
  exact perm_middle.trans h.blocks

theorem Bucket.give (h : Bucket i nmalloc free cores (a :: live)) (ha : a.index = i) :
    Bucket i ((nmalloc + uintEnd - 1) % uintEnd) (a.base :: free) cores live := by
  obtain ⟨hn, hb⟩ := h
  rw [liveIn_cons_of_eq ha] at hn hb
  refine ⟨?_, perm_middle.symm.trans hb⟩
  rw [length_cons] at hn
  simp only [uintEnd] at *
  omega

theorem Bucket.core (h : Bucket i nmalloc [] cores live) (hi : i < localbuckets)
    (ha : a.index = i) :
    Bucket i ((nmalloc + 1) % uintEnd) (cut a.base (blockSize i) (2 ^ pageShift / blockSize i - 1))
      (a.base :: cores) (a :: live) := by
  refine ⟨h.count ha, ?_⟩
  rw [liveIn_cons_of_eq ha, flatMap_cons]
  have hold : (liveIn i live).Perm (cores.flatMap (blocksOf i)) := h.blocks
  exact perm_middle.trans (((blocksOf_perm hi a.base).symm.append hold))

end

section
variable {b b' : Books} {a : Alloc}

theorem Books.Init.inv (h : b.Init) : BooksInv b where
  heap := h.heap.inv
  pages := by simp [h.heap.live]
  bucket := by
    intro i _
    refine ⟨?_, ?_⟩
    · simp [h.nmalloc, liveIn, h.heap.live]
    · simp [h.heap.freebuckets, h.cores, liveIn, h.heap.live]

/-- The allocation that is placed in a block of a bucket below 7 is in the books. -/
theorem BooksInv.placed {t : State} {bucket nbytes align hdr : Nat} {who : Who}
    {page : Option Nat} (h : BooksInv b) (hsearch : Search b.heap bucket page (some (t, some hdr)))
    (hinv : Inv (t.place nbytes align who bucket hdr)) :
    BooksInv (if bucket < localbuckets then
      b.allocated bucket page (t.place nbytes align who bucket hdr)
      else { b with heap := t.place nbytes align who bucket hdr }) := by
  cases hsearch with
  | page hb hfree =>
    rw [if_neg (not_lt.mpr hb)]
    refine ⟨hinv, fun c hc hlarge => ?_, fun i hi => ?_⟩
    · rcases mem_cons.mp hc with rfl | hc
      · exact Finset.mem_insert_self _ _
      · exact Finset.mem_insert_of_mem (h.pages c hc hlarge)
    · exact (Bucket.other (ne_of_gt (hi.trans_le hb))).mpr (h.bucket i hi)
  | list hb hlist =>
    rw [if_pos hb]
    refine ⟨hinv, fun c hc hlarge => ?_, fun i hi => ?_⟩
    · rcases mem_cons.mp hc with rfl | hc
      · exact absurd hlarge (not_le.mpr hb)
      · exact h.pages c hc hlarge
    · have hbucket := h.bucket i hi
      simp only [Books.allocated, place, hlist, reduceCtorEq, if_false]
      by_cases hib : i = bucket
      · subst hib
        rw [hlist] at hbucket
        rw [update_self, update_self]
        exact Bucket.take hbucket rfl
      · rw [update_of_ne hib, update_of_ne hib]
        exact (Bucket.other (Ne.symm hib)).mpr hbucket
  | core hb hlist hpage hfree =>
    subst hpage
    rw [if_pos hb]
    refine ⟨hinv, fun c hc hlarge => ?_, fun i hi => ?_⟩
    · simp only [Books.allocated, place, (carve_frame _ _ _ _ _).1, carve_out] at hc ⊢
      rcases mem_cons.mp hc with rfl | hc
      · exact absurd hlarge (not_le.mpr hb)
      · exact Finset.mem_insert_of_mem (h.pages c hc hlarge)
    · have hbucket := h.bucket i hi
      simp only [Books.allocated, place, hlist, if_true, (carve_frame _ _ _ _ _).1, carve_freebuckets]
      by_cases hib : i = bucket
      · subst hib
        rw [hlist] at hbucket
        simp only [update_self, append_nil, Option.toList_some, cons_append, nil_append]
        exact Bucket.core (a := ⟨nbytes, align, who, _, _, _⟩) hbucket hi rfl
      · simp only [update_of_ne hib]
        exact (Bucket.other (Ne.symm hib)).mpr hbucket

theorem BooksInv.memalloc {nbytes align : Nat} {who : Who} {page : Option Nat} (h : BooksInv b)
    (halign : align = 0 ∨ ∃ k ∈ range 32, align = 2 ^ k) (hle : nbytes + alignFor align ≤ 2 ^ 63) :
    ∃ b', b.memalloc nbytes align who page = some b' ∧ BooksInv b' := by
  obtain ⟨hkeep, hreturn⟩ := h.heap.memalloc halign (lt_of_le_of_lt hle (by decide)) who page
  obtain ⟨⟨s', r⟩, hmem⟩ := hreturn hle
  have hinv := hkeep _ hmem
  rw [Books.memalloc, hmem]
  refine ⟨_, rfl, ?_⟩
  cases r with
  | none =>
    obtain rfl := memalloc_none hmem
    simpa using h
  | some rv =>
    obtain ⟨t, hdr, hblock, rfl, -⟩ := memalloc_some hmem
    have hsearch := blockalloc_search b.heap
      (bucketFor (allocbytesFor nbytes (alignFor align))) page
    rw [hblock] at hsearch
    simpa using h.placed hsearch hinv

theorem Placed.decode {s : State} (h : Placed s.mem a) :
    decode s a.ptr = some (a.base, a.index) := by
  have hstart := h.start
  have hback : a.ptr - (a.ptr - a.base) = a.base := by
    omega
  simp [Memalloc.decode, h.header, hback]

theorem Books.memfree_eq (h : Placed b.heap.mem a) :
    (b.giveUp a).memfree a.ptr a.who = some
      (if localbuckets ≤ a.index then
        { b with
          heap := { b.heap with
            live := b.heap.live.erase a
            out := b.heap.out.erase (a.base, a.index + minshift - pageShift) }
          returned := (a.base, a.index + minshift - pageShift) :: b.returned }
      else
        { b with
          heap := insertHead { b.heap with live := b.heap.live.erase a } a.index a.base
          nmalloc := update b.nmalloc a.index
            ((b.nmalloc a.index + uintEnd - 1) % uintEnd) }) := by
  have hp : Placed (b.giveUp a).heap.mem a := h
  rw [Books.memfree, hp.memfree, Option.map_some, hp.decode]
  dsimp only
  split <;> rfl

theorem BooksInv.memfree (h : BooksInv b) (ha : a ∈ b.heap.live) :
    ∃ b', (b.giveUp a).memfree a.ptr a.who = some b' ∧ BooksInv b' := by
  have hp := h.heap.placed a ha
  have hperm := perm_cons_erase ha
  obtain ⟨s', hfree, hinv, -⟩ := h.heap.memfree ha
  have hp' : Placed { b.heap with live := b.heap.live.erase a }.mem a := hp
  obtain rfl := Option.some.inj (hp'.memfree.symm.trans hfree)
  have hbucket : ∀ i < localbuckets, Bucket i (b.nmalloc i) (b.heap.freebuckets i) (b.cores i)
      (a :: b.heap.live.erase a) := fun i hi => (h.bucket i hi).perm hperm
  refine ⟨_, Books.memfree_eq hp, ?_⟩
  split
  · next hlarge =>
    rw [if_pos hlarge] at hinv
    refine ⟨hinv, fun c hc hclarge => ?_, fun i hi => ?_⟩
    · -- no other allocation is at the same place
      have hapart := (h.heap.erase ha).2.live c hc
      have hpos := blockSize_pos c.index
      have hpos' := blockSize_pos a.index
      refine Finset.mem_erase.mpr ⟨?_, h.pages c (mem_of_mem_erase hc) hclarge⟩
      intro heq
      have hbase : c.base = a.base := (Prod.mk.inj heq).1
      omega
    · exact (Bucket.other (ne_of_gt (hi.trans_le hlarge))).mp (hbucket i hi)
  · next hsmall =>
    rw [if_neg hsmall] at hinv
    refine ⟨hinv, fun c hc => h.pages c (mem_of_mem_erase hc), fun i hi => ?_⟩
    simp only [insertHead]
    by_cases hia : i = a.index
    · subst hia
      rw [update_self, update_self]
      exact Bucket.give (hbucket _ hi) rfl
    · rw [update_of_ne hia, update_of_ne hia]
      exact (Bucket.other (Ne.symm hia)).mp (hbucket i hi)

theorem bounded_of_moderate {nbytes align : Nat} (h : nbytes < 2 ^ 62)
    (halign : align = 0 ∨ ∃ k ∈ range 32, align = 2 ^ k) : nbytes + alignFor align ≤ 2 ^ 63 := by
  obtain ⟨-, k, -, hk, hfor, -⟩ := alignFor_eq halign
  have hle : 2 ^ k ≤ 2 ^ 31 := Nat.pow_le_pow_right two_pos hk
  omega

theorem BooksInv.step {act : Act} (h : BooksInv b) (hok : moderate b act)
    (hs : b.step act = some b') : BooksInv b' := by
  cases act with
  | memalloc nbytes align who page =>
    obtain ⟨⟨-, -, halign⟩, hs⟩ := Option.ite_none_right_eq_some.mp hs
    have hmem : ∃ r, b.memalloc nbytes align who page = some r ∧ BooksInv r :=
      h.memalloc halign (bounded_of_moderate hok halign)
    obtain ⟨r, hr, hinv⟩ := hmem
    rw [hr] at hs
    cases hs
    exact hinv
  | memfree a =>
    obtain ⟨⟨-, ha⟩, hs⟩ := Option.ite_none_right_eq_some.mp hs
    obtain ⟨r, hr, hinv⟩ := h.memfree ha
    rw [hr] at hs
    cases hs
    exact hinv
  | write a lo n =>
    obtain ⟨⟨-, ha, hlo, hhi⟩, ⟨⟩⟩ := Option.ite_none_right_eq_some.mp hs
    exact ⟨h.heap.write ha hlo hhi, h.pages, h.bucket⟩

/-! ## The result -/

/-- The blocks of a bucket have the bytes of its pages, and no two of them one in common. -/
structure Partition (i : Nat) (blocks pages : List Nat) : Prop where
  cover : ∀ x, (∃ p ∈ pages, p ≤ x ∧ x < p + 2 ^ pageShift) ↔
    ∃ y ∈ blocks, y ≤ x ∧ x < y + blockSize i
  apart : blocks.Pairwise fun x y => Apart x i y i

theorem BooksInv.partition {i : Nat} (h : BooksInv b) (hi : i < localbuckets) :
    Partition i (b.heap.freebuckets i ++ liveIn i b.heap.live) (b.cores i) where
  cover := by
    intro x
    have hperm := (h.bucket i hi).blocks
    simp only [hperm.mem_iff, mem_flatMap, mem_page_iff hi]
    constructor
    · rintro ⟨p, hp, y, hy, hx⟩
      exact ⟨y, ⟨p, hp, hy⟩, hx⟩
    · rintro ⟨y, ⟨p, hp, hy⟩, hx⟩
      exact ⟨p, hp, y, hy, hx⟩
  apart := by
    refine pairwise_append.mpr ⟨h.heap.free i, ?_, fun x hx y hy => ?_⟩
    · rw [liveIn, pairwise_map]
      refine (h.heap.live.sublist filter_sublist).imp_of_mem fun {c d} hc hd hcd => ?_
      rw [mem_filter, decide_eq_true_eq] at hc hd
      rwa [hc.2, hd.2] at hcd
    · simp only [liveIn, mem_map, mem_filter, decide_eq_true_eq] at hy
      obtain ⟨c, ⟨hc, rfl⟩, rfl⟩ := hy
      exact (h.heap.mixed c hc c.index x hx).symm

/-- What `bmk_memfree` gives back to the page allocator has been taken with this order. -/
theorem BooksInv.returned (h : BooksInv b) (ha : a ∈ b.heap.live) (hlarge : localbuckets ≤ a.index)
    (hs : b.step (.memfree a) = some b') :
    b'.returned = (a.base, a.index + minshift - pageShift) :: b.returned ∧
      (a.base, a.index + minshift - pageShift) ∈ b.heap.out := by
  obtain ⟨-, hs⟩ := Option.ite_none_right_eq_some.mp hs
  rw [Books.memfree_eq (h.heap.placed a ha), if_pos hlarge] at hs
  cases hs
  exact ⟨rfl, h.pages a ha hlarge⟩

/-- **The books are kept.**  In every run of requests below `2^62` bytes, `bmk_memfree` reads from
the header of an allocation where its block starts and which bucket it is from.  The free list
and the live blocks of a bucket are a partition of the pages that `morecore` got for it, and
`nmalloc` has the number of the live ones modulo `2^32`.  A larger block goes back to the page
allocator with the order with which it was taken. -/
theorem books_kept (h : Reach Books.step moderate Books.Init b) :
    (∀ a ∈ b.heap.live, decode b.heap a.ptr = some (a.base, a.index)) ∧
    (∀ i < localbuckets,
      Partition i (b.heap.freebuckets i ++ liveIn i b.heap.live) (b.cores i) ∧
      b.nmalloc i = (liveIn i b.heap.live).length % uintEnd) ∧
    ∀ a ∈ b.heap.live, localbuckets ≤ a.index → ∀ b', b.step (.memfree a) = some b' →
      b'.returned = (a.base, a.index + minshift - pageShift) :: b.returned ∧
      (a.base, a.index + minshift - pageShift) ∈ b.heap.out := by
  have hinv : BooksInv b :=
    h.inv (fun _ h0 => h0.inv) fun _ _ _ hi hok hs => hi.step hok hs
  refine ⟨fun a ha => (hinv.heap.placed a ha).decode, fun i hi => ?_, fun a ha hlarge b' hs => ?_⟩
  · exact ⟨hinv.partition hi, (hinv.bucket i hi).nmalloc⟩
  · exact hinv.returned ha hlarge hs

end

instance (b : Books) : (act : Act) → Decidable (moderate b act)
  | .memalloc nbytes _ _ _ => inferInstanceAs (Decidable (nbytes < 2 ^ 62))
  | .memfree _ => isTrue trivial
  | .write _ _ _ => isTrue trivial

def bootBooks : Books := ⟨boot, fun _ => 0, fun _ => [], []⟩

theorem bootBooks_init : bootBooks.Init := ⟨boot_init, fun _ => rfl, fun _ => rfl⟩

/-- Three allocations from two pages of one bucket, the second one freed. -/
theorem books_kept_three : ∃ b : Books, Reach Books.step moderate Books.Init b ∧
    b.cores 6 = [0x20000, 0x10000] ∧ b.nmalloc 6 = 2 ∧
    Partition 6 (b.heap.freebuckets 6 ++ liveIn 6 b.heap.live) (b.cores 6) := by
  obtain ⟨b, hreach, hcores, hcount⟩ := run_finds Books.step moderate Books.Init
    (fun b => b.cores 6 = [0x20000, 0x10000] ∧ b.nmalloc 6 = 2)
    [.memalloc 1500 0 .user (some 0x10000), .memalloc 1600 64 .user none,
      .memalloc 1700 0 .rumpkern (some 0x20000), .memfree ⟨1600, 64, .user, 0x10840, 0x10800, 6⟩]
    bootBooks_init (by decide +kernel) (by decide +kernel)
  exact ⟨b, hreach, hcores, hcount, ((books_kept hreach).2.1 6 (by decide)).1⟩

/-! ## The count wraps -/

/-- Every page so far has two live blocks. -/
structure Filled (n : Nat) (b : Books) : Prop where
  reach : Reach Books.step moderate Books.Init b
  halted : b.heap.halted = false
  free : b.heap.freebuckets 6 = []
  out : ∀ q ∈ b.heap.out, q.2 = 0 ∧ q.1 + 2 ^ pageShift ≤ 2 ^ pageShift * (n + 1)
  live : (liveIn 6 b.heap.live).length = 2 * n

theorem Books.step_half {b : Books} {t : State} {page : Option Nat} {hdr : Nat}
    (hhalted : b.heap.halted = false) (hblock : blockalloc b.heap 6 page = some (t, some hdr)) :
    b.step (.memalloc 1500 0 .user page) =
      some (b.allocated 6 page (t.place 1500 0 .user 6 hdr)) := by
  have hbucket : bucketFor (allocbytesFor 1500 (alignFor 0)) = 6 := by decide +kernel
  have hmem : Memalloc.memalloc b.heap 1500 0 .user page =
      some (t.place 1500 0 .user 6 hdr, some (alignUp (hdr + hdrSize) (alignFor 0))) := by
    rw [Memalloc.memalloc, if_neg (by decide), if_neg (by decide)]
    simp only [hbucket, hblock, Option.map_some]
  rw [Books.step, if_pos ⟨hhalted, by decide, .inl rfl⟩, Books.memalloc, hmem]
  simp [hbucket, localbuckets, pageShift, minshift]

theorem Filled.next {n : Nat} {b : Books} (h : Filled n b) (hn : n < 2 ^ 40) :
    ∃ b', Filled (n + 1) b' := by
  have hfree : PageFree b.heap 0 (2 ^ pageShift * (n + 1)) := by
    constructor
    case ne => exact mul_ne_zero (by decide) (succ_ne_zero n)
    case aligned => exact dvd_mul_right _ _
    case bound =>
      simp only [pageShift, wordEnd]
      omega
    case apart =>
      intro q hq
      obtain ⟨horder, hle⟩ := h.out q hq
      rw [horder, zero_add]
      exact .inr hle
  have hblks : 2 ^ pageShift / blockSize 6 - 1 = 1 := by decide
  have hfirst : blockalloc b.heap 6 (some (2 ^ pageShift * (n + 1))) =
      some (carve { b.heap with out := insert (2 ^ pageShift * (n + 1), 0) b.heap.out } 6
        (blockSize 6) 1 (2 ^ pageShift * (n + 1)), some (2 ^ pageShift * (n + 1))) := by
    rw [blockalloc, if_neg (by decide), bucketalloc, h.free]
    rw [morecore, if_neg (by decide), pgalloc_of_free hfree, hblks]
    rfl
  have hstep := Books.step_half h.halted hfirst
  generalize hb1 : b.allocated 6 _ _ = b1 at hstep
  have hlist : b1.heap.freebuckets 6 = [2 ^ pageShift * (n + 1) + blockSize 6] := by
    subst hb1
    simp [Books.allocated, place, carve, insertHead, h.free]
  have hhalted : b1.heap.halted = false := by
    subst hb1
    exact h.halted
  have hsecond : blockalloc b1.heap 6 none = some ({ b1.heap with
      freebuckets := update b1.heap.freebuckets 6 []
      mem := backLink b1.heap.mem [] }, some (2 ^ pageShift * (n + 1) + blockSize 6)) := by
    rw [blockalloc, if_neg (by decide), bucketalloc, hlist]
  refine ⟨_, .next (.next h.reach ?_ hstep) ?_ (Books.step_half hhalted hsecond), hhalted, ?_, ?_,
    ?_⟩
  · exact (by decide : 1500 < 2 ^ 62)
  · exact (by decide : 1500 < 2 ^ 62)
  · simp [Books.allocated, place]
  · subst hb1
    intro q hq
    simp only [Books.allocated, place, carve_out, Finset.mem_insert] at hq
    rcases hq with rfl | hq
    · exact ⟨rfl, (mul_succ _ _).ge⟩
    · obtain ⟨horder, hle⟩ := h.out q hq
      exact ⟨horder, hle.trans (mul_le_mul_left _ (le_succ _))⟩
  · subst hb1
    simp only [Books.allocated, place, (carve_frame _ _ _ _ _).1, liveIn_cons_of_eq, length_cons, h.live]
    ring

theorem filled (n : Nat) (hn : n ≤ 2 ^ 40) : ∃ b, Filled n b := by
  induction n with
  | zero => exact ⟨bootBooks, .start bootBooks_init, rfl, rfl, by simp [bootBooks, boot], rfl⟩
  | succ n ih =>
    obtain ⟨b, hb⟩ := ih (by omega)
    exact hb.next (by omega)

/-- **The count wraps.**  After `2^32` requests that nothing was freed of, each of half a page, the
count of the bucket is 0. -/
theorem nmalloc_wraps : ∃ b : Books, Reach Books.step moderate Books.Init b ∧
    (liveIn 6 b.heap.live).length = 2 ^ 32 ∧ b.nmalloc 6 = 0 := by
  obtain ⟨b, hb⟩ := filled (2 ^ 31) (by decide)
  have hinv : BooksInv b :=
    hb.reach.inv (fun _ h0 => h0.inv) fun _ _ _ hi hok hs => hi.step hok hs
  have hcount := (hinv.bucket 6 (by decide)).nmalloc
  rw [hb.live] at hcount
  exact ⟨b, hb.reach, hb.live, hcount⟩

end Librettos.Memalloc
