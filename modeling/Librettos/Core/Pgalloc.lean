/-
# `Core.Pgalloc` — the buddy page allocator of `pgalloc.c`

Free memory is kept as chunks of `2 ^ order` pages, one list for each order, with
a header written into the first page of the chunk.  Allocation takes a chunk that
is large enough and well enough aligned and carves what is left of it into
chunks again; freeing clears the bits of the block and merges it with its buddy
as often as the buddy is a free chunk of the same order.

Whether the buddy is one is found out by looking at memory that may belong to
anybody: its bit in the bitmap says that the page is free, and then the header is
read.  That the page is the head of a chunk, and the header therefore one, is a
fact about all chunks together: they tile the free pages (`Lib.Dyadic`), and a
tile over a point aligned to the block's size starts there.

Addresses are natural numbers; the sizes that occur stay below `2 ^ 64` as long
as the memory does, so no wrap-around is involved.  A failed assertion is `none`.
What users write into their blocks is part of the system: the header words inside
a live block may change at any time.

**Proved here.**  For memory of any size, and any sequence of allocations, frees
and writes of the users:

    chunks and live blocks tile the memory, the bitmap marks the live ones,
    no assertion fails                                            (`buddy_invariant`)
    the chunks are the maximal aligned blocks of free pages, so allocation
    fails only when it must and freeing everything restores the start
                                                                  (`buddy_canonical`)
    only what is live decides what is on the lists                 (`buddy_forgets`)
    the range updates stay inside the bitmap                       (`bitmap_ranges`)
-/
import Librettos.Lib.Trans
import Librettos.Lib.Dyadic
import Librettos.Core.Bitmap

namespace Librettos.Pgalloc

open Function (forall_update_iff update update_of_ne update_self)
open Bitmap Dyadic List Nat Option Trans

/-! ## The program -/

/-- `BMK_PCPU_PAGE_SHIFT`. -/
def pageShift : Nat := 12

/-- `BMK_PCPU_PAGE_SIZE`. -/
def pageSize : Nat := 2 ^ pageShift

/-- `FREELIST_LEVELS`. -/
def freelistLevels : Nat := 8 * 8 - pageShift

def order2size (order : Nat) : Nat := 2 ^ (order + pageShift)

/-- `CHUNKMAGIC`. -/
def chunkMagic : Nat := 0x11020217

/-- The header of a `struct chunk`; the list entry is in `freelist`. -/
structure Chunk where
  level : Nat
  magic : Nat
  deriving DecidableEq, Repr

/-- The variables of `pgalloc.c`, and the memory as far as it holds headers. -/
structure Pg where
  minpageAddr : Nat
  maxpageAddr : Nat
  allocBitmap : Words
  chunk : Nat → Chunk
  freelist : Nat → List Nat
  totalkb : Nat
  usedkb : Nat

def vaToPg (s : Pg) (x : Nat) : Nat := (x - s.minpageAddr) / pageSize

def addrIsManaged (s : Pg) (addr : Nat) : Bool :=
  decide (s.minpageAddr ≤ addr) && decide (addr < s.maxpageAddr)

/-- The bit of the page.  The assertion of the source holds at both calls, which
are guarded by the same test. -/
def pageAllocated (s : Pg) (addr : Nat) : Bool := allocatedInMap s.allocBitmap (vaToPg s addr)

/-- The level in the header, which must be one. -/
def chunklevel (s : Pg) (ch : Nat) : Option Nat :=
  if (s.chunk ch).magic = chunkMagic then some (s.chunk ch).level else none

def freechunkLink (s : Pg) (addr order : Nat) : Pg :=
  { s with
    chunk := update s.chunk addr { level := order, magic := chunkMagic }
    freelist := update s.freelist order (addr :: s.freelist order) }

/-- `LIST_REMOVE` from the list of an order. -/
def unlink (s : Pg) (order addr : Nat) : Pg :=
  { s with freelist := update s.freelist order ((s.freelist order).erase addr) }

/-- `ch->magic = 0`. -/
def clearMagic (s : Pg) (addr : Nat) : Pg :=
  { s with chunk := update s.chunk addr { s.chunk addr with magic := 0 } }

/-- `__builtin_ctzl`, for a number that is not zero. -/
def ctzl (x : Nat) : Nat := ((List.range 64).find? fun i => x.testBit i).getD 64

/-- `__builtin_clzl`, for a number that is not zero. -/
def clzl (x : Nat) : Nat := 63 - Nat.log2 x

/-- The order of the next chunk of `carverange`. -/
def carveOrder (addr range : Nat) : Nat :=
  let i := ctzl addr
  let r := 8 * 8 - (clzl range + 1)
  (if i > r then r else i) - pageShift

/-- `carverange`.  Every round takes at least a page off the range, so `n` rounds
are enough for a range of `n` pages. -/
def carverange : Nat → Pg → Nat → Nat → Pg
  | 0, s, _, _ => s
  | n + 1, s, addr, range =>
    if range = 0 then s
    else
      let i := carveOrder addr range
      carverange n (freechunkLink s addr i) (addr + order2size i) (range - order2size i)

/-- `bmk_round_page`. -/
def roundPage (x : Nat) : Nat := (x + (pageSize - 1)) / pageSize * pageSize

/-- `bmk_trunc_page`. -/
def truncPage (x : Nat) : Nat := x / pageSize * pageSize

/-- The size of the bitmap for memory from `min` to `max`. -/
def bitmapSize (min max : Nat) : Nat :=
  roundPage ((truncPage max - roundPage min) / 2 ^ (pageShift + 3) + 1)

/-- `bmk_pgalloc_loadmem`, with whatever the memory holds. -/
def bmkPgallocLoadmem (mem : Nat → Chunk) (words : Words) (min max : Nat) : Option Pg :=
  if min < max then
    let minpage := roundPage min + bitmapSize min max
    let maxpage := truncPage max
    let range := maxpage - minpage
    let ones : Words := fun i => if i < bitmapSize min max / 8 then ~~~0#64 else words i
    let s : Pg :=
      { minpageAddr := minpage
        maxpageAddr := maxpage
        allocBitmap := mapFree ones 0 (range / pageSize)
        chunk := mem
        freelist := fun _ => []
        totalkb := range / 2 ^ 10
        usedkb := 0 }
    some (carverange (range / pageSize) s minpage range)
  else none

def satisfiesP (s : Pg) (i align : Nat) : Option Nat :=
  (s.freelist i).find? fun p => p &&& (align - 1) == 0

/-- The search for a bucket, and the chunk found in it. -/
def findBucket (s : Pg) (order align : Nat) : Option (Nat × Nat) :=
  (List.range' order (freelistLevels - order)).findSome? fun bucket =>
    (satisfiesP s bucket align).map fun ch => (bucket, ch)

/-- What the assertions of `bmk_pgalloc_align` admit. -/
def admits (order align : Nat) : Bool :=
  decide (pageSize ≤ align) && align &&& (align - 1) == 0 && decide (order < freelistLevels)

/-- What `bmk_pgalloc_align` does with the chunk it has unlinked: carve up what is
left of it and mark the block. -/
def takeChunk (s : Pg) (order bucket p : Nat) : Pg :=
  let len := order2size order
  let rest := order2size bucket - len
  let s₁ := carverange (rest / pageSize) (clearMagic s p) (p + len) rest
  { s₁ with
    allocBitmap := mapAlloc s₁.allocBitmap (vaToPg s₁ p) (2 ^ order)
    usedkb := s₁.usedkb + len / 2 ^ 10 }

/-- `bmk_pgalloc_align`. -/
def bmkPgallocAlign (s : Pg) (order align : Nat) : Option (Option Nat × Pg) :=
  if admits order align then
    match findBucket s order align with
    | none => some (none, s)
    | some (bucket, p) =>
      let s₁ := unlink s bucket p
      if (s₁.chunk p).magic = chunkMagic then
        let s₂ := takeChunk s₁ order bucket p
        if p &&& (align - 1) = 0 then some (some p, s₂) else none
      else none
  else none

/-- The merge loop of `bmk_pgfree`, with `n` orders left. -/
def merge : Nat → Pg → Nat → Nat → Option (Pg × Nat × Nat)
  | 0, s, freed, order => some (s, freed, order)
  | n + 1, s, freed, order =>
    let mask := order2size order
    let toMerge := if freed &&& mask = 0 then freed + mask else freed - mask
    if !addrIsManaged s toMerge || pageAllocated s toMerge then some (s, freed, order)
    else
      match chunklevel s toMerge with
      | none => none
      | some level =>
        if level ≠ order then some (s, freed, order)
        else
          -- the merged chunk starts at the lower one of the two
          let freed' := if freed &&& mask = 0 then freed else toMerge
          merge n (unlink (clearMagic (clearMagic s freed) toMerge) order toMerge) freed'
            (order + 1)

/-- `bmk_pgfree`. -/
def bmkPgfree (s : Pg) (pointer order : Nat) : Option Pg :=
  let s₁ := { s with
    allocBitmap := mapFree s.allocBitmap (vaToPg s pointer) (2 ^ order)
    usedkb := s.usedkb - order2size order / 2 ^ 10 }
  (merge (freelistLevels - order) s₁ pointer order).map fun r => freechunkLink r.1 r.2.1 r.2.2

/-! ## The system -/

/-- The allocator and the blocks that are out, by address and order. -/
structure State where
  pg : Pg
  live : Finset (Nat × Nat)

/-- A step: an allocation the assertions admit, a free of a live block with its own
order, or a user's write of header words into a live block. -/
inductive Act where
  | alloc (order align : Nat)
  | free (addr order : Nat)
  | write (addr order at_ : Nat) (hdr : Chunk)

def step (s : State) : Act → Option State
  | .alloc order align =>
    (bmkPgallocAlign s.pg order align).map fun
      | (none, pg) => { s with pg := pg }
      | (some p, pg) => { pg := pg, live := insert (p, order) s.live }
  | .free addr order =>
    if (addr, order) ∈ s.live then
      (bmkPgfree s.pg addr order).map fun pg => { pg := pg, live := s.live.erase (addr, order) }
    else none
  | .write addr order at_ hdr =>
    if (addr, order) ∈ s.live ∧ addr ≤ at_ ∧ at_ < addr + order2size order then
      some { s with pg := { s.pg with chunk := update s.pg.chunk at_ hdr } }
    else none

/-- The memory is large enough for its bitmap, and addresses are 64 bits wide. -/
def Enough (min max : Nat) : Prop :=
  min < max ∧ max < 2 ^ 64 ∧ roundPage min + bitmapSize min max ≤ truncPage max

/-- The state after `bmk_pgalloc_loadmem`. -/
def Init (min max : Nat) (s : State) : Prop :=
  (∃ mem words, bmkPgallocLoadmem mem words min max = some s.pg) ∧ s.live = ∅

/-! ## What the lists hold -/

/-- The chunk of an order at an address, as a block. -/
def blk (order addr : Nat) : Blk := { exp := order + pageShift, addr := addr }

/-- The blocks of a relation between orders and addresses. -/
def blocks (P : Nat → Nat → Prop) : Set Blk := {b | ∃ k, b.exp = k + pageShift ∧ P k b.addr}

section
variable {P Q : Nat → Nat → Prop} {k a : Nat}

theorem mem_blocks : blk k a ∈ blocks P ↔ P k a := by
  constructor
  · rintro ⟨j, hj, ha⟩
    have : k = j := add_right_cancel hj
    exact this ▸ ha
  · intro ha
    exact ⟨k, rfl, ha⟩

theorem blocks_insert (h : ∀ j b, Q j b ↔ j = k ∧ b = a ∨ P j b) :
    blocks Q = insert (blk k a) (blocks P) := by
  ext b
  constructor
  · rintro ⟨j, hj, hb⟩
    rcases (h j b.addr).mp hb with ⟨rfl, haddr⟩ | hb
    · exact .inl (Blk.ext hj haddr)
    · exact .inr ⟨j, hj, hb⟩
  · rintro (rfl | ⟨j, hj, hb⟩)
    · exact ⟨k, rfl, (h k a).mpr (.inl ⟨rfl, rfl⟩)⟩
    · exact ⟨j, hj, (h j b.addr).mpr (.inr hb)⟩

theorem blocks_erase (h : ∀ j b, Q j b ↔ ¬ (j = k ∧ b = a) ∧ P j b) :
    blocks Q = blocks P \ {blk k a} := by
  ext b
  constructor
  · rintro ⟨j, hj, hb⟩
    obtain ⟨hne, hb⟩ := (h j b.addr).mp hb
    refine ⟨⟨j, hj, hb⟩, fun heq => hne ⟨?_, congrArg Blk.addr heq⟩⟩
    exact add_right_cancel (hj.symm.trans (congrArg Blk.exp heq))
  · rintro ⟨⟨j, hj, hb⟩, hne⟩
    refine ⟨j, hj, (h j b.addr).mpr ⟨?_, hb⟩⟩
    rintro ⟨rfl, haddr⟩
    exact hne (Blk.ext hj haddr)

end

/-- The chunks on the free lists. -/
def chunks (s : Pg) : Set Blk := {b | ∃ k, b.exp = k + pageShift ∧ b.addr ∈ s.freelist k}

/-- The bytes of the pages whose bit is clear. -/
def free (s : Pg) : Set Nat :=
  {x | s.minpageAddr ≤ x ∧ x < s.maxpageAddr ∧ pageAllocated s x = false}

/-- The chunks tile `F` without buddies, no list names one twice, and every one has
its header.  During an operation `F` is not the free memory. -/
structure Shape (s : Pg) (F : Set Nat) : Prop where
  tiling : Tiling (chunks s) F
  noBuddy : NoBuddy (chunks s)
  nodup : ∀ k, (s.freelist k).Nodup
  header : ∀ k a, a ∈ s.freelist k → s.chunk a = ⟨k, chunkMagic⟩

section
variable {s : Pg} {F : Set Nat} {k a : Nat}

theorem mem_chunks : blk k a ∈ chunks s ↔ a ∈ s.freelist k := mem_blocks

theorem blk_of_mem_chunks {b : Blk} (hb : b ∈ chunks s) : ∃ k, b = blk k b.addr ∧ b.addr ∈ s.freelist k := by
  obtain ⟨k, hk, ha⟩ := hb
  exact ⟨k, Blk.ext hk rfl, ha⟩

theorem mem_freechunkLink {addr order : Nat} :
    a ∈ (freechunkLink s addr order).freelist k ↔ k = order ∧ a = addr ∨ a ∈ s.freelist k := by
  by_cases hk : k = order
  · subst hk
    simp [freechunkLink]
  · simp [freechunkLink, hk]

theorem mem_unlink {addr order : Nat} (hn : (s.freelist order).Nodup) :
    a ∈ (unlink s order addr).freelist k ↔ ¬ (k = order ∧ a = addr) ∧ a ∈ s.freelist k := by
  by_cases hk : k = order
  · subst hk
    simp [unlink, hn.mem_erase_iff]
  · simp [unlink, hk]

theorem chunks_link (s : Pg) (addr order : Nat) :
    chunks (freechunkLink s addr order) = insert (blk order addr) (chunks s) :=
  blocks_insert fun _ _ => mem_freechunkLink

theorem chunks_unlink (hn : ∀ k, (s.freelist k).Nodup) (order addr : Nat) :
    chunks (unlink s order addr) = chunks s \ {blk order addr} :=
  blocks_erase fun _ _ => mem_unlink (hn order)

theorem Shape.not_mem_of_disjoint (h : Shape s F) (ha : a ∉ F) (k : Nat) : a ∉ s.freelist k := fun hk =>
  ha (h.tiling.subset (mem_chunks.mpr hk) (blk k a).addr_mem)

/-- A new chunk beside the others, whose buddy is not one of them. -/
theorem Shape.link (h : Shape s F) (hal : (blk k a).Aligned) (hd : Disjoint F (blk k a).set)
    (hbud : (blk k a).buddy ∉ chunks s) : Shape (freechunkLink s a k) (F ∪ (blk k a).set) := by
  have hnew : ∀ j, a ∉ s.freelist j :=
    h.not_mem_of_disjoint (Set.disjoint_right.mp hd (blk k a).addr_mem)
  refine ⟨?_, ?_, ?_, fun j b hb => ?_⟩
  · rw [chunks_link]; exact h.tiling.insert hal hd
  · rw [chunks_link]; exact h.noBuddy.insert h.tiling.aligned hal hbud
  · exact (forall_update_iff s.freelist fun _ l => l.Nodup).mpr
      ⟨nodup_cons.mpr ⟨hnew k, h.nodup k⟩, fun j _ => h.nodup j⟩
  · rcases mem_freechunkLink.mp hb with ⟨rfl, rfl⟩ | hb
    · simp only [freechunkLink, update_self]
    · have hba : b ≠ a := fun hba => hnew j (hba ▸ hb)
      simp only [freechunkLink, update_of_ne hba]
      exact h.header j b hb

theorem Shape.unlink (h : Shape s F) (ha : a ∈ s.freelist k) :
    Shape (unlink s k a) (F \ (blk k a).set) := by
  refine ⟨?_, ?_, ?_, fun j b hb => h.header j b ((mem_unlink (h.nodup k)).mp hb).2⟩
  · rw [chunks_unlink h.nodup]; exact h.tiling.erase (mem_chunks.mpr ha)
  · rw [chunks_unlink h.nodup]; exact h.noBuddy.mono Set.sdiff_subset
  · exact (forall_update_iff s.freelist fun _ l => l.Nodup).mpr
      ⟨(h.nodup k).erase a, fun j _ => h.nodup j⟩

theorem Shape.write (h : Shape s F) (ha : ∀ k, a ∉ s.freelist k) (c : Chunk) :
    Shape { s with chunk := update s.chunk a c } F :=
  ⟨h.tiling, h.noBuddy, h.nodup, fun j b hb => by
    have hba : b ≠ a := fun h => ha j (h ▸ hb)
    simp only [update_of_ne hba]
    exact h.header j b hb⟩

end

/-! ## Carving a range -/

theorem ctzl_spec {x : Nat} (h0 : 0 < x) (h64 : x < 2 ^ 64) :
    2 ^ ctzl x ∣ x ∧ ¬ 2 ^ (ctzl x + 1) ∣ x := by
  have hfind : ∃ i, (range 64).find? (fun i => x.testBit i) = some i := by
    obtain ⟨i, hi⟩ := exists_testBit_of_ne_zero h0.ne'
    have hi64 : i < 64 := by
      by_contra hge
      have := Nat.testBit_lt_two_pow (lt_of_lt_of_le h64 (Nat.pow_le_pow_right (by decide) (not_lt.mp hge)))
      rw [hi] at this
      cases this
    exact isSome_iff_exists.mp (find?_isSome.mpr ⟨i, mem_range.mpr hi64, hi⟩)
  obtain ⟨i, hi⟩ := hfind
  have hc : ctzl x = i := by simp [ctzl, hi]
  obtain ⟨hbit, -, hlow⟩ := find?_range_eq_some.mp hi
  rw [hc]
  constructor
  · refine dvd_of_mod_eq_zero (eq_of_testBit_eq fun j => ?_)
    by_cases hj : j < i
    · simp [hj, by simpa using hlow j hj]
    · simp [hj]
  · rintro ⟨q, hq⟩
    rw [Nat.testBit_eq_decide_div_mod_eq, decide_eq_true_iff, hq, pow_succ, Nat.mul_assoc,
      Nat.mul_div_cancel_left _ (Nat.two_pow_pos i)] at hbit
    omega

theorem clzl_spec {x : Nat} (h0 : 0 < x) (h64 : x < 2 ^ 64) : 8 * 8 - (clzl x + 1) = log2 x := by
  have : log2 x < 64 := (log2_lt h0.ne').mpr h64
  unfold clzl
  omega

/-- The next chunk of a range is aligned, fits, and could not be larger. -/
theorem carveOrder_spec {addr range : Nat} (ha : 2 ^ pageShift ∣ addr) (h0 : 0 < addr)
    (hr : 2 ^ pageShift ≤ range) (h64 : addr + range < 2 ^ 64) :
    2 ^ (carveOrder addr range + pageShift) ∣ addr ∧
    2 ^ (carveOrder addr range + pageShift) ≤ range ∧
    (2 ^ (carveOrder addr range + pageShift + 1) ∣ addr →
      range < 2 ^ (carveOrder addr range + pageShift + 1)) := by
  have hr0 : 0 < range := lt_of_lt_of_le (Nat.two_pow_pos _) hr
  obtain ⟨hdvd, hndvd⟩ := ctzl_spec h0 (by omega)
  have hctz : pageShift ≤ ctzl addr := by
    by_contra hlt
    exact hndvd (dvd_trans (pow_dvd_pow 2 (by omega)) ha)
  have hlog : pageShift ≤ log2 range := (le_log2 hr0.ne').mpr hr
  have hk : carveOrder addr range + pageShift
      = if ctzl addr > log2 range then log2 range else ctzl addr := by
    unfold carveOrder
    rw [clzl_spec hr0 (by omega)]
    simp only
    split <;> omega
  rw [hk]
  split
  · next hgt =>
    exact ⟨dvd_trans (pow_dvd_pow 2 hgt.le) hdvd, log2_self_le hr0.ne', fun _ => lt_log2_self⟩
  · next hle =>
    exact ⟨hdvd, le_trans (Nat.pow_le_pow_right (by decide) (not_lt.mp hle)) (Nat.log2_self_le hr0.ne'),
      fun h => absurd h hndvd⟩

/-- The buddy of a carved chunk does not fit into the rest of the range. -/
theorem carve_no_buddy {addr range : Nat} (ha : 2 ^ pageShift ∣ addr) (h0 : 0 < addr)
    (hr : 2 ^ pageShift ≤ range) (h64 : addr + range < 2 ^ 64) :
    ¬ (blk (carveOrder addr range) addr).buddy.set ⊆
      Set.Ico (addr + order2size (carveOrder addr range)) (addr + range) := by
  obtain ⟨hdvd, hle, hmax⟩ := carveOrder_spec ha h0 hr h64
  intro hsub
  have hbe : (blk (carveOrder addr range) addr).buddy.exp = carveOrder addr range + pageShift := rfl
  have hba : (blk (carveOrder addr range) addr).addr = addr := rfl
  have hbx : (blk (carveOrder addr range) addr).exp = carveOrder addr range + pageShift := rfl
  rcases buddy_cases (b := blk (carveOrder addr range) addr) hdvd with ⟨-, h1, h2⟩ | ⟨-, h1, h2⟩
  · -- the lower half: the upper one is beyond the range, or the chunk would have been larger
    have hpar := (blk (carveOrder addr range) addr).parent_aligned
    have hmem : addr + 2 ^ (carveOrder addr range + pageShift) +
        2 ^ (carveOrder addr range + pageShift) - 1 ∈ (blk (carveOrder addr range) addr).buddy.set :=
      ⟨by rw [h2, ← h1, hba, hbx]; omega, by rw [h2, ← h1, hba, hbx, hbe]; omega⟩
    have hlast := hsub hmem
    have hlt := hmax (by
      have : 2 ^ (carveOrder addr range + pageShift + 1) ∣ (blk (carveOrder addr range) addr).parent.addr :=
        hpar
      rwa [← h1] at this)
    have := hlast.2
    omega
  · -- the upper half: its buddy lies before it
    have := (hsub (Blk.addr_mem _)).1
    rw [hba, hbx] at h1
    omega

theorem order2size_dvd (k : Nat) : 2 ^ pageShift ∣ order2size k := by
  unfold order2size
  rw [pow_add]
  exact Dvd.intro_left _ rfl

theorem carverange_frame : ∀ (n : Nat) (s : Pg) (addr range : Nat),
    (carverange n s addr range).minpageAddr = s.minpageAddr ∧
    (carverange n s addr range).maxpageAddr = s.maxpageAddr ∧
    free (carverange n s addr range) = free s ∧
    (carverange n s addr range).usedkb = s.usedkb
  | 0, s, _, _ => ⟨rfl, rfl, rfl, rfl⟩
  | n + 1, s, addr, range => by
    rw [carverange]
    split
    · exact ⟨rfl, rfl, rfl, rfl⟩
    · exact carverange_frame n _ _ _

/-- **`carverange`.**  A range beside the chunks that contains no buddy of a chunk
is added to them. -/
theorem carverange_shape : ∀ (n : Nat) {s : Pg} {F : Set Nat} (addr range : Nat), Shape s F →
    2 ^ pageShift ∣ addr → 2 ^ pageShift ∣ range → 0 < addr → addr + range < 2 ^ 64 →
    range / pageSize ≤ n → Disjoint F (Set.Ico addr (addr + range)) →
    (∀ b : Blk, b.Aligned → b.set ⊆ Set.Ico addr (addr + range) → b.buddy ∉ chunks s) →
    Shape (carverange n s addr range) (F ∪ Set.Ico addr (addr + range))
  | 0, s, F, addr, range, hs, _, hr, _, _, hn, _, _ => by
    have h0 : range = 0 := eq_zero_of_dvd_of_div_eq_zero hr (le_zero.mp hn)
    subst h0
    simpa [carverange] using hs
  | n + 1, s, F, addr, range, hs, ha, hr, h0, h64, hn, hd, hb => by
    rw [carverange]
    split
    · next hz =>
      subst hz
      simpa using hs
    · next hz =>
      have hpage : 2 ^ pageShift ≤ range := le_of_dvd (pos_of_ne_zero hz) hr
      obtain ⟨hdvd, hle, -⟩ := carveOrder_spec ha h0 hpage h64
      have hno := carve_no_buddy ha h0 hpage h64
      set i := carveOrder addr range
      have hsize : order2size i = 2 ^ (i + pageShift) := rfl
      have hsz : 2 ^ pageShift ≤ order2size i := Nat.pow_le_pow_right (by decide) (by omega)
      have hset : (blk i addr).set = Set.Ico addr (addr + order2size i) := rfl
      have hsplit : Set.Ico addr (addr + range)
          = (blk i addr).set ∪ Set.Ico (addr + order2size i) (addr + range) := by
        rw [hset, Set.Ico_union_Ico_eq_Ico (by omega) (by omega)]
      have hrest : addr + order2size i + (range - order2size i) = addr + range := by omega
      have hsub : (blk i addr).set ⊆ Set.Ico addr (addr + range) := by
        rw [hsplit]; exact Set.subset_union_left
      have hs' : Shape (freechunkLink s addr i) (F ∪ (blk i addr).set) :=
        hs.link hdvd (hd.mono_right hsub) (hb _ hdvd hsub)
      have key := carverange_shape n (addr + order2size i) (range - order2size i) hs'
        (dvd_add ha (order2size_dvd i)) (Nat.dvd_sub hr (order2size_dvd i)) (by omega) (by omega) ?_ ?_ ?_
      · rwa [hrest, Set.union_assoc, ← hsplit] at key
      · unfold pageSize at hn ⊢
        have h1 : (range - order2size i) / 2 ^ pageShift + 1 ≤ range / 2 ^ pageShift := by
          rw [← Nat.add_div_right _ (Nat.two_pow_pos _)]
          exact Nat.div_le_div_right (by omega)
        omega
      · rw [hrest, Set.disjoint_union_left]
        constructor
        · refine hd.mono_right ?_
          rw [hsplit]; exact Set.subset_union_right
        · rw [hset]
          exact Set.Ico_disjoint_Ico_same
      · intro b hbal hbs
        rw [hrest] at hbs
        rw [chunks_link]
        rintro (hbb | hbb)
        · -- the buddy of the chunk just carved would lie in the rest
          apply hno
          rw [← hbb, buddy_buddy hbal]
          exact hbs
        · refine hb b hbal ?_ hbb
          rw [hsplit]
          exact hbs.trans Set.subset_union_right

/-! ## The allocator between calls -/

/-- The invariant of the allocator: the managed memory is a range of pages, and the
chunks tile the pages whose bit is clear. -/
structure Inv (s : Pg) : Prop where
  minPage : 2 ^ pageShift ∣ s.minpageAddr
  maxPage : 2 ^ pageShift ∣ s.maxpageAddr
  minPos : 0 < s.minpageAddr
  max64 : s.maxpageAddr < 2 ^ 64
  shape : Shape s (free s)

section
variable {s : Pg} {p order align : Nat}

theorem Inv.of_shape {s' : Pg} (h : Inv s) (hmin : s'.minpageAddr = s.minpageAddr)
    (hmax : s'.maxpageAddr = s.maxpageAddr) (hs : Shape s' (free s')) : Inv s' :=
  ⟨hmin ▸ h.minPage, hmax ▸ h.maxPage, hmin ▸ h.minPos, hmax ▸ h.max64, hs⟩

theorem Inv.order_lt (h : Inv s) (hal : order2size order ∣ p) (hlo : s.minpageAddr ≤ p)
    (hhi : p + order2size order ≤ s.maxpageAddr) : order < freelistLevels := by
  -- a block that starts at a positive multiple of its size ends beyond twice its size
  by_contra hk
  have h0 : 0 < p := lt_of_lt_of_le h.minPos hlo
  have hle : order2size order ≤ p := le_of_dvd h0 hal
  have hsz : 2 ^ 64 ≤ order2size order := Nat.pow_le_pow_right (by decide) (by
    unfold freelistLevels at hk
    omega)
  have := h.max64
  omega

theorem blk_bounds {k a lo hi : Nat} (h : (blk k a).set ⊆ Set.Ico lo hi) :
    lo ≤ a ∧ a + order2size k ≤ hi :=
  (Set.Ico_subset_Ico_iff (Nat.lt_add_of_pos_right (Nat.two_pow_pos _))).mp h

theorem Inv.bounds (h : Inv s) {k a : Nat} (ha : a ∈ s.freelist k) :
    s.minpageAddr ≤ a ∧ a + order2size k ≤ s.maxpageAddr ∧ order2size k ∣ a ∧ k < freelistLevels := by
  have hdvd : order2size k ∣ a := h.shape.tiling.aligned _ (mem_chunks.mpr ha)
  obtain ⟨hlo, hhi⟩ := blk_bounds
    ((h.shape.tiling.subset (mem_chunks.mpr ha)).trans fun x hx => ⟨hx.1, hx.2.1⟩)
  exact ⟨hlo, hhi, hdvd, h.order_lt hdvd hlo hhi⟩

theorem Inv.block_free (h : Inv s) {bucket : Nat} (hle : order ≤ bucket) (hp : p ∈ s.freelist bucket) :
    (blk order p).set ⊆ free s := by
  have hsz : order2size order ≤ order2size bucket := Nat.pow_le_pow_right two_pos (by omega)
  exact fun x hx =>
    h.shape.tiling.subset (mem_chunks.mpr hp) ⟨hx.1, hx.2.trans_le (Nat.add_le_add_left hsz p)⟩

theorem vaToPg_range {n x : Nat} (hmin : 2 ^ pageShift ∣ s.minpageAddr) (hp : 2 ^ pageShift ∣ p)
    (hle : s.minpageAddr ≤ p) (hx : s.minpageAddr ≤ x) :
    (vaToPg s p ≤ vaToPg s x ∧ vaToPg s x < vaToPg s p + n) ↔ p ≤ x ∧ x < p + n * pageSize := by
  unfold vaToPg pageSize pageShift at *
  omega

theorem order2size_eq (k : Nat) : order2size k = 2 ^ k * pageSize := by
  unfold order2size pageSize
  rw [pow_add]

theorem mem_page_range (k : Nat) (h : 2 ^ pageShift ∣ s.minpageAddr) (hp : 2 ^ pageShift ∣ p)
    (hlo : s.minpageAddr ≤ p) {x : Nat} (hx : s.minpageAddr ≤ x) :
    (vaToPg s p ≤ vaToPg s x ∧ vaToPg s x < vaToPg s p + 2 ^ k) ↔ x ∈ (blk k p).set := by
  rw [vaToPg_range h hp hlo hx, ← order2size_eq]
  rfl

theorem mem_free (s : Pg) (x : Nat) : x ∈ free s ↔ s.minpageAddr ≤ x ∧ x < s.maxpageAddr ∧
    ¬ allocatedInMap s.allocBitmap (vaToPg s x) = true := by
  rw [Bool.not_eq_true]
  rfl

theorem free_mapFree (h : 2 ^ pageShift ∣ s.minpageAddr) (hp : 2 ^ pageShift ∣ p)
    (hlo : s.minpageAddr ≤ p) (hhi : p + order2size order ≤ s.maxpageAddr) (u : Nat) :
    free { s with allocBitmap := mapFree s.allocBitmap (vaToPg s p) (2 ^ order), usedkb := u }
      = free s ∪ (blk order p).set := by
  ext x
  have hin : x ∈ (blk order p).set → s.minpageAddr ≤ x ∧ x < s.maxpageAddr :=
    fun hx => ⟨hlo.trans hx.1, hx.2.trans_le hhi⟩
  have hbit := allocatedInMap_mapFree s.allocBitmap (vaToPg s p) (2 ^ order) (vaToPg s x)
  have hrange := mem_page_range order h hp hlo (x := x)
  rw [Set.mem_union, mem_free, mem_free]
  change _ ∧ _ ∧ ¬ allocatedInMap (mapFree s.allocBitmap (vaToPg s p) (2 ^ order)) (vaToPg s x) = true ↔ _
  grind

theorem free_mapAlloc (h : 2 ^ pageShift ∣ s.minpageAddr) (hp : 2 ^ pageShift ∣ p)
    (hlo : s.minpageAddr ≤ p) (u : Nat) :
    free { s with allocBitmap := mapAlloc s.allocBitmap (vaToPg s p) (2 ^ order), usedkb := u }
      = free s \ (blk order p).set := by
  ext x
  have hbit := allocatedInMap_mapAlloc s.allocBitmap (vaToPg s p) (2 ^ order) (vaToPg s x)
  have hrange := mem_page_range order h hp hlo (x := x)
  rw [Set.mem_sdiff, mem_free, mem_free]
  change _ ∧ _ ∧ ¬ allocatedInMap (mapAlloc s.allocBitmap (vaToPg s p) (2 ^ order)) (vaToPg s x) = true ↔ _
  grind

/-! ## Allocation -/

/-- An admitted alignment is a power of two of at least a page. -/
theorem admits_iff : admits order align = true ↔
    (∃ j, pageShift ≤ j ∧ align = 2 ^ j) ∧ order < freelistLevels := by
  simp only [admits, Bool.and_eq_true, decide_eq_true_iff, beq_iff_eq]
  refine and_congr_left fun _ => ?_
  constructor
  · rintro ⟨h1, h2⟩
    have hpos : 0 < pageSize := Nat.two_pow_pos _
    obtain ⟨j, rfl⟩ := (and_sub_one_eq_zero_iff_isPowerOfTwo (by omega)).mp h2
    exact ⟨j, (Nat.pow_le_pow_iff_right (by decide)).mp h1, rfl⟩
  · rintro ⟨j, hj, rfl⟩
    refine ⟨Nat.pow_le_pow_right (by decide) hj, ?_⟩
    rw [and_two_pow_sub_one_eq_mod, mod_self]

theorem satisfiesP_some {k j : Nat} (h : satisfiesP s k (2 ^ j) = some p) :
    p ∈ s.freelist k ∧ 2 ^ j ∣ p := by
  refine ⟨mem_of_find?_eq_some h, ?_⟩
  have := find?_some h
  rw [beq_iff_eq, and_two_pow_sub_one_eq_mod] at this
  exact dvd_of_mod_eq_zero this

theorem satisfiesP_ne_none {k j : Nat} (hp : p ∈ s.freelist k) (hd : 2 ^ j ∣ p) :
    satisfiesP s k (2 ^ j) ≠ none := by
  intro h
  refine (find?_eq_none.mp h) p hp ?_
  rw [beq_iff_eq, and_two_pow_sub_one_eq_mod]
  exact mod_eq_zero_of_dvd hd

theorem findBucket_some {j bucket : Nat} (h : findBucket s order (2 ^ j) = some (bucket, p)) :
    order ≤ bucket ∧ bucket < freelistLevels ∧ p ∈ s.freelist bucket ∧ 2 ^ j ∣ p := by
  obtain ⟨b, hb, hs⟩ := exists_of_findSome?_eq_some h
  obtain ⟨ch, hch, he⟩ := map_eq_some_iff.mp hs
  obtain ⟨rfl, rfl⟩ := Prod.mk.inj he
  obtain ⟨h1, h2⟩ := satisfiesP_some hch
  rw [mem_range'_1] at hb
  exact ⟨hb.1, by omega, h1, h2⟩

theorem findBucket_ne_none {j bucket : Nat} (h1 : order ≤ bucket) (h2 : bucket < freelistLevels)
    (hp : p ∈ s.freelist bucket) (hd : 2 ^ j ∣ p) : findBucket s order (2 ^ j) ≠ none := by
  intro h
  have := (findSome?_eq_none_iff.mp h) bucket (mem_range'_1.mpr ⟨h1, by omega⟩)
  exact satisfiesP_ne_none hp hd (map_eq_none_iff.mp this)

/-- A block inside the part of a chunk behind its head has its buddy inside the
chunk. -/
theorem buddy_inside {b c : Blk} (hb : b.Aligned) (hc : c.Aligned) (hsub : b.set ⊆ c.set)
    (hhead : c.addr ∉ b.set) : b.buddy.set ⊆ c.set := by
  have hlt : b.exp < c.exp := by
    by_contra hge
    exact hhead (nested hc hb (not_lt.mp hge) (hsub b.addr_mem) b.addr_mem c.addr_mem)
  have hpar : b.parent.set ⊆ c.set :=
    nested b.parent_aligned hc hlt
      (by rw [parent_set hb]; exact .inl b.addr_mem) (hsub b.addr_mem)
  rw [parent_set hb] at hpar
  exact fun x hx => hpar (.inr hx)

theorem takeChunk_frame (s : Pg) (order bucket p : Nat) :
    (takeChunk s order bucket p).minpageAddr = s.minpageAddr ∧
    (takeChunk s order bucket p).maxpageAddr = s.maxpageAddr ∧
    (takeChunk s order bucket p).usedkb = s.usedkb + order2size order / 2 ^ 10 := by
  obtain ⟨hmin, hmax, -, hused⟩ := carverange_frame
    ((order2size bucket - order2size order) / pageSize) (clearMagic s p) (p + order2size order)
    (order2size bucket - order2size order)
  exact ⟨hmin, hmax, congrArg (· + order2size order / 2 ^ 10) hused⟩

/-- **Taking a block out of a chunk.** -/
theorem takeChunk_inv (h : Inv s) {bucket : Nat} (hle : order ≤ bucket) (hp : p ∈ s.freelist bucket) :
    Inv (takeChunk (unlink s bucket p) order bucket p) ∧
    free (takeChunk (unlink s bucket p) order bucket p) = free s \ (blk order p).set := by
  obtain ⟨hlo, hhi, hdvd, -⟩ := h.bounds hp
  have hc : blk bucket p ∈ chunks s := mem_chunks.mpr hp
  have hcal : (blk bucket p).Aligned := h.shape.tiling.aligned _ hc
  have hpage : 2 ^ pageShift ∣ p := dvd_trans (order2size_dvd bucket) hdvd
  have hsz : order2size order ≤ order2size bucket := Nat.pow_le_pow_right (by decide) (by omega)
  have hpos : 0 < order2size order := Nat.two_pow_pos _
  have hend : p + order2size order + (order2size bucket - order2size order) = p + order2size bucket := by
    omega
  have hrest : Set.Ico (p + order2size order) (p + order2size bucket) ⊆ (blk bucket p).set :=
    Set.Ico_subset_Ico_left (le_add_right _ _)
  -- the chunk is unlinked and its header wiped
  have hs₁ : Shape (clearMagic (unlink s bucket p) p) (free s \ (blk bucket p).set) := by
    have hu := h.shape.unlink hp
    exact hu.write (hu.not_mem_of_disjoint (fun hx => hx.2 (blk bucket p).addr_mem)) _
  -- the rest of it is carved
  have hs₂ := carverange_shape ((order2size bucket - order2size order) / pageSize)
    (p + order2size order) (order2size bucket - order2size order) hs₁
    (dvd_add hpage (order2size_dvd order)) (Nat.dvd_sub (order2size_dvd bucket) (order2size_dvd order))
    (by omega) (by have := h.max64; omega) le_rfl (by
      rw [hend]
      exact Set.disjoint_sdiff_left.mono_right hrest) (by
      intro b hb hbs hbb
      rw [hend] at hbs
      have hin := buddy_inside hb hcal (hbs.trans hrest) (fun hx => by
        have := (hbs hx).1
        have hpa : (blk bucket p).addr = p := rfl
        omega)
      exact (hs₁.tiling.subset hbb b.buddy.addr_mem).2 (hin b.buddy.addr_mem))
  rw [hend] at hs₂
  obtain ⟨f1, -, f3, -⟩ := carverange_frame ((order2size bucket - order2size order) / pageSize)
    (clearMagic (unlink s bucket p) p) (p + order2size order) (order2size bucket - order2size order)
  obtain ⟨hmin, hmax, -⟩ := takeChunk_frame (unlink s bucket p) order bucket p
  have hF : free s \ (blk bucket p).set ∪ Set.Ico (p + order2size order) (p + order2size bucket)
      = free s \ (blk order p).set := by
    have hdiff : Set.Ico (p + order2size order) (p + order2size bucket) =
        (blk bucket p).set \ (blk order p).set := by
      ext x
      show _ ∧ _ ↔ (p ≤ x ∧ x < p + order2size bucket) ∧ ¬ (p ≤ x ∧ x < p + order2size order)
      omega
    rw [hdiff]
    exact Set.sdiff_union_sdiff_cancel (h.shape.tiling.subset hc)
      (Set.Ico_subset_Ico_right (Nat.add_le_add_left hsz p))
  have hfree : free (takeChunk (unlink s bucket p) order bucket p) = free s \ (blk order p).set := by
    rw [takeChunk, free_mapAlloc (by rw [f1]; exact h.minPage) hpage (by rw [f1]; exact hlo), f3]
    rfl
  refine ⟨h.of_shape hmin hmax ?_, hfree⟩
  rw [hfree, ← hF]
  exact { hs₂ with }

theorem bmkPgallocAlign_admits (h : Inv s) (hadm : admits order align = true) :
    (findBucket s order align = none ∧ bmkPgallocAlign s order align = some (none, s)) ∨
    ∃ bucket p, findBucket s order align = some (bucket, p) ∧ order ≤ bucket ∧
      p ∈ s.freelist bucket ∧ align ∣ p ∧
      bmkPgallocAlign s order align = some (some p, takeChunk (unlink s bucket p) order bucket p) := by
  rw [bmkPgallocAlign, if_pos hadm]
  obtain ⟨⟨j, hj, rfl⟩, -⟩ := admits_iff.mp hadm
  cases hf : findBucket s order (2 ^ j) with
  | none => exact .inl ⟨rfl, rfl⟩
  | some r =>
    obtain ⟨bucket, p⟩ := r
    obtain ⟨hle, -, hp, hd⟩ := findBucket_some hf
    have hmagic : ((unlink s bucket p).chunk p).magic = chunkMagic := by
      show (s.chunk p).magic = _
      rw [h.shape.header bucket p hp]
    have halign : p &&& (2 ^ j - 1) = 0 := by
      rw [and_two_pow_sub_one_eq_mod]
      exact mod_eq_zero_of_dvd hd
    refine .inr ⟨bucket, p, rfl, hle, hp, hd, ?_⟩
    simp only [hmagic, halign, if_true]

theorem admits_of_some {r : Option Nat × Pg} (h : bmkPgallocAlign s order align = some r) :
    admits order align = true := by
  by_contra hno
  rw [bmkPgallocAlign, if_neg hno] at h
  cases h

end

/-! ## Freeing -/

theorem and_two_pow_eq_zero_iff {x e : Nat} : x &&& 2 ^ e = 0 ↔ x / 2 ^ e % 2 = 0 := by
  have hbit : x.testBit e = decide (x / 2 ^ e % 2 = 1) := testBit_eq_decide_div_mod_eq
  constructor
  · intro h
    have := congrArg (fun y => y.testBit e) h
    simp only [testBit_and, testBit_two_pow_self, Bool.and_true, zero_testBit, hbit,
      decide_eq_false_iff_not] at this
    omega
  · intro h
    refine eq_of_testBit_eq fun i => ?_
    rw [testBit_and, testBit_two_pow, zero_testBit]
    by_cases hi : e = i
    · subst hi
      rw [hbit, h]
      simp
    · simp [hi]

/-- The state of the merge loop: the block being freed and the chunks tile the free
pages together, and the chunks among themselves have no buddies. -/
structure Merging (s : Pg) (freed order : Nat) : Prop where
  tiling : Tiling (insert (blk order freed) (chunks s)) (free s)
  notMem : blk order freed ∉ chunks s
  noBuddy : NoBuddy (chunks s)
  nodup : ∀ k, (s.freelist k).Nodup
  header : ∀ k a, a ∈ s.freelist k → s.chunk a = ⟨k, chunkMagic⟩

section
variable {s : Pg} {freed order : Nat}

/-- The two tests before the header is read. -/
theorem mem_free_iff {y : Nat} :
    y ∈ free s ↔ (!addrIsManaged s y || pageAllocated s y) = false := by
  simp only [free, Set.mem_ofPred_eq, addrIsManaged, Bool.or_eq_false_iff, Bool.not_eq_false',
    Bool.and_eq_true, decide_eq_true_iff, and_assoc]

/-- The address the loop looks at is that of the buddy, and the merged chunk is the
parent. -/
theorem toMerge_eq (freed order : Nat) (hal : (blk order freed).Aligned) :
    (if freed &&& order2size order = 0 then freed + order2size order else freed - order2size order)
      = (blk order freed).buddy.addr ∧
    (if freed &&& order2size order = 0 then freed else
      (if freed &&& order2size order = 0 then freed + order2size order else freed - order2size order))
      = (blk order freed).parent.addr := by
  have hiff : freed &&& order2size order = 0 ↔ freed / 2 ^ (order + pageShift) % 2 = 0 :=
    and_two_pow_eq_zero_iff
  have h1 : (blk order freed).exp = order + pageShift := rfl
  have h2 : (blk order freed).addr = freed := rfl
  rcases buddy_cases hal with ⟨h, ha, hb⟩ | ⟨h, ha, hb⟩
  · rw [h1, h2] at h
    rw [if_pos (hiff.mpr h), if_pos (hiff.mpr h), hb, ← ha]
    exact ⟨rfl, rfl⟩
  · rw [h1, h2] at h ha
    have hne : ¬ freed &&& order2size order = 0 := by
      omega
    rw [if_neg hne, if_neg hne, hb]
    unfold order2size
    omega

section
variable (h : Merging s freed order)
include h

theorem Merging.freed_not_head (k : Nat) : freed ∉ s.freelist k := by
  intro hk
  have heq := h.tiling.disj _ (.inl rfl) _ (.inr (mem_chunks.mpr hk)) freed
    (blk order freed).addr_mem (blk k freed).addr_mem
  exact h.notMem (heq ▸ mem_chunks.mpr hk)

/-- The chunks tile what is free beside the block. -/
theorem Merging.shape : Shape s (free s \ (blk order freed).set) := by
  have ht := h.tiling.erase (.inl rfl)
  rw [Set.insert_sdiff_self_of_notMem h.notMem] at ht
  exact { h with tiling := ht }

/-- **The page the loop looks at is the head of a chunk** if its bit is clear, so the
header read there is one; the chunk is no larger than the block. -/
theorem Merging.head (hy : (blk order freed).buddy.addr ∈ free s) :
    ∃ k ≤ order, (blk order freed).buddy.addr ∈ s.freelist k := by
  have hal : (blk order freed).Aligned := h.tiling.aligned _ (.inl rfl)
  obtain ⟨c, hc, hyc⟩ := (h.tiling.cover _).mp hy
  have hle := h.tiling.exp_le (.inl rfl) hc (blk order freed).buddy.addr_mem hyc
  rcases hc with rfl | hc
  · exact absurd (blk order freed).buddy.addr_mem (disjoint_buddy hal hyc)
  · have haddr : c.addr = (blk order freed).buddy.addr :=
      h.tiling.head (Blk.buddy_aligned hal) (.inr hc) hyc hle
    obtain ⟨k, hk, hmem⟩ := blk_of_mem_chunks hc
    refine ⟨k, ?_, haddr ▸ hmem⟩
    have h1 : c.exp = k + pageShift := congrArg Blk.exp hk
    have h2 : (blk order freed).exp = order + pageShift := rfl
    omega

theorem Merging.merge (hy : (blk order freed).buddy.addr ∈ s.freelist order) :
    Merging (unlink (clearMagic (clearMagic s freed) (blk order freed).buddy.addr) order
      (blk order freed).buddy.addr) (blk order freed).parent.addr (order + 1) := by
  have hpar : (blk order freed).parent = blk (order + 1) (blk order freed).parent.addr :=
    Blk.ext (by show order + pageShift + 1 = order + 1 + pageShift; omega) rfl
  have hch := chunks_unlink h.nodup order (blk order freed).buddy.addr
  obtain ⟨ht, hn⟩ := h.tiling.merge (.inl rfl) (.inr (mem_chunks.mpr hy))
  rw [Set.insert_sdiff_self_of_notMem h.notMem, hpar] at ht hn
  -- the headers are wiped of what is no chunk any more
  have hs := h.shape.unlink hy
  have hs' := (hs.write (fun k hk => h.freed_not_head k ((mem_unlink (h.nodup order)).mp hk).2)
    { s.chunk freed with magic := 0 }).write
      (hs.not_mem_of_disjoint fun hx => hx.2 (blk order freed).buddy.addr_mem)
      { (clearMagic s freed).chunk (blk order freed).buddy.addr with magic := 0 }
  exact ⟨hch ▸ ht, hch ▸ hn, hs'.noBuddy, hs'.nodup, hs'.header⟩

end

/-- **The merge loop.**  It ends without a failed assertion, and then the buddy of the
block is not a chunk. -/
theorem merge_spec : ∀ (n : Nat) {s : Pg} {freed order : Nat}, Merging s freed order →
    order + n = freelistLevels → free s ⊆ Set.Ico 1 (2 ^ 64) →
    ∃ s' freed' order', Pgalloc.merge n s freed order = some (s', freed', order') ∧
      Merging s' freed' order' ∧ (blk order' freed').buddy ∉ chunks s' ∧ free s' = free s ∧
      s'.minpageAddr = s.minpageAddr ∧ s'.maxpageAddr = s.maxpageAddr ∧ s'.usedkb = s.usedkb
  | 0, s, freed, order, h, hn, h64 => by
    -- a block of all 64 bits does not fit
    exfalso
    have hmem := h64 ((h.tiling.subset (.inl rfl)) (blk order freed).addr_mem)
    have hdvd : 2 ^ (order + pageShift) ∣ freed := h.tiling.aligned _ (.inl rfl)
    have hle := le_of_dvd hmem.1 hdvd
    have hexp : order + pageShift = 64 := by
      unfold freelistLevels at hn
      unfold pageShift at *
      omega
    rw [hexp] at hle
    exact absurd hmem.2 (not_lt.mpr hle)
  | n + 1, s, freed, order, h, hn, h64 => by
    have hal : (blk order freed).Aligned := h.tiling.aligned _ (.inl rfl)
    obtain ⟨hy, hp⟩ := toMerge_eq freed order hal
    rw [Pgalloc.merge]
    simp only [hp]
    simp only [hy]
    set y := (blk order freed).buddy.addr with hydef
    split
    · next hbusy =>
      refine ⟨s, freed, order, rfl, h, fun hb => ?_, rfl, rfl, rfl, rfl⟩
      have hF : y ∈ free s := h.tiling.subset (.inr hb) (blk order freed).buddy.addr_mem
      rw [mem_free_iff.mp hF] at hbusy
      cases hbusy
    · next hfree =>
      have hF : y ∈ free s := mem_free_iff.mpr (by simpa using hfree)
      obtain ⟨k, hk, hmem⟩ := h.head hF
      have hlevel : chunklevel s y = some k := by
        rw [chunklevel, h.header k y hmem]
        simp
      rw [hlevel]
      simp only
      split
      · next hne =>
        refine ⟨s, freed, order, rfl, h, fun hb => hne ?_, rfl, rfl, rfl, rfl⟩
        have heq := h.tiling.disj _ (.inr (mem_chunks.mpr hmem)) _ (.inr hb) y
          (blk k y).addr_mem (blk order freed).buddy.addr_mem
        exact add_right_cancel (congrArg Blk.exp heq)
      · next heq =>
        have hko : k = order := not_not.mp heq
        subst hko
        exact merge_spec n (h.merge hmem) (by omega) h64

theorem Merging.link (h : Merging s freed order) (hbud : (blk order freed).buddy ∉ chunks s) :
    Shape (freechunkLink s freed order) (free s) := by
  have hs := h.shape.link (h.tiling.aligned _ (.inl rfl)) Set.disjoint_sdiff_left hbud
  rwa [Set.sdiff_union_of_subset (h.tiling.subset (.inl rfl))] at hs

/-- **`bmk_pgfree` of a block none of which is free.** -/
theorem bmkPgfree_inv (h : Inv s) {p : Nat} (hal : order2size order ∣ p) (hlo : s.minpageAddr ≤ p)
    (hhi : p + order2size order ≤ s.maxpageAddr) (hd : Disjoint (free s) (blk order p).set) :
    ∃ s', bmkPgfree s p order = some s' ∧ Inv s' ∧ free s' = free s ∪ (blk order p).set ∧
      s'.minpageAddr = s.minpageAddr ∧ s'.maxpageAddr = s.maxpageAddr ∧
      s'.usedkb = s.usedkb - order2size order / 2 ^ 10 := by
  have hpage : 2 ^ pageShift ∣ p := dvd_trans (order2size_dvd order) hal
  have hF := free_mapFree h.minPage hpage hlo hhi (s.usedkb - order2size order / 2 ^ 10)
  set s₁ : Pg := { s with
    allocBitmap := mapFree s.allocBitmap (vaToPg s p) (2 ^ order)
    usedkb := s.usedkb - order2size order / 2 ^ 10 } with hs₁
  have hm : Merging s₁ p order := by
    refine ⟨?_, ?_, h.shape.noBuddy, h.shape.nodup, h.shape.header⟩
    · rw [hF]; exact h.shape.tiling.insert hal hd
    · intro hmem
      exact Set.disjoint_left.mp hd (h.shape.tiling.subset hmem (blk order p).addr_mem)
        (blk order p).addr_mem
  have h64 : free s₁ ⊆ Set.Ico 1 (2 ^ 64) := by
    rintro x ⟨hx1, hx2, -⟩
    exact ⟨le_trans h.minPos hx1, lt_trans hx2 h.max64⟩
  have hlev := h.order_lt hal hlo hhi
  obtain ⟨s', f', o', h1, h2, h3, h4, h5, h6, h7⟩ :=
    merge_spec (freelistLevels - order) hm (by omega) h64
  have hfree : free (freechunkLink s' f' o') = free s' := rfl
  refine ⟨freechunkLink s' f' o', ?_, h.of_shape h5 h6 (h2.link h3), hfree.trans (h4.trans hF), h5, h6, h7⟩
  show (merge (freelistLevels - order) s₁ p order).map _ = _
  rw [h1]; rfl

end

/-! ## The system keeps its invariant -/

/-- The live blocks. -/
def liveBlks (live : Finset (Nat × Nat)) : Set Blk :=
  {b | ∃ o, b.exp = o + pageShift ∧ (b.addr, o) ∈ live}

/-- The managed bytes. -/
def managed (s : Pg) : Set Nat := Set.Ico s.minpageAddr s.maxpageAddr

/-- The size of the live blocks in kB. -/
def liveKb (live : Finset (Nat × Nat)) : Nat := ∑ b ∈ live, order2size b.2 / 2 ^ 10

/-- The allocator's invariant, and the live blocks tile what is not free. -/
structure SysInv (min max : Nat) (s : State) : Prop where
  minEq : s.pg.minpageAddr = roundPage min + bitmapSize min max
  maxEq : s.pg.maxpageAddr = truncPage max
  inv : Inv s.pg
  live : Tiling (liveBlks s.live) (managed s.pg \ free s.pg)
  used : s.pg.usedkb = liveKb s.live

section
variable {s s' : State} {addr order min max : Nat}

theorem liveBlks_eq (live : Finset (Nat × Nat)) : liveBlks live = blocks fun o a => (a, o) ∈ live := rfl

theorem mem_liveBlks {live : Finset (Nat × Nat)} : blk order addr ∈ liveBlks live ↔ (addr, order) ∈ live :=
  liveBlks_eq live ▸ mem_blocks

theorem liveBlks_insert (live : Finset (Nat × Nat)) (addr order : Nat) :
    liveBlks (insert (addr, order) live) = insert (blk order addr) (liveBlks live) := by
  rw [liveBlks_eq, liveBlks_eq, blocks_insert]
  intro o a
  rw [Finset.mem_insert, Prod.mk.injEq, and_comm]

theorem liveBlks_erase (live : Finset (Nat × Nat)) (addr order : Nat) :
    liveBlks (live.erase (addr, order)) = liveBlks live \ {blk order addr} := by
  rw [liveBlks_eq, liveBlks_eq, blocks_erase]
  intro o a
  rw [Finset.mem_erase, ne_eq, Prod.mk.injEq, and_comm (a := a = addr)]

theorem SysInv.live_bounds (h : SysInv min max s) (hm : (addr, order) ∈ s.live) :
    order2size order ∣ addr ∧ s.pg.minpageAddr ≤ addr ∧
      addr + order2size order ≤ s.pg.maxpageAddr ∧ Disjoint (free s.pg) (blk order addr).set := by
  have hb := mem_liveBlks.mpr hm
  have hsub := h.live.subset hb
  obtain ⟨hlo, hhi⟩ := blk_bounds (hsub.trans Set.sdiff_subset)
  exact ⟨h.live.aligned _ hb, hlo, hhi, Set.disjoint_right.mpr fun x hx => (hsub hx).2⟩

theorem roundPage_dvd (x : Nat) : 2 ^ pageShift ∣ roundPage x := Dvd.intro_left _ rfl

theorem truncPage_dvd (x : Nat) : 2 ^ pageShift ∣ truncPage x := Dvd.intro_left _ rfl

theorem loadmem_inv (he : Enough min max) {mem : Nat → Chunk} {words : Words} {pg : Pg}
    (h : bmkPgallocLoadmem mem words min max = some pg) :
    Inv pg ∧ pg.minpageAddr = roundPage min + bitmapSize min max ∧ pg.maxpageAddr = truncPage max ∧
      free pg = managed pg ∧ pg.usedkb = 0 := by
  obtain ⟨hlt, h64, hfit⟩ := he
  unfold bmkPgallocLoadmem at h
  rw [if_pos hlt] at h
  cases h
  set lo := roundPage min + bitmapSize min max with hlo
  set hi := truncPage max with hhi
  have hlod : 2 ^ pageShift ∣ lo := dvd_add (roundPage_dvd _) (roundPage_dvd _)
  have hhid : 2 ^ pageShift ∣ hi := truncPage_dvd _
  have hpos : 0 < lo := by
    have : 0 < bitmapSize min max := by
      unfold bitmapSize roundPage pageSize pageShift
      omega
    omega
  have hhi64 : hi < 2 ^ 64 := lt_of_le_of_lt (div_mul_le_self max pageSize) h64
  generalize hbits : mapFree (fun i => if i < bitmapSize min max / 8 then ~~~0#64 else words i) 0
    ((hi - lo) / pageSize) = bits
  set s₀ : Pg :=
    { minpageAddr := lo
      maxpageAddr := hi
      allocBitmap := bits
      chunk := mem
      freelist := fun _ => []
      totalkb := (hi - lo) / 2 ^ 10
      usedkb := 0 } with hs₀
  have hempty : chunks s₀ = ∅ := by
    ext b
    simp [chunks, hs₀]
  have hshape₀ : Shape s₀ ∅ := by
    refine ⟨hempty ▸ .empty, ?_, fun _ => nodup_nil, fun k a ha => absurd ha not_mem_nil⟩
    rw [hempty]
    exact fun b hb => hb.elim
  have hend : lo + (hi - lo) = hi := by omega
  have hshape := carverange_shape ((hi - lo) / pageSize) lo (hi - lo) hshape₀ hlod (Nat.dvd_sub hhid hlod) hpos
    (by omega) le_rfl (Set.empty_disjoint _) (fun b _ _ => by rw [hempty]; exact id)
  rw [hend, Set.empty_union] at hshape
  obtain ⟨f1, f2, f3, f4⟩ := carverange_frame ((hi - lo) / pageSize) s₀ lo (hi - lo)
  have hfree : free (carverange ((hi - lo) / pageSize) s₀ lo (hi - lo)) = Set.Ico lo hi := by
    rw [f3]
    ext x
    constructor
    · rintro ⟨h1, h2, -⟩
      exact ⟨h1, h2⟩
    · rintro ⟨h1, h2⟩
      refine ⟨h1, h2, ?_⟩
      show allocatedInMap bits ((x - lo) / pageSize) = false
      rw [← Bool.not_eq_true, ← hbits, allocatedInMap_mapFree]
      rintro ⟨-, hno⟩
      apply hno
      unfold pageSize at *
      unfold pageShift at *
      omega
  have hman : managed (carverange ((hi - lo) / pageSize) s₀ lo (hi - lo)) = Set.Ico lo hi := by
    unfold managed
    rw [f1, f2]
  refine ⟨⟨by rw [f1]; exact hlod, by rw [f2]; exact hhid, by rw [f1]; exact hpos,
    by rw [f2]; exact hhi64, by rw [hfree]; exact hshape⟩, f1, f2, hfree.trans hman.symm, f4⟩

theorem sysInv_init (he : Enough min max) (h : Init min max s) : SysInv min max s := by
  obtain ⟨⟨mem, words, hload⟩, hlive⟩ := h
  obtain ⟨hinv, h1, h2, hfree, hused⟩ := loadmem_inv he hload
  refine ⟨h1, h2, hinv, ?_, ?_⟩
  · have : liveBlks s.live = ∅ := by
      ext b
      simp [liveBlks, hlive]
    rw [this, hfree, Set.sdiff_self]
    exact .empty
  · rw [hused, hlive]; rfl

theorem sysInv_alloc (h : SysInv min max s) {bucket : Nat} (hle : order ≤ bucket)
    (hp : addr ∈ s.pg.freelist bucket) :
    SysInv min max { pg := takeChunk (unlink s.pg bucket addr) order bucket addr,
                     live := insert (addr, order) s.live } := by
  obtain ⟨hinv, hfree⟩ := takeChunk_inv h.inv hle hp
  obtain ⟨h1, h2, h3⟩ := takeChunk_frame (unlink s.pg bucket addr) order bucket addr
  obtain ⟨hlo, hhi, hdvd, -⟩ := h.inv.bounds hp
  have hal : (blk order addr).Aligned := dvd_trans (pow_dvd_pow 2 (by
    show order + pageShift ≤ bucket + pageShift
    omega)) hdvd
  have hsub : (blk order addr).set ⊆ free s.pg := h.inv.block_free hle hp
  have hnew : (addr, order) ∉ s.live := fun hm =>
    Set.disjoint_left.mp (h.live_bounds hm).2.2.2 (hsub (blk order addr).addr_mem)
      (blk order addr).addr_mem
  refine ⟨h1.trans h.minEq, h2.trans h.maxEq, hinv, ?_, ?_⟩
  · have hset : managed (takeChunk (unlink s.pg bucket addr) order bucket addr) \
        free (takeChunk (unlink s.pg bucket addr) order bucket addr)
        = managed s.pg \ free s.pg ∪ (blk order addr).set := by
      have hman : (blk order addr).set ⊆ managed s.pg :=
        hsub.trans fun x hx => ⟨hx.1, hx.2.1⟩
      rw [hfree, managed, h1, h2, Set.sdiff_sdiff_right]
      exact congrArg (_ ∪ ·) (Set.inter_eq_right.mpr hman)
    rw [hset, liveBlks_insert]
    exact h.live.insert hal (Set.disjoint_left.mpr fun x hx hxb => hx.2 (hsub hxb))
  · show (takeChunk (unlink s.pg bucket addr) order bucket addr).usedkb = _
    rw [h3, liveKb, Finset.sum_insert hnew, Nat.add_comm]
    exact congrArg (_ + ·) h.used

theorem sysInv_free (h : SysInv min max s) (hm : (addr, order) ∈ s.live) :
    ∃ pg, bmkPgfree s.pg addr order = some pg ∧
      SysInv min max { pg := pg, live := s.live.erase (addr, order) } := by
  obtain ⟨hdvd, hlo, hhi, hd⟩ := h.live_bounds hm
  obtain ⟨pg, hpg, hinv, hfree, h1, h2, h3⟩ := bmkPgfree_inv h.inv hdvd hlo hhi hd
  refine ⟨pg, hpg, h1.trans h.minEq, h2.trans h.maxEq, hinv, ?_, ?_⟩
  · have hset : managed pg \ free pg = (managed s.pg \ free s.pg) \ (blk order addr).set := by
      rw [hfree, ← Set.sdiff_sdiff]
      unfold managed
      rw [h1, h2]
    rw [hset, liveBlks_erase]
    exact h.live.erase (mem_liveBlks.mpr hm)
  · show pg.usedkb = _
    have hsum := Finset.add_sum_erase s.live (fun b => order2size b.2 / 2 ^ 10) hm
    rw [h3, h.used, liveKb, ← hsum]
    exact Nat.add_sub_cancel_left _ _

theorem sysInv_step (h : SysInv min max s) {a : Act} (hs : step s a = some s') :
    SysInv min max s' := by
  cases a with
  | alloc order align =>
    obtain ⟨r, hr, hs⟩ := map_eq_some_iff.mp hs
    rcases bmkPgallocAlign_admits h.inv (admits_of_some hr) with
      ⟨-, hnone⟩ | ⟨bucket, p, -, hle, hp, -, hsome⟩
    · cases hr.symm.trans hnone
      exact hs ▸ h
    · cases hr.symm.trans hsome
      exact hs ▸ sysInv_alloc h hle hp
  | free addr order =>
    simp only [step] at hs
    split at hs
    · next hm =>
      obtain ⟨pg, hpg, hinv⟩ := sysInv_free h hm
      rw [hpg, map_some, some.injEq] at hs
      exact hs ▸ hinv
    · cases hs
  | write addr order at_ hdr =>
    simp only [step] at hs
    split at hs
    · next hm =>
      cases hs
      have hnot : at_ ∉ free s.pg := fun hx =>
        Set.disjoint_left.mp (h.live_bounds hm.1).2.2.2 hx hm.2
      exact ⟨h.minEq, h.maxEq, h.inv.of_shape rfl rfl
        (h.inv.shape.write (h.inv.shape.not_mem_of_disjoint hnot) hdr), h.live, h.used⟩
    · cases hs

theorem sysInv_reach (he : Enough min max) (h : Reach step Trans.any (Init min max) s) :
    SysInv min max s :=
  h.inv (fun _ => sysInv_init he) fun _ _ _ hi _ hs => sysInv_step hi hs

/-! ## How many pages are free -/

/-- The numbers of the pages whose bit is clear. -/
def freePages (s : Pg) : Finset Nat :=
  (Finset.range ((s.maxpageAddr - s.minpageAddr) / pageSize)).filter fun i =>
    allocatedInMap s.allocBitmap i = false

section
variable {s s' : Pg} {i p order : Nat}

theorem vaToPg_page (s : Pg) (i : Nat) : vaToPg s (s.minpageAddr + i * pageSize) = i := by
  have hpos : 0 < pageSize := Nat.two_pow_pos _
  rw [vaToPg, Nat.add_sub_cancel_left, Nat.mul_div_cancel _ hpos]

theorem mem_freePages (h : Inv s) : i ∈ freePages s ↔ s.minpageAddr + i * pageSize ∈ free s := by
  have hend : i < (s.maxpageAddr - s.minpageAddr) / pageSize ↔
      s.minpageAddr + i * pageSize < s.maxpageAddr := by
    have hmin := h.minPage
    have hmax := h.maxPage
    unfold pageSize
    unfold pageShift at *
    omega
  rw [freePages, Finset.mem_filter, Finset.mem_range, hend]
  constructor
  · rintro ⟨hlt, hbit⟩
    exact ⟨le_add_right _ _, hlt, by rwa [pageAllocated, vaToPg_page]⟩
  · rintro ⟨-, hlt, hbit⟩
    rw [pageAllocated, vaToPg_page] at hbit
    exact ⟨hlt, hbit⟩

theorem bmkPgallocAlign_cases (h : Inv s) (ho : order < freelistLevels) :
    bmkPgallocAlign s order pageSize = some (none, s) ∨ ∃ bucket p, order ≤ bucket ∧
      p ∈ s.freelist bucket ∧ bmkPgallocAlign s order pageSize =
        some (some p, takeChunk (unlink s bucket p) order bucket p) := by
  rcases bmkPgallocAlign_admits h (admits_iff.mpr ⟨⟨pageShift, le_rfl, rfl⟩, ho⟩) with
    ⟨-, hnone⟩ | ⟨bucket, p, -, hle, hp, -, hsome⟩
  · exact .inl hnone
  · exact .inr ⟨bucket, p, hle, hp, hsome⟩

theorem card_freePages_takeChunk (h : Inv s) {bucket : Nat} (hle : order ≤ bucket)
    (hp : p ∈ s.freelist bucket) :
    (freePages (takeChunk (unlink s bucket p) order bucket p)).card + 2 ^ order =
      (freePages s).card := by
  obtain ⟨hinv, hfree⟩ := takeChunk_inv h hle hp
  have hmin := (takeChunk_frame (unlink s bucket p) order bucket p).1
  obtain ⟨hlo, -, hdvd, -⟩ := h.bounds hp
  have hpage : 2 ^ pageShift ∣ p := (order2size_dvd bucket).trans hdvd
  have hsub : (blk order p).set ⊆ free s := h.block_free hle hp
  -- the pages of the block, by number
  have hblock : ∀ i, i ∈ Finset.Ico (vaToPg s p) (vaToPg s p + 2 ^ order) ↔
      s.minpageAddr + i * pageSize ∈ (blk order p).set := by
    intro i
    have hrange := vaToPg_range (n := 2 ^ order) h.minPage hpage hlo
      (le_add_right s.minpageAddr (i * pageSize))
    rw [vaToPg_page, ← order2size_eq] at hrange
    exact Finset.mem_Ico.trans hrange
  have hdiff : freePages (takeChunk (unlink s bucket p) order bucket p) =
      freePages s \ Finset.Ico (vaToPg s p) (vaToPg s p + 2 ^ order) := by
    ext i
    rw [mem_freePages hinv, hfree, hmin, Finset.mem_sdiff, mem_freePages h, hblock]
    rfl
  have hincl : Finset.Ico (vaToPg s p) (vaToPg s p + 2 ^ order) ⊆ freePages s := fun i hi =>
    (mem_freePages h).mpr (hsub ((hblock i).mp hi))
  have hcard := Finset.card_sdiff_add_card_eq_card hincl
  rwa [← hdiff, Nat.card_Ico, Nat.add_sub_cancel_left] at hcard

end

/-! ## Main results -/

/-- **The invariant of the buddy allocator.**  After loading memory that is large
enough for its bitmap, and any sequence of admitted allocations, frees of live
blocks and writes into live blocks: (a) the chunks lie in the managed memory,
aligned to their size; (b) chunks and live blocks are pairwise disjoint and cover
exactly the managed memory; (c) a page's bit is clear iff it belongs to a chunk;
(d) a block that is returned is aligned to `align` and to its size; (e) `usedkb` is
the size of the live blocks; (f) no assertion fails. -/
theorem buddy_invariant (he : Enough min max) (h : Reach step Trans.any (Init min max) s) :
    (∀ k a, a ∈ s.pg.freelist k → s.pg.minpageAddr ≤ a ∧ a + order2size k ≤ s.pg.maxpageAddr ∧
      order2size k ∣ a ∧ k < freelistLevels) ∧
    ((∀ k, (s.pg.freelist k).Nodup) ∧
      (∀ b ∈ chunks s.pg, ∀ c ∈ chunks s.pg, b ≠ c → Disjoint b.set c.set) ∧
      (∀ b ∈ liveBlks s.live, ∀ c ∈ liveBlks s.live, b ≠ c → Disjoint b.set c.set) ∧
      (∀ b ∈ chunks s.pg, ∀ c ∈ liveBlks s.live, Disjoint b.set c.set) ∧
      (∀ x, x ∈ managed s.pg ↔
        (∃ b ∈ chunks s.pg, x ∈ b.set) ∨ ∃ b ∈ liveBlks s.live, x ∈ b.set)) ∧
    (∀ x ∈ managed s.pg, pageAllocated s.pg x = false ↔ ∃ b ∈ chunks s.pg, x ∈ b.set) ∧
    (∀ order align p pg, bmkPgallocAlign s.pg order align = some (some p, pg) →
      align ∣ p ∧ order2size order ∣ p) ∧
    s.pg.usedkb = liveKb s.live ∧
    ((∀ order align, admits order align = true → bmkPgallocAlign s.pg order align ≠ none) ∧
      ∀ addr order, (addr, order) ∈ s.live → bmkPgfree s.pg addr order ≠ none) := by
  have hi := sysInv_reach he h
  have ht := hi.inv.shape.tiling
  have hsub : free s.pg ⊆ managed s.pg := fun x hx => ⟨hx.1, hx.2.1⟩
  refine ⟨fun k a ha => hi.inv.bounds ha, ⟨hi.inv.shape.nodup, ?_, ?_, ?_, fun x => ?_⟩, ?_, ?_,
    hi.used, ?_, ?_⟩
  · exact fun b hb c hc hne => Set.disjoint_left.mpr fun x hx hx' => hne (ht.disj b hb c hc x hx hx')
  · exact fun b hb c hc hne =>
      Set.disjoint_left.mpr fun x hx hx' => hne (hi.live.disj b hb c hc x hx hx')
  · exact fun b hb c hc => Set.disjoint_left.mpr fun x hx hx' =>
      (hi.live.subset hc hx').2 (ht.subset hb hx)
  · rw [← ht.cover, ← hi.live.cover]
    constructor
    · intro hx
      by_cases hxf : x ∈ free s.pg
      · exact .inl hxf
      · exact .inr ⟨hx, hxf⟩
    · rintro (hx | hx)
      · exact hsub hx
      · exact hx.1
  · intro x hx
    rw [← ht.cover]
    exact ⟨fun hb => ⟨hx.1, hx.2, hb⟩, fun hf => hf.2.2⟩
  · intro order align p pg hr
    rcases bmkPgallocAlign_admits hi.inv (admits_of_some hr) with
      ⟨-, hnone⟩ | ⟨bucket, q, -, hle, hp, hd, hsome⟩
    · cases hr.symm.trans hnone
    · cases hr.symm.trans hsome
      exact ⟨hd, dvd_trans (pow_dvd_pow 2 (by omega)) (hi.inv.bounds hp).2.2.1⟩
  · intro order align hadm
    rcases bmkPgallocAlign_admits hi.inv hadm with ⟨-, hnone⟩ | ⟨bucket, q, -, -, -, -, hsome⟩
    · simp [hnone]
    · simp [hsome]
  · intro addr order hm
    obtain ⟨pg, hpg, -⟩ := sysInv_free hi hm
    rw [hpg]
    simp

theorem max_two_pow_dvd_iff {i j x : Nat} : Max.max (2 ^ i) (2 ^ j) ∣ x ↔ 2 ^ i ∣ x ∧ 2 ^ j ∣ x := by
  rcases le_total i j with hle | hle
  · rw [max_eq_right (Nat.pow_le_pow_right (by decide) hle)]
    exact ⟨fun h => ⟨dvd_trans (pow_dvd_pow 2 hle) h, h⟩, And.right⟩
  · rw [max_eq_left (Nat.pow_le_pow_right (by decide) hle)]
    exact ⟨fun h => ⟨h, dvd_trans (pow_dvd_pow 2 hle) h⟩, And.left⟩

/-- The search fails exactly when no run of free pages is there to be found. -/
theorem findBucket_eq_none_iff {pg : Pg} (hi : Inv pg) {j : Nat} :
    findBucket pg order (2 ^ j) = none ↔
      ¬ ∃ x, Max.max (2 ^ j) (order2size order) ∣ x ∧ Set.Ico x (x + order2size order) ⊆ free pg := by
  constructor
  · rintro hf ⟨x, hx, hsub⟩
    obtain ⟨h1, h2⟩ := max_two_pow_dvd_iff.mp hx
    -- the run lies in a chunk
    obtain ⟨c, hc, hcs⟩ := hi.shape.tiling.exists_tile hi.shape.noBuddy (b := blk order x) h2 hsub
    have hcal := hi.shape.tiling.aligned c hc
    obtain ⟨k, hk, hmem⟩ := blk_of_mem_chunks hc
    have hck : c.exp = k + pageShift := congrArg Blk.exp hk
    have hxc : x ∈ c.set := hcs (blk order x).addr_mem
    have hle : order ≤ k := by
      by_contra hlt
      have hin := nested hcal (c := blk order x) h2 (by
        rw [hck]
        show k + pageShift ≤ order + pageShift
        omega) hxc (blk order x).addr_mem
      have heq : blk order x = c := set_injective (Set.Subset.antisymm hcs hin)
      have : order + pageShift = c.exp := congrArg Blk.exp heq
      omega
    -- and the chunk starts at a multiple of the alignment
    have hd : 2 ^ j ∣ c.addr := by
      by_cases hjk : j ≤ c.exp
      · exact dvd_trans (pow_dvd_pow 2 hjk) hcal
      · have : floor c.exp x = x := floor_eq_self (dvd_trans (pow_dvd_pow 2 (by omega)) h1)
        rw [← (mem_iff hcal).mp hxc, this]
        exact h1
    exact findBucket_ne_none hle (hi.bounds hmem).2.2.2 hmem hd hf
  · intro hno
    by_contra hne
    obtain ⟨⟨bucket, p⟩, hf⟩ := ne_none_iff_exists'.mp hne
    obtain ⟨hle, -, hp, hd⟩ := findBucket_some hf
    have hsz : order2size order ∣ p := dvd_trans (pow_dvd_pow 2 (by omega)) (hi.bounds hp).2.2.1
    exact hno ⟨p, max_two_pow_dvd_iff.mpr ⟨hd, hsz⟩, hi.block_free hle hp⟩

theorem SysInv.free_eq (h : SysInv min max s) :
    free s.pg = managed s.pg \ {x | ∃ b ∈ liveBlks s.live, x ∈ b.set} := by
  ext x
  have hcover := h.live.cover x
  have hsub : x ∈ free s.pg → x ∈ managed s.pg := fun hx => ⟨hx.1, hx.2.1⟩
  simp only [Set.mem_sdiff, Set.mem_ofPred_eq, ← hcover]
  tauto

/-- The live blocks say what is free, and what is free says what the chunks are. -/
theorem SysInv.forgets (hi : SysInv min max s) (hj : SysInv min max s') (hlive : s.live = s'.live) :
    (∀ k, (s.pg.freelist k).Perm (s'.pg.freelist k)) ∧ free s.pg = free s'.pg := by
  have hfree : free s.pg = free s'.pg := by
    rw [hi.free_eq, hj.free_eq, hlive, managed, managed, hi.minEq, hi.maxEq, hj.minEq, hj.maxEq]
  have hch : chunks s.pg = chunks s'.pg :=
    (hfree ▸ hi.inv.shape.tiling).unique hi.inv.shape.noBuddy hj.inv.shape.tiling hj.inv.shape.noBuddy
  refine ⟨fun k => ?_, hfree⟩
  rw [perm_ext_iff_of_nodup (hi.inv.shape.nodup k) (hj.inv.shape.nodup k)]
  intro a
  rw [← mem_chunks, ← mem_chunks, hch]

/-- **Canonicity and completeness.**  In every reachable state the chunks are the
maximal aligned blocks of free pages, and no two of them are buddies; allocation
returns NULL, and changes nothing, iff no run of free pages of the size, aligned to
the larger of the size and `align`, exists; and when no block is live the lists hold
the chunks they held right after the memory was loaded. -/
theorem buddy_canonical (he : Enough min max) (h : Reach step Trans.any (Init min max) s) :
    (∀ b, b ∈ chunks s.pg ↔ IsMax (free s.pg) b) ∧
    (∀ b ∈ chunks s.pg, b.buddy ∉ chunks s.pg) ∧
    (∀ order align, admits order align = true →
      ((∃ pg, bmkPgallocAlign s.pg order align = some (none, pg)) ↔
        ¬ ∃ x, Max.max align (order2size order) ∣ x ∧
          Set.Ico x (x + order2size order) ⊆ free s.pg) ∧
      ∀ pg, bmkPgallocAlign s.pg order align = some (none, pg) → pg = s.pg) ∧
    (s.live = ∅ → ∀ s₀, Init min max s₀ → ∀ k, (s.pg.freelist k).Perm (s₀.pg.freelist k)) := by
  have hi := sysInv_reach he h
  refine ⟨hi.inv.shape.tiling.isMax_iff hi.inv.shape.noBuddy, hi.inv.shape.noBuddy, ?_, ?_⟩
  · intro order align hadm
    have hcases := bmkPgallocAlign_admits hi.inv hadm
    obtain ⟨⟨j, hj, rfl⟩, -⟩ := admits_iff.mp hadm
    rw [← findBucket_eq_none_iff hi.inv]
    rcases hcases with ⟨hf, hnone⟩ | ⟨bucket, p, hf, -, -, -, hsome⟩
    · rw [hf, hnone]
      simp [eq_comm]
    · rw [hf, hsome]
      simp
  · -- nothing is live, now as then
    exact fun hlive s₀ h₀ => (hi.forgets (sysInv_init he h₀) (hlive.trans h₀.2.symm)).1

/-- **The past does not matter.**  Two runs that end with the same blocks live, whatever they did and
whatever was in the memory before, have the same chunks on the lists and the same pages marked. -/
theorem buddy_forgets (he : Enough min max) (hs : Reach step Trans.any (Init min max) s)
    (hs' : Reach step Trans.any (Init min max) s') (hlive : s.live = s'.live) :
    (∀ k, (s.pg.freelist k).Perm (s'.pg.freelist k)) ∧ free s.pg = free s'.pg :=
  (sysInv_reach he hs).forgets (sysInv_reach he hs') hlive

end

/-! ## The size of the bitmap

A range that ends with a word accesses the word behind it, if only to write it back unchanged.  The
byte that is added to the size before it is rounded makes room for the one at the end of memory. -/

/-- The pages behind the bitmap. -/
def managedPages (min max : Nat) : Nat :=
  (truncPage max - (roundPage min + bitmapSize min max)) / pageSize

theorem managedPages_lt (min max : Nat) : managedPages min max < 8 * bitmapSize min max := by
  unfold managedPages bitmapSize roundPage pageSize pageShift
  omega

theorem word_in_bitmap {min max page : Nat} (h : page < 8 * bitmapSize min max) :
    8 * (page / 64) + 8 ≤ bitmapSize min max := by
  obtain ⟨k, hk⟩ := roundPage_dvd ((truncPage max - roundPage min) / 2 ^ (pageShift + 3) + 1)
  have hk' : bitmapSize min max = 2 ^ 12 * k := hk
  omega

/-- **The range updates inside the bitmap.**  They set or clear the bits of the range and no others,
and access no word outside the bitmap; the range up to the end of memory is one of them. -/
theorem bitmap_ranges {min max first nr : Nat} (h : first + nr < 8 * bitmapSize min max) (m : Words) :
    (∀ p, allocatedInMap (Traced.mapAlloc ⟨m, []⟩ first nr).words p = true ↔
        allocatedInMap m p = true ∨ first ≤ p ∧ p < first + nr) ∧
      (∀ p, allocatedInMap (Traced.mapFree ⟨m, []⟩ first nr).words p = true ↔
        allocatedInMap m p = true ∧ ¬ (first ≤ p ∧ p < first + nr)) ∧
      (∀ i ∈ (Traced.mapAlloc ⟨m, []⟩ first nr).touched, 8 * i + 8 ≤ bitmapSize min max) ∧
      (∀ i ∈ (Traced.mapFree ⟨m, []⟩ first nr).touched, 8 * i + 8 ≤ bitmapSize min max) ∧
      managedPages min max < 8 * bitmapSize min max := by
  have hlast := word_in_bitmap h
  refine ⟨?_, ?_, ?_, ?_, managedPages_lt min max⟩
  · intro p
    rw [Traced.mapAlloc_words]
    exact allocatedInMap_mapAlloc m first nr p
  · intro p
    rw [Traced.mapFree_words]
    exact allocatedInMap_mapFree m first nr p
  · intro i hi
    rcases Traced.range_touched i hi with hnil | ⟨-, hle⟩
    · exact absurd hnil not_mem_nil
    · omega
  · intro i hi
    rcases Traced.range_touched i hi with hnil | ⟨-, hle⟩
    · exact absurd hnil not_mem_nil
    · omega

/-- In 65 pages, one of which is for the bitmap, the range of all 64 others ends with a word. -/
theorem bitmap_ranges_all :
    managedPages 0 0x41000 = 64 ∧
      (∀ p, allocatedInMap (Traced.mapFree ⟨fun _ => ~~~0, []⟩ 0 64).words p = true ↔
        allocatedInMap (fun _ => ~~~0) p = true ∧ ¬ (0 ≤ p ∧ p < 0 + 64)) ∧
      (∀ i ∈ (Traced.mapFree ⟨fun _ => ~~~0, []⟩ 0 64).touched, 8 * i + 8 ≤ bitmapSize 0 0x41000) := by
  have h := @bitmap_ranges 0 0x41000 0 64 (by decide) (fun _ => ~~~0)
  exact ⟨by decide, h.2.1, h.2.2.2.1⟩

/-! ## Seven pages -/

theorem enough_small : Enough 0 0x8000 := ⟨by decide, by decide, by decide⟩

/-- The state right after loading 32 kB, of which the bitmap takes a page. -/
def small : State :=
  ⟨(bmkPgallocLoadmem (fun _ => ⟨0, 0⟩) (fun _ => 0) 0 0x8000).get (by decide), ∅⟩

theorem small_init : Init 0 0x8000 small := ⟨⟨_, _, (some_get (by decide)).symm⟩, rfl⟩

/-- After the allocation of one page 4 kB are in use. -/
theorem buddy_invariant_small : ∃ s, Reach step Trans.any (Init 0 0x8000) s ∧
    s.live = {(0x1000, 0)} ∧ s.pg.usedkb = 4 := by
  obtain ⟨s, hr, hlive⟩ := any_finds step (Init 0 0x8000)
    (fun s => s.live = {(0x1000, 0)}) [.alloc 0 0x1000] small_init
    (by decide)
  refine ⟨s, hr, hlive, ?_⟩
  rw [(buddy_invariant enough_small hr).2.2.2.2.1, hlive]
  decide

/-- With four of the seven pages in use, after another one has come and gone, there are not four in a
row. -/
theorem buddy_canonical_small : ∃ s, Reach step Trans.any (Init 0 0x8000) s ∧
    s.live = {(0x4000, 2)} ∧ ¬ ∃ x, Max.max 0x1000 (order2size 2) ∣ x ∧
      Set.Ico x (x + order2size 2) ⊆ free s.pg := by
  obtain ⟨s, hr, hlive, hnone⟩ := any_finds step (Init 0 0x8000)
    (fun s => s.live = {(0x4000, 2)} ∧
      (bmkPgallocAlign s.pg 2 0x1000).map Prod.fst = some none)
    [.alloc 0 0x1000, .alloc 2 0x1000, .free 0x1000 0] small_init (by decide)
  obtain ⟨⟨-, pg⟩, hpg, rfl⟩ := map_eq_some_iff.mp hnone
  exact ⟨s, hr, hlive, ((buddy_canonical enough_small hr).2.2.1 2 0x1000 (by decide)).1.mp ⟨pg, hpg⟩⟩

/-- A page is allocated and freed. -/
theorem buddy_forgets_small : ∃ s t, Init 0 0x8000 s ∧
    Trans.exec step s [.alloc 0 0x1000, .free 0x1000 0] = some t ∧
    ∀ k, (s.pg.freelist k).Perm (t.pg.freelist k) := by
  obtain ⟨t, hrun, hlive⟩ := map_eq_some_iff.mp
    (show (Trans.exec step small [.alloc 0 0x1000, .free 0x1000 0]).map State.live = some ∅ by decide)
  exact ⟨_, t, small_init, hrun, (buddy_forgets enough_small (.start small_init)
    (.exec _ (.start small_init) (okRun_any _ _) hrun) hlive.symm).1⟩

end Librettos.Pgalloc
