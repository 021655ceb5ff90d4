/-
# `Core.Realloc` — growing an allocation

`bmk_memrealloc_user` (`memalloc.c`) finds out how much of a block the caller can use from the
header, as `(1<<(size+MINSHIFT)) - alignpad`, and goes by that twice: a request for no more stays
where it is, and for a larger one so many bytes are copied to a new block.

The shift is of an int.  For blocks below 2 GiB that is the size of the block.  At 2 GiB it is
negative and is extended to almost `2^64`; from 4 GiB on the count of the shift is reduced modulo
32, which is what the processor does, the language leaves it open.  So a large block seems to have
room for anything, or for a few bytes (`realloc_misreads`).  What is asked for in place of it is
computed modulo `2^64` (`Core.MemallocSafe`).  The requests that come out right are found
exactly (`realloc_keeps_iff`).

Beside the heap there are the contents of memory.  Where the allocator writes links and headers
the contents become anything: `junk`.  The page allocator is at its specification, as in
`Core.Memalloc`; for a block of `2^64` bytes it does not even answer `NULL`, an assertion of its
own fails, and nothing is returned to anybody.  What is said here is about calls that return.
-/
import Librettos.Core.MemallocSafe

namespace Librettos.Memalloc

open List Option Trans
open Function (update update_of_ne update_self)
/-! ## Where the allocator writes -/

/-- The address is one of the `w.2` bytes from `w.1` on. -/
def Within (w : Nat × Nat) (x : Nat) : Prop := w.1 ≤ x ∧ x < w.1 + w.2

instance (w : Nat × Nat) (x : Nat) : Decidable (Within w x) := inferInstanceAs (Decidable (_ ∧ _))

/-- The back link of the first block of a list. -/
def backLinkWrites : List Nat → List (Nat × Nat)
  | [] => []
  | x :: _ => [(x + 8, 8)]

/-- `LIST_INSERT_HEAD` -/
def insertHeadWrites (s : State) (bucket frb : Nat) : List (Nat × Nat) :=
  backLinkWrites (s.freebuckets bucket) ++ [(frb, linkSize)]

/-- The loop of `morecore`. -/
def carveWrites (s : State) (bucket sz : Nat) : Nat → Nat → List (Nat × Nat)
  | 0, _ => []
  | n + 1, p => insertHeadWrites s bucket (p + sz) ++
      carveWrites (insertHead s bucket (p + sz)) bucket sz n (p + sz)

/-- A search for a block. -/
def blockallocWrites (s : State) (bucket : Nat) (page : Option Nat) : List (Nat × Nat) :=
  if localbuckets ≤ bucket then []
  else
    match s.freebuckets bucket with
    | _ :: rest => backLinkWrites rest
    | [] =>
      match pgalloc s 0 page with
      | some (s, some p) =>
        carveWrites s bucket (blockSize bucket) (2 ^ pageShift / blockSize bucket - 1) p
      | _ => []

/-- `bmk_memalloc`, when it returns `rv`: the search, and the header. -/
def memallocWrites (s : State) (nbytes align : Nat) (page : Option Nat) (rv : Nat) :
    List (Nat × Nat) :=
  blockallocWrites s (bucketFor (allocbytesFor nbytes (alignFor align))) page ++
    [(rv - hdrSize, hdrSize)]

/-- `bmk_memfree` -/
def memfreeWrites (s : State) (cp : Nat) (who : Who) : List (Nat × Nat) :=
  match s.mem (cp - hdrSize) with
  | none => []
  | some hdr =>
    if hdr.magic ≠ magic ∨ hdr.who ≠ who ∨ localbuckets ≤ hdr.index then []
    else insertHeadWrites s hdr.index (cp - hdr.alignpad)

/-- The headers, when something has been written. -/
def overwrite (mem : Nat → Option Hdr) (writes : List (Nat × Nat)) : Nat → Option Hdr :=
  writes.foldl (fun mem w => clobber mem w.1 w.2) mem

/-- The contents of memory, when something has been written to some of it. -/
def scribble (junk data : Nat → UInt8) (writes : List (Nat × Nat)) : Nat → UInt8 :=
  fun x => if ∃ w ∈ writes, Within w x then junk x else data x

/-- `bmk_memcpy` -/
def memcpy (data : Nat → UInt8) (dst src n : Nat) : Nat → UInt8 :=
  fun x => if dst ≤ x ∧ x < dst + n then data (src + (x - dst)) else data x

/-! ## The function -/

structure Mem where
  heap : State
  data : Nat → UInt8

/-- `1<<n`, an int, where an `unsigned long` is expected -/
def intShift (n : Nat) : BitVec 64 := (1#32 <<< (n % 32)).signExtend 64

/-- `(1<<(size+MINSHIFT)) - alignpad` -/
def keptBytes (hdr : Hdr) : Nat :=
  (intShift (hdr.index + minshift) - BitVec.ofNat 64 hdr.alignpad).toNat

/-- The end of `bmk_memrealloc_user`: the contents are copied to `np` and the old allocation is
freed. -/
def Mem.move (m : Mem) (a : Alloc) (n np : Nat) (junk : Nat → UInt8) : Option Mem :=
  let heap := { m.heap with mem := clobber m.heap.mem np n, live := m.heap.live.erase a }
  (memfree heap a.ptr .user).map fun heap' =>
    ⟨heap', scribble junk (memcpy m.data np a.ptr n) (memfreeWrites heap a.ptr .user)⟩

/-- `bmk_memrealloc_user`; `none` is a halt, and what follows from a header that is none. -/
def memreallocUser (m : Mem) (cp : Option Alloc) (nbytes : Nat) (page : Option Nat)
    (junk : Nat → UInt8) : Option (Mem × Option Nat) :=
  match cp with
  | none =>
    (memalloc m.heap nbytes minalign .user page).map fun r =>
      match r with
      | (heap, none) => (⟨heap, m.data⟩, none)
      | (heap, some rv) =>
        (⟨heap, scribble junk m.data (memallocWrites m.heap nbytes minalign page rv)⟩, some rv)
  | some a =>
    if nbytes = 0 then
      (memfree { m.heap with live := m.heap.live.erase a } a.ptr .user).map fun heap =>
        (⟨heap, scribble junk m.data (memfreeWrites m.heap a.ptr .user)⟩, none)
    else
      match m.heap.mem (a.ptr - hdrSize) with
      | none => none
      | some hdr =>
        if nbytes ≤ keptBytes hdr then some (m, some a.ptr)
        else
          match memalloc m.heap nbytes 8 .user page with
          | none => none
          | some (heap, none) => some (⟨heap, m.data⟩, none)
          | some (heap, some np) =>
            (Mem.move ⟨heap, scribble junk m.data (memallocWrites m.heap nbytes 8 page np)⟩ a
              (keptBytes hdr) np junk).map fun m' => (m', some np)

/-! ## What it is to do -/

/-- What the caller can use of a block. -/
def Alloc.usable (a : Alloc) : Nat := a.base + blockSize a.index - a.ptr

/-- The old block has been freed, once: the allocation is not live any more, and the block is on
its free list once, or back in the page allocator. -/
structure FreedOnce (s s' : State) (a : Alloc) (p : Nat) : Prop where
  live : ∃ c : Alloc, c.ptr = p ∧ s'.live = c :: s.live.erase a
  list : a.index < localbuckets → (s'.freebuckets a.index).count a.base = 1
  page : localbuckets ≤ a.index → (a.base, a.index + minshift - pageShift) ∉ s'.out

/-- A call that returns `p`. -/
structure Grown (m m' : Mem) (a : Alloc) (nbytes p : Nat) : Prop where
  capacity : ∃ c ∈ m'.heap.live, c.ptr = p ∧ p + nbytes ≤ c.base + blockSize c.index
  contents : ∀ i < min a.usable nbytes, m'.data (p + i) = m.data (a.ptr + i)
  old : p = a.ptr ∧ m'.heap = m.heap ∨ FreedOnce m.heap m'.heap a p

/-- What a call that returns has to come to: the allocation has grown, or it has been left
alone. -/
def Right (m : Mem) (a : Alloc) (nbytes : Nat) : Option (Mem × Option Nat) → Prop
  | none => True
  | some (m', none) => m'.heap = m.heap ∧ m'.data = m.data
  | some (m', some p) => Grown m m' a nbytes p

/-- The allocator finds nothing. -/
def NoBlock (s : State) (nbytes : Nat) (page : Option Nat) : Prop :=
  ∀ heap p, memalloc s nbytes 8 .user page ≠ some (heap, some p)

/-- The requests for which it does.  Of a block of `2^l` bytes, `pad` bytes are before the
pointer.  Below 2 GiB, the new size has to be a size with its header.  Above, the block is taken for
almost everything, unless `l` reduced modulo 32 is still enough for what is before the pointer:
then for the rest of that. -/
def keeps (s : State) (a : Alloc) (nbytes : Nat) (page : Option Nat) : Prop :=
  let l := a.index + minshift
  let pad := a.ptr - a.base
  if l < 31 then nbytes + minalign < wordEnd ∨ NoBlock s nbytes page
  else if l % 32 = 31 then
    nbytes ≤ a.usable ∨ wordEnd - 2 ^ 31 - pad < nbytes ∧ NoBlock s nbytes page
  else if 2 ^ (l % 32) < pad then
    nbytes ≤ a.usable ∨ wordEnd + 2 ^ (l % 32) - pad < nbytes ∧ NoBlock s nbytes page
  else nbytes ≤ 2 ^ (l % 32) - pad ∨ NoBlock s nbytes page

section
variable {s s' t : State} {m : Mem} {a c : Alloc} {nbytes n p b rv : Nat} {page : Option Nat}
  {junk data : Nat → UInt8} {w : Nat × Nat} {writes : List (Nat × Nat)}
variable {x dst src i : Nat}

/-! ## The writes are those of the heap

The heap of `Core.Memalloc` has the same writes, for what they do to headers. -/

theorem backLink_eq (mem : Nat → Option Hdr) (l : List Nat) :
    backLink mem l = overwrite mem (backLinkWrites l) := by
  cases l <;> rfl

theorem insertHead_mem (s : State) (b frb : Nat) :
    (insertHead s b frb).mem = overwrite s.mem (insertHeadWrites s b frb) := by
  rw [insertHeadWrites, overwrite, foldl_append]
  exact congrArg (clobber · frb linkSize) (backLink_eq _ _)

theorem carve_mem (b sz : Nat) : ∀ (n p : Nat) (s : State),
    (carve s b sz n p).mem = overwrite s.mem (carveWrites s b sz n p)
  | 0, _, _ => rfl
  | n + 1, p, s => by
    rw [carve, carve_mem b sz n, insertHead_mem, carveWrites, overwrite, overwrite, overwrite,
      foldl_append]

theorem blockalloc_mem {r : Option Nat} (h : blockalloc s b page = some (s', r)) :
    s'.mem = overwrite s.mem (blockallocWrites s b page) := by
  rw [blockalloc] at h
  rw [blockallocWrites]
  split at h
  · next hb =>
    rw [if_pos hb]
    obtain ⟨-, heq⟩ | heq | ⟨p, -, -, heq⟩ := pgalloc_cases s (b + minshift - pageShift) page
    all_goals
      rw [heq] at h
      cases h
    all_goals rfl
  · next hb =>
    have hblks := not_le.mpr (blockSize_mul (not_le.mp hb)).2
    rw [bucketalloc] at h
    rw [if_neg hb]
    cases hlist : s.freebuckets b with
    | cons frb rest =>
      rw [hlist] at h
      cases h
      exact backLink_eq _ _
    | nil =>
      obtain heq | ⟨p, -, -, heq⟩ := pgalloc_zero_cases s page
      · simp only [hlist, morecore, if_neg hblks, heq] at h
        cases h
        simp only [heq]
        rfl
      · simp only [hlist, morecore, if_neg hblks, heq] at h
        cases h
        simp only [heq]
        exact carve_mem _ _ _ _ _

/-! ## What is kept of the contents -/

theorem scribble_of_notin (h : ∀ w ∈ writes, ¬Within w x) : scribble junk data writes x = data x :=
  if_neg fun ⟨w, hw, hx⟩ => h w hw hx

theorem backLinkWrites_within {l : List Nat} (hw : w ∈ backLinkWrites l)
    (hx : Within w x) : ∃ y ∈ l, y ≤ x ∧ x < y + blockSize b := by
  cases l with
  | nil => cases hw
  | cons y l =>
    obtain rfl : w = (y + 8, 8) := by simpa [backLinkWrites] using hw
    have hlink := linkSize_le b
    simp only [Within, linkSize] at hx hlink
    exact ⟨y, mem_cons_self, by omega, by omega⟩

theorem insertHeadWrites_within {frb : Nat} (hw : w ∈ insertHeadWrites s b frb)
    (hx : Within w x) : ∃ y ∈ frb :: s.freebuckets b, y ≤ x ∧ x < y + blockSize b := by
  rcases mem_append.mp hw with hw | hw
  · obtain ⟨y, hy, hin⟩ := backLinkWrites_within hw hx
    exact ⟨y, mem_cons_of_mem _ hy, hin⟩
  · obtain rfl : w = (frb, linkSize) := by simpa using hw
    have hlink := linkSize_le b
    simp only [Within] at hx
    exact ⟨frb, mem_cons_self, by omega, by omega⟩

theorem carveWrites_within : ∀ (n p : Nat) (s : State) {x : Nat},
    w ∈ carveWrites s b (blockSize b) n p → Within w x →
    (p ≤ x ∧ x < p + blockSize b * (n + 1)) ∨ ∃ y ∈ s.freebuckets b, y ≤ x ∧ x < y + blockSize b
  | 0, p, s, x, hw, _ => by simp [carveWrites] at hw
  | n + 1, p, s, x, hw, hx => by
    have hend : p + blockSize b * (n + 1 + 1) = p + blockSize b + blockSize b * (n + 1) := by ring
    have hle : blockSize b ≤ blockSize b * (n + 1) := Nat.le_mul_of_pos_right _ (Nat.succ_pos n)
    have hsplit : ∀ y ∈ (p + blockSize b) :: s.freebuckets b, y ≤ x → x < y + blockSize b →
        (p ≤ x ∧ x < p + blockSize b * (n + 1 + 1)) ∨
          ∃ y ∈ s.freebuckets b, y ≤ x ∧ x < y + blockSize b := by
      intro y hy hlo hhi
      rcases mem_cons.mp hy with rfl | hy
      · exact .inl (by omega)
      · exact .inr ⟨y, hy, hlo, hhi⟩
    rw [carveWrites, mem_append] at hw
    rcases hw with hw | hw
    · obtain ⟨y, hy, hlo, hhi⟩ := insertHeadWrites_within hw hx
      exact hsplit y hy hlo hhi
    · rcases carveWrites_within n (p + blockSize b) _ hw hx with hin | ⟨y, hy, hlo, hhi⟩
      · exact .inl (by omega)
      · simp only [insertHead, update_self] at hy
        exact hsplit y hy hlo hhi

/-- A search writes nothing to live blocks. -/
theorem Inv.blockallocWrites_out (h : Inv s) (hc : c ∈ s.live)
    (hx : c.base ≤ x ∧ x < c.base + blockSize c.index) :
    ∀ w ∈ blockallocWrites s b page, ¬Within w x := by
  have hfree : ∀ y ∈ s.freebuckets b, y ≤ x → ¬x < y + blockSize b := by
    intro y hy hlo hhi
    have hapart := h.mixed c hc b y hy
    simp only [Apart] at hapart
    omega
  intro w hw hwx
  rw [blockallocWrites] at hw
  split at hw
  · cases hw
  · next hb =>
    rw [not_le] at hb
    obtain ⟨hmul, hblks⟩ := blockSize_mul hb
    cases hlist : s.freebuckets b with
    | cons y rest =>
      rw [hlist] at hw
      obtain ⟨z, hz, hlo, hhi⟩ := backLinkWrites_within hw hwx
      exact hfree z (by rw [hlist]; exact mem_cons_of_mem _ hz) hlo hhi
    | nil =>
      rw [hlist] at hw
      obtain heq | ⟨p, -, hpage, heq⟩ := pgalloc_zero_cases s page
      · simp [heq] at hw
      · simp only [heq] at hw
        rcases carveWrites_within _ _ _ hw hwx with hin | ⟨y, hy, hlo, hhi⟩
        · -- the new page is apart from the one that the live block is in
          rw [Nat.sub_add_cancel hblks.le, hmul] at hin
          have hvac := (h.page hpage).2.live c hc
          rw [Nat.zero_add] at hvac
          omega
        · exact hfree y hy hlo hhi

/-- Nor does a request that is given a pointer: the header is in the new block. -/
theorem Inv.memallocWrites_out (h : Inv s) (h' : Inv s')
    (halloc : Memalloc.memalloc s nbytes 8 .user page = some (s', some rv)) (hc : c ∈ s.live)
    (hx : c.base ≤ x ∧ x < c.base + blockSize c.index) :
    ∀ w ∈ memallocWrites s nbytes 8 page rv, ¬Within w x := by
  intro w hw hwx
  rcases mem_append.mp hw with hw | hw
  · exact h.blockallocWrites_out hc hx w hw hwx
  · obtain rfl : w = (rv - hdrSize, hdrSize) := by simpa using hw
    obtain ⟨n, hlive, rfl⟩ := memalloc_live halloc
    have hpair := h'.live
    rw [hlive, pairwise_cons] at hpair
    have hapart := hpair.1 c hc
    have hplaced := h'.placed n (by rw [hlive]; exact mem_cons_self)
    have hstart := hplaced.start
    have hstop := hplaced.stop
    simp only [Within, Apart, hdrSize] at *
    omega

/-- What is freed is written to, and the free list; the other blocks are not. -/
theorem Inv.memfreeWrites_out (h : Inv s) (hp : Placed s.mem a)
    (hvac : Vacant s a.base (a.base + blockSize a.index)) (hc : c ∈ s.live)
    (hx : c.base ≤ x ∧ x < c.base + blockSize c.index) :
    ∀ w ∈ memfreeWrites s a.ptr a.who, ¬Within w x := by
  intro w hw hwx
  have hstart := hp.start
  have horig : a.ptr - (a.ptr - a.base) = a.base := by omega
  simp only [memfreeWrites, hp.header, horig] at hw
  split at hw
  · cases hw
  · obtain ⟨y, hy, hlo, hhi⟩ := insertHeadWrites_within hw hwx
    rcases mem_cons.mp hy with rfl | hy
    · have hlive := hvac.live c hc
      omega
    · have hapart := h.mixed c hc _ y hy
      simp only [Apart] at hapart
      omega

theorem memcpy_of_lt (hi : i < n) : memcpy data dst src n (dst + i) = data (src + i) := by
  rw [memcpy, if_pos ⟨Nat.le_add_right _ _, by omega⟩, Nat.add_sub_cancel_left]

theorem memcpy_end : memcpy data dst src n (dst + n) = data (dst + n) :=
  if_neg fun h => lt_irrefl _ h.2

/-! ## The old block -/

theorem memfree_live {cp : Nat} {who : Who} (h : memfree s cp who = some s') : s'.live = s.live := by
  rw [memfree] at h
  split at h
  · cases h
    rfl
  · split at h
    · cases h
      rfl
    · split at h
      · cases h
        rfl
      · split at h
        · cases h
        · simp only at h
          split at h
          · cases h
            rfl
          · cases h
            rfl

theorem Inv.eq_of_ptr (h : Inv s) (ha : a ∈ s.live) (hc : c ∈ s.live) (hptr : c.ptr = a.ptr) :
    c = a := by
  by_contra hne
  have hapart := (h.erase ha).2.live c ((mem_erase_of_ne hne).mpr hc)
  have hstart := (h.placed a ha).start
  have hstop := (h.placed a ha).stop
  have hstart' := (h.placed c hc).start
  have hstop' := (h.placed c hc).stop
  simp only [hdrSize] at hstart hstart'
  omega

theorem memfree_returns {cp : Nat} {who : Who}
    (hwho : ∀ hdr, s.mem (cp - hdrSize) = some hdr → hdr.who = who) :
    (memfree s cp who).isSome = true := by
  rw [memfree]
  split
  · rfl
  · split
    · rfl
    · next hdr hmem =>
      split
      · rfl
      · rw [if_neg (not_not.mpr (hwho hdr hmem))]
        dsimp only
        split <;> rfl

theorem Inv.move (data junk : Nat → UInt8) (h : Inv s) (ha : a ∈ s.live) (hwho : a.who = .user)
    (hc : c ∈ s.live) (hca : c ≠ a) (hn : n ≤ c.nbytes) :
    ∃ m', Mem.move ⟨s, data⟩ a n c.ptr junk = some m' ∧ m'.heap.live = s.live.erase a ∧
      (a.index < localbuckets → (m'.heap.freebuckets a.index).count a.base = 1) ∧
      (localbuckets ≤ a.index → (a.base, a.index + minshift - pageShift) ∉ m'.heap.out) ∧
      ∀ i < n, m'.data (c.ptr + i) = data (a.ptr + i) := by
  have hwrite := h.write hc le_rfl (Nat.add_le_add_left hn c.ptr)
  obtain ⟨hinv, hvac⟩ := hwrite.erase ha
  have hp : Placed (clobber s.mem c.ptr n) a := hwrite.placed a ha
  have hc' : c ∈ s.live.erase a := (mem_erase_of_ne hca).mpr hc
  have hfree := Placed.memfree
    (s := { s with mem := clobber s.mem c.ptr n, live := s.live.erase a }) hp
  rw [hwho] at hfree
  have hout := fun x hx => hinv.memfreeWrites_out (x := x) hp hvac hc' hx
  rw [hwho] at hout
  refine ⟨_, by rw [Mem.move, hfree]; rfl, ?_, ?_, ?_, ?_⟩
  · exact memfree_live hfree
  · intro hlocal
    have hnotin : a.base ∉ s.freebuckets a.index := by
      intro hmem
      have hpos := blockSize_pos a.index
      have hapart := hvac.free a.index a.base hmem
      omega
    simp only [if_neg (not_le.mpr hlocal), Memalloc.insertHead, update_self]
    rw [count_cons_self, count_eq_zero.mpr hnotin]
  · intro hlarge
    simp only [if_pos hlarge]
    exact Finset.notMem_erase _ _
  · intro i hi
    have hstart := (h.placed c hc).start
    have hstop := (h.placed c hc).stop
    exact (scribble_of_notin (hout _ (by omega))).trans (memcpy_of_lt hi)

/-! ## The size that is read off the header -/

theorem wordEnd_eq : wordEnd = 18446744073709551616 := rfl

theorem intShift_toNat (n : Nat) :
    (intShift n).toNat = if n % 32 = 31 then wordEnd - 2 ^ 31 else 2 ^ (n % 32) := by
  have hall : ∀ k < 32, ((1#32 <<< k).signExtend 64).toNat =
      if k = 31 then wordEnd - 2 ^ 31 else 2 ^ k := by decide
  exact hall _ (Nat.mod_lt _ (by decide))

theorem keptBytes_eq (hdr : Hdr) (hpad : hdr.alignpad < 2 ^ 32) : keptBytes hdr =
    if hdr.alignpad ≤ (intShift (hdr.index + minshift)).toNat then
      (intShift (hdr.index + minshift)).toNat - hdr.alignpad
    else wordEnd + (intShift (hdr.index + minshift)).toNat - hdr.alignpad := by
  have hword := wordEnd_eq
  rw [keptBytes, BitVec.toNat_sub, BitVec.toNat_ofNat]
  split <;> omega

/-- What is read off a header: almost everything, the bytes of a smaller block, or almost
everything and the bytes of a smaller block. -/
theorem keptBytes_cases (hdr : Hdr) (hpad : hdr.alignpad < 2 ^ 32) :
    ((hdr.index + minshift) % 32 = 31 ∧ keptBytes hdr + hdr.alignpad + 2 ^ 31 = wordEnd) ∨
    ((hdr.index + minshift) % 32 ≠ 31 ∧ hdr.alignpad ≤ 2 ^ ((hdr.index + minshift) % 32) ∧
      keptBytes hdr + hdr.alignpad = 2 ^ ((hdr.index + minshift) % 32)) ∨
    ((hdr.index + minshift) % 32 ≠ 31 ∧ 2 ^ ((hdr.index + minshift) % 32) < hdr.alignpad ∧
      keptBytes hdr + hdr.alignpad = wordEnd + 2 ^ ((hdr.index + minshift) % 32)) := by
  have hword := wordEnd_eq
  have hkept := keptBytes_eq hdr hpad
  have hshift := intShift_toNat (hdr.index + minshift)
  by_cases h31 : (hdr.index + minshift) % 32 = 31
  · rw [if_pos h31] at hshift
    rw [if_pos (by omega)] at hkept
    exact .inl ⟨h31, by omega⟩
  · rw [if_neg h31] at hshift
    rw [hshift] at hkept
    by_cases hle : hdr.alignpad ≤ 2 ^ ((hdr.index + minshift) % 32)
    · rw [if_pos hle] at hkept
      exact .inr (.inl ⟨h31, hle, by omega⟩)
    · rw [if_neg hle] at hkept
      exact .inr (.inr ⟨h31, not_le.mp hle, by omega⟩)

/-- The padding of an allocation has a place in the header. -/
def Padded (live : List Alloc) : Prop := ∀ a ∈ live, a.ptr - a.base < 2 ^ 32

theorem Padded.step {act : Act} (h : Padded s.live) (hinv : Inv s) (hok : roomy s act)
    (hs : step s act = some s') : Padded s'.live := by
  have hinv' := (hinv.step hok hs).1
  cases act with
  | memalloc nbytes align who page =>
    obtain ⟨⟨-, -, halign⟩, hs⟩ := ite_none_right_eq_some.mp hs
    rcases hr : Memalloc.memalloc s nbytes align who page with _ | ⟨t, _ | rv⟩
    all_goals
      rw [hr] at hs
      cases hs
    · exact h
    · exact memalloc_none hr ▸ h
    · obtain ⟨t, hdr, hblock, rfl, rfl⟩ := memalloc_some hr
      intro a ha
      rcases mem_cons.mp ha with rfl | ha
      · -- the header that was written is the one it is to have
        have hheader := (hinv'.placed _ mem_cons_self).header
        simp only [State.place, update_self, some.injEq, Hdr.mk.injEq] at hheader
        exact hheader.1 ▸ Nat.mod_lt _ (by decide)
      · exact h a ((blockalloc_frame hblock).1 ▸ ha)
  | memfree a =>
    obtain ⟨⟨-, ha⟩, hs⟩ := ite_none_right_eq_some.mp hs
    obtain ⟨r, hr, -⟩ := hinv.memfree ha
    rw [hr] at hs
    cases hs
    rw [memfree_live hr]
    exact fun c hc => h c (mem_of_mem_erase hc)
  | write a lo n =>
    obtain ⟨-, ⟨⟩⟩ := ite_none_right_eq_some.mp hs
    exact h

theorem reach_padded (h : Reach step roomy Init s) : Inv s ∧ Padded s.live := by
  refine h.inv (I := fun s => Inv s ∧ Padded s.live) (fun s h0 => ⟨h0.inv, ?_⟩)
    fun _ _ _ hi hok hs => ⟨(hi.1.step hok hs).1, hi.2.step hi.1 hok hs⟩
  simp [Padded, h0.live]

/-- The header of an allocation. -/
def Alloc.hdr (a : Alloc) : Hdr := ⟨a.ptr - a.base, magic, a.index, a.who⟩

/-- What is known of the sizes of an allocation. -/
structure Sized (a : Alloc) : Prop where
  pad : a.ptr - a.base < 2 ^ 32
  usable : a.usable + (a.ptr - a.base) = 2 ^ (a.index + minshift)
  bound : 2 ^ (a.index + minshift) ≤ 2 ^ 63

theorem Housed.blockSize_le {out : Finset (Nat × Nat)} (h : Housed out x i) :
    blockSize i ≤ 2 ^ 63 := by
  have hlog : 2 ^ (i + minshift) < 2 ^ 64 := (Nat.le_add_left _ _).trans_lt h.bound
  have hle := Nat.le_of_lt_succ ((Nat.pow_lt_pow_iff_right one_lt_two).mp hlog)
  exact Nat.pow_le_pow_right two_pos hle

theorem Inv.sized (h : Inv s) (hpad : Padded s.live) (ha : a ∈ s.live) : Sized a := by
  have hstart := (h.placed a ha).start
  have hstop := (h.placed a ha).stop
  rw [blockSize] at hstop
  constructor
  case pad => exact hpad a ha
  case usable =>
    rw [Alloc.usable, blockSize]
    omega
  case bound => exact (h.housedLive a ha).blockSize_le

theorem Sized.of_lt (h : Sized a) (hl : a.index + minshift < 31) : keptBytes a.hdr = a.usable := by
  have husable := h.usable
  have hmod : (a.index + minshift) % 32 = a.index + minshift := Nat.mod_eq_of_lt (by omega)
  rcases keptBytes_cases a.hdr h.pad with ⟨h31, -⟩ | ⟨-, -, hkept⟩ | ⟨-, hlt, -⟩
  · simp only [Alloc.hdr] at h31
    omega
  · simp only [Alloc.hdr, hmod] at hkept ⊢
    omega
  · simp only [Alloc.hdr, hmod] at hlt
    omega

theorem Sized.of_ge (h : Sized a) (hl : 31 ≤ a.index + minshift) :
    2 ^ 63 ≤ keptBytes a.hdr ∨ keptBytes a.hdr < a.usable := by
  have husable := h.usable
  have hpad := h.pad
  have hword := wordEnd_eq
  rcases keptBytes_cases a.hdr h.pad with ⟨-, hkept⟩ | ⟨h31, -, hkept⟩ | ⟨-, hlt, hkept⟩
  · simp only [Alloc.hdr] at hkept ⊢
    omega
  · simp only [Alloc.hdr] at h31 hkept ⊢
    have hlt : 2 ^ ((a.index + minshift) % 32) < 2 ^ (a.index + minshift) :=
      Nat.pow_lt_pow_right one_lt_two (by omega)
    omega
  · simp only [Alloc.hdr] at hlt hkept ⊢
    generalize 2 ^ ((a.index + minshift) % 32) = q at hlt hkept
    omega

theorem Sized.keeps_iff (h : Sized a) : keeps s a nbytes page ↔
    nbytes ≤ keptBytes a.hdr ∧ nbytes ≤ a.usable ∨ keptBytes a.hdr < nbytes ∧
      (NoBlock s nbytes page ∨ a.index + minshift < 31 ∧ nbytes + minalign < wordEnd) := by
  have husable := h.usable
  have hbound := h.bound
  have hword := wordEnd_eq
  simp only [keeps]
  by_cases hl : a.index + minshift < 31
  · have hsmall : 2 ^ (a.index + minshift) ≤ 2 ^ 30 := Nat.pow_le_pow_right two_pos (by omega)
    have h16 : minalign = 16 := rfl
    rw [if_pos hl, h.of_lt hl]
    by_cases hno : NoBlock s nbytes page <;> simp only [hno, hl, true_and, or_true, true_or,
      or_false, false_or, and_true, true_iff] <;> omega
  · have hle : 2 ^ ((a.index + minshift) % 32) ≤ 2 ^ (a.index + minshift) :=
      Nat.pow_le_pow_right two_pos (Nat.mod_le _ _)
    rw [if_neg hl]
    rcases keptBytes_cases a.hdr h.pad with
      ⟨h31, hkept⟩ | ⟨h31, hge, hkept⟩ | ⟨h31, hlt, hkept⟩
    · simp only [Alloc.hdr] at h31 hkept ⊢
      rw [if_pos h31]
      by_cases hno : NoBlock s nbytes page <;> simp only [hno, hl, false_and, and_true, and_false,
        or_false] <;> omega
    · simp only [Alloc.hdr] at h31 hge hkept ⊢
      rw [if_neg h31, if_neg (not_lt.mpr hge)]
      by_cases hno : NoBlock s nbytes page <;> simp only [hno, hl, false_and, and_true, and_false,
        or_false, or_true, true_iff] <;> omega
    · simp only [Alloc.hdr] at h31 hlt hkept ⊢
      rw [if_neg h31, if_pos hlt]
      generalize 2 ^ ((a.index + minshift) % 32) = q at hle hlt hkept ⊢
      by_cases hno : NoBlock s nbytes page <;> simp only [hno, hl, false_and, and_true, and_false,
        or_false] <;> omega

/-! ## The outcome -/

theorem Inv.memalloc_fresh (h : Inv s') (hlive : s'.live = c :: s.live) : c ∉ s.live := by
  intro hc
  have hpair := h.live
  rw [hlive, pairwise_cons] at hpair
  have hpos := blockSize_pos c.index
  have hapart := hpair.1 c hc
  simp only [Apart] at hapart
  omega

theorem move_some {m' : Mem} (h : Mem.move m a n p junk = some m') :
    m'.heap.live = m.heap.live.erase a ∧
      ∃ ws, m'.data = scribble junk (memcpy m.data p a.ptr n) ws := by
  obtain ⟨heap, hfree, rfl⟩ := map_eq_some_iff.mp h
  exact ⟨memfree_live hfree, _, rfl⟩

theorem scribble_zero (h : data x = 0) : scribble (fun _ => 0) data writes x = 0 := by
  rw [scribble]
  split
  · rfl
  · exact h

section
variable (h : Inv s)
include h

section
variable (ha : a ∈ s.live) (hpos : 0 < nbytes)
include ha hpos

section
variable (hle : nbytes ≤ keptBytes a.hdr)
include hle

theorem Inv.realloc_inPlace :
    memreallocUser ⟨s, data⟩ (some a) nbytes page junk = some (⟨s, data⟩, some a.ptr) := by
  simp only [memreallocUser, if_neg hpos.ne', (h.placed a ha).header]
  exact if_pos hle

/-- A block that is returned has to have the room. -/
theorem Inv.not_right_of_inPlace (husable : a.usable < nbytes) :
    ¬Right ⟨s, data⟩ a nbytes (memreallocUser ⟨s, data⟩ (some a) nbytes page junk) := by
  rw [h.realloc_inPlace ha hpos hle]
  intro hright
  obtain ⟨c, hc, hptr, hcap⟩ := hright.capacity
  obtain rfl := h.eq_of_ptr ha hc hptr
  rw [Alloc.usable] at husable
  omega

theorem Inv.right_of_inPlace (husable : nbytes ≤ a.usable) :
    Right ⟨s, data⟩ a nbytes (memreallocUser ⟨s, data⟩ (some a) nbytes page junk) := by
  rw [h.realloc_inPlace ha hpos hle]
  rw [Alloc.usable] at husable
  exact ⟨⟨a, ha, rfl, by omega⟩, fun _ _ => rfl, .inl ⟨rfl, rfl⟩⟩

end

theorem Inv.realloc_grows (hlt : keptBytes a.hdr < nbytes) :
    memreallocUser ⟨s, data⟩ (some a) nbytes page junk =
      match Memalloc.memalloc s nbytes 8 .user page with
      | none => none
      | some (heap, none) => some (⟨heap, data⟩, none)
      | some (heap, some np) =>
        (Mem.move ⟨heap, scribble junk data (memallocWrites s nbytes 8 page np)⟩ a (keptBytes a.hdr) np
          junk).map fun m' => (m', some np) := by
  simp only [memreallocUser, if_neg hpos.ne', (h.placed a ha).header]
  exact if_neg (not_le.mpr hlt)

end

theorem Inv.memalloc_answers (nbytes : Nat) (page : Option Nat) :
    Memalloc.memalloc s nbytes 8 .user page = none ∨
      Memalloc.memalloc s nbytes 8 .user page = some (s, none) ∨
      ∃ s' rv, Memalloc.memalloc s nbytes 8 .user page = some (s', some rv) := by
  have hpow : ¬ 8 &&& (8 - 1) ≠ 0 := by decide
  have halign : ¬ 2 ^ 31 < alignFor 8 := by decide
  rw [Memalloc.memalloc, if_neg hpow, if_neg halign]
  dsimp only
  have hfinds : Finds s (bucketFor (allocbytesFor nbytes (alignFor 8)))
      (Memalloc.blockalloc s (bucketFor (allocbytesFor nbytes (alignFor 8))) page) := h.blockalloc
  rcases hfinds with ⟨hr, -⟩ | hr | ⟨t, hdr, hr, -⟩
  · exact .inl (by rw [hr]; rfl)
  · exact .inr (.inl (by rw [hr]; rfl))
  · exact .inr (.inr ⟨_, _, by rw [hr]; rfl⟩)

section
variable (halloc : Memalloc.memalloc s nbytes 8 .user page = some (s', some rv))
include halloc

theorem Inv.memalloc_found :
    ∃ t hdr, Found t hdr (bucketFor (allocbytesFor nbytes (alignFor 8))) ∧ t.live = s.live ∧
      s' = t.place nbytes 8 .user (bucketFor (allocbytesFor nbytes (alignFor 8))) hdr ∧
      rv = alignUp (hdr + hdrSize) (alignFor 8) := by
  obtain ⟨t, hdr, hblock, hs', hrv⟩ := memalloc_some halloc
  have hfinds : Finds s (bucketFor (allocbytesFor nbytes (alignFor 8)))
      (Memalloc.blockalloc s (bucketFor (allocbytesFor nbytes (alignFor 8))) page) := h.blockalloc
  rw [hblock] at hfinds
  rcases hfinds with ⟨hr, -⟩ | hr | ⟨t', x, hr, hfound⟩
  · cases hr
  · cases hr
  · cases hr
    exact ⟨t, hdr, hfound, (blockalloc_frame hblock).1, hs', hrv⟩

/-- Also where a request wraps around, the pointer is not at the bottom of the address space and
the blocks are not at the top. -/
theorem Inv.memalloc_bounds :
    minalign ≤ rv ∧ ∀ c ∈ s'.live, c.base + blockSize c.index < wordEnd := by
  obtain ⟨t, hdr, hfound, -, rfl, rfl⟩ := h.memalloc_found halloc
  have hbound := hfound.housed.bound
  constructor
  · have hdvd : 2 ^ 4 ∣ hdr :=
      (Nat.pow_dvd_pow 2 (by rw [minshift]; omega)).trans hfound.housed.aligned
    have hlink := linkSize_le (bucketFor (allocbytesFor nbytes (alignFor 8)))
    have halign : alignFor 8 = 2 ^ 4 := rfl
    rw [linkSize] at hlink
    rw [halign] at hbound hlink ⊢
    rw [alignUp_add (by omega) (by omega) hdvd (by omega)]
    exact Nat.le_add_left _ _
  · intro c hc
    rcases mem_cons.mp hc with rfl | hc
    · exact hbound
    · exact (hfound.inv.housedLive c hc).bound

theorem Inv.memalloc_new (hroom : nbytes + minalign < wordEnd) :
    ∃ c : Alloc, Inv s' ∧ s'.live = c :: s.live ∧ c.ptr = rv ∧ c.nbytes = nbytes := by
  have hinv : Inv s' := (h.memalloc (.inr ⟨3, by decide, rfl⟩) hroom .user page).1 _ halloc
  obtain ⟨t, hdr, hblock, rfl, rfl⟩ := memalloc_some halloc
  exact ⟨_, hinv, congrArg (_ :: ·) (blockalloc_frame hblock).1, rfl, rfl⟩

variable (ha : a ∈ s.live) (hwho : a.who = .user)
include ha hwho

/-- Also then the old block is given back by a call that returns: no header but its own, or the
new one, can be found there. -/
theorem Inv.move_returns : ∃ m', Mem.move ⟨s', data⟩ a n rv junk = some m' := by
  obtain ⟨t, hdr, hfound, hlive, rfl, rfl⟩ := h.memalloc_found halloc
  have hheader := (hfound.inv.placed a (hlive ▸ ha)).header
  rw [← isSome_iff_exists, Mem.move, isSome_map]
  refine memfree_returns fun hdr' hmem => ?_
  simp only [State.place, Memalloc.clobber, Function.update_apply, hheader, hwho] at hmem
  split_ifs at hmem <;> cases hmem <;> rfl

variable (hpos : 0 < nbytes) (hlt : keptBytes a.hdr < nbytes)
include hpos hlt

/-- A block that has been copied whole is a right one. -/
theorem Inv.right_of_moved (hkept : keptBytes a.hdr = a.usable)
    (hroom : nbytes + minalign < wordEnd) :
    Right ⟨s, data⟩ a nbytes (memreallocUser ⟨s, data⟩ (some a) nbytes page junk) := by
  obtain ⟨c, hinv, hlive, hptr, hbytes⟩ := h.memalloc_new halloc hroom
  have hc : c ∈ s'.live := by rw [hlive]; exact mem_cons_self
  have ha' : a ∈ s'.live := by rw [hlive]; exact mem_cons_of_mem _ ha
  have hca : c ≠ a := fun heq => hinv.memalloc_fresh hlive (heq ▸ ha)
  obtain ⟨m', hmove, hlive', hlist, hpage, hdata⟩ := hinv.move
    (scribble junk data (memallocWrites s nbytes 8 page rv)) junk ha' hwho hc hca
    (hlt.le.trans hbytes.ge)
  have hlive'' : m'.heap.live = c :: s.live.erase a := by
    rw [hlive', hlive, erase_cons_tail (by simpa using hca)]
  rw [hptr] at hmove hdata
  rw [h.realloc_grows ha hpos hlt, halloc]
  dsimp only
  rw [hmove]
  change Grown _ _ _ _ _
  constructor
  case capacity =>
    have hstop := (hinv.placed c hc).stop
    rw [hptr, hbytes] at hstop
    exact ⟨c, by rw [hlive'']; exact mem_cons_self, hptr, hstop⟩
  case contents =>
    intro i hi
    have hi' : i < keptBytes a.hdr := by
      rw [hkept]
      exact hi.trans_le (min_le_left _ _)
    have hstart := (h.placed a ha).start
    have husable : i < a.base + blockSize a.index - a.ptr := hi'.trans_eq hkept
    rw [hdata i hi']
    exact scribble_of_notin (h.memallocWrites_out hinv halloc ha (by omega))
  case old => exact .inr ⟨⟨c, hptr, hlive''⟩, hlist, hpage⟩

/-- A block that was asked for modulo `2^64` is none. -/
theorem Inv.not_right_of_wrapped (hwrap : wordEnd ≤ nbytes + minalign) :
    ¬Right ⟨s, data⟩ a nbytes (memreallocUser ⟨s, data⟩ (some a) nbytes page junk) := by
  obtain ⟨hrv, hbound⟩ := h.memalloc_bounds halloc
  obtain ⟨m', hmove⟩ := h.move_returns halloc ha hwho
  rw [h.realloc_grows ha hpos hlt, halloc]
  dsimp only
  rw [hmove]
  intro hgrown
  obtain ⟨c, hc, -, hcap⟩ := hgrown.capacity
  rw [(move_some hmove).1] at hc
  have hend := hbound c (mem_of_mem_erase hc)
  omega

/-- A byte that is not copied can be any. -/
theorem Inv.not_right_of_short (hshort : keptBytes a.hdr < a.usable) (hne : rv ≠ a.ptr) :
    ∃ data junk, ¬Right ⟨s, data⟩ a nbytes (memreallocUser ⟨s, data⟩ (some a) nbytes page junk) := by
  -- the first byte that is not copied is the only one that is not 0
  refine ⟨update (fun _ => 0) (a.ptr + keptBytes a.hdr) 1, fun _ => 0, ?_⟩
  obtain ⟨m', hmove⟩ := h.move_returns halloc ha hwho
  rw [h.realloc_grows ha hpos hlt, halloc]
  dsimp only
  rw [hmove]
  intro hgrown
  have hbyte := hgrown.contents (keptBytes a.hdr) (lt_min hshort hlt)
  obtain ⟨-, ws, hdata⟩ := move_some hmove
  have hzero : m'.data (rv + keptBytes a.hdr) = 0 := by
    rw [hdata]
    refine scribble_zero ?_
    rw [memcpy_end]
    exact scribble_zero (update_of_ne (by omega) _ _)
  rw [hzero] at hbyte
  simp at hbyte

/-- What is moved is right where the size that was copied is the size, and the new size one with a
header. -/
theorem Inv.moved_iff (hpad : Padded s.live) :
    (∀ data junk, Right ⟨s, data⟩ a nbytes (memreallocUser ⟨s, data⟩ (some a) nbytes page junk)) ↔
      a.index + minshift < 31 ∧ nbytes + minalign < wordEnd := by
  have hsized := h.sized hpad ha
  constructor
  · intro hall
    have hroom : nbytes + minalign < wordEnd := by
      by_contra hwrap
      exact h.not_right_of_wrapped halloc ha hwho hpos hlt (not_lt.mp hwrap)
        (hall (fun _ => 0) fun _ => 0)
    refine ⟨?_, hroom⟩
    by_contra hl
    obtain ⟨c, hinv, hlive, hptr, hbytes⟩ := h.memalloc_new halloc hroom
    have hc : c ∈ s'.live := by rw [hlive]; exact mem_cons_self
    have ha' : a ∈ s'.live := by rw [hlive]; exact mem_cons_of_mem _ ha
    rcases hsized.of_ge (not_lt.mp hl) with hlarge | hshort
    · -- no block is large enough for what is above half of the address space
      have hstart := (hinv.placed c hc).start
      have hstop := (hinv.placed c hc).stop
      have hhalf := (hinv.housedLive c hc).blockSize_le
      omega
    · have hne : rv ≠ a.ptr := by
        intro heq
        have hca := hinv.eq_of_ptr ha' hc (hptr.trans heq)
        exact hinv.memalloc_fresh hlive (hca ▸ ha)
      obtain ⟨data, junk, hnot⟩ := h.not_right_of_short halloc ha hwho hpos hlt hshort hne
      exact hnot (hall data junk)
  · rintro ⟨hl, hroom⟩ data junk
    exact h.right_of_moved halloc ha hwho hpos hlt (hsized.of_lt hl) hroom

end

end

/-- **Reallocation.**  In every state that is reached without a request that overflows, for every
live allocation of a user, every new size and every answer of the page allocator: whatever memory
contains, the call, if it returns, leaves the caller with a block of the new size and with the old contents, the
old block having been freed once, or with the old block untouched, exactly if the old and
the new size are among those of `keeps`. -/
theorem realloc_keeps_iff (h : Reach step roomy Init s) (ha : a ∈ s.live)
    (hwho : a.who = .user) (hpos : 0 < nbytes) :
    (∀ data junk, Right ⟨s, data⟩ a nbytes (memreallocUser ⟨s, data⟩ (some a) nbytes page junk)) ↔
      keeps s a nbytes page := by
  obtain ⟨hinv, hpad⟩ := reach_padded h
  rw [(hinv.sized hpad ha).keeps_iff]
  by_cases hle : nbytes ≤ keptBytes a.hdr
  · simp only [hle, not_lt.mpr hle, true_and, false_and, or_false]
    constructor
    · intro hall
      by_contra husable
      exact hinv.not_right_of_inPlace ha hpos hle (not_le.mp husable) (hall (fun _ => 0) fun _ => 0)
    · exact fun husable _ _ => hinv.right_of_inPlace ha hpos hle husable
  · rw [not_le] at hle
    simp only [not_le.mpr hle, hle, true_and, false_and, false_or]
    rcases hinv.memalloc_answers nbytes page with hhalt | hnone | ⟨s', rv, hsome⟩
    · have hno : NoBlock s nbytes page := by
        intro heap p
        rw [hhalt]
        simp
      simp only [hno, true_or, iff_true, hinv.realloc_grows ha hpos hle, hhalt]
      exact fun _ _ => trivial
    · have hno : NoBlock s nbytes page := by
        intro heap p
        rw [hnone]
        simp
      simp only [hno, true_or, iff_true, hinv.realloc_grows ha hpos hle, hnone]
      exact fun _ _ => ⟨rfl, rfl⟩
    · have hno : ¬NoBlock s nbytes page := fun hno => hno s' rv hsome
      rw [hinv.moved_iff hsome ha hwho hpos hle hpad]
      simp only [hno, false_or]

end

/-- An allocation of 1500 bytes, the first one of its page. -/
def packet : Alloc := ⟨1500, 0, .user, 0x10010, 0x10000, 6⟩

/-- Half of a page grows to 3000 bytes: it is moved to a page of its own. -/
theorem realloc_keeps_iff_page : ∃ s : State, Reach step roomy Init s ∧ packet ∈ s.live ∧
    ∀ data junk, Right ⟨s, data⟩ packet 3000
      (memreallocUser ⟨s, data⟩ (some packet) 3000 (some 0x20000) junk) := by
  obtain ⟨s, hreach, hlive⟩ := run_finds step roomy Init (fun s => packet ∈ s.live)
    [.memalloc 1500 0 .user (some 0x10000)] boot_init (by decide +kernel) (by decide +kernel)
  have hkeeps : keeps s packet 3000 (some 0x20000) := .inl (by decide)
  exact ⟨s, hreach, hlive, (realloc_keeps_iff hreach hlive rfl (by decide)).mpr hkeeps⟩

/-- An allocation in a block of 2 GiB. -/
def large : Alloc := ⟨2 ^ 31 - 16, 0, .user, 2 ^ 31 + 16, 2 ^ 31, 26⟩

/-- An allocation in a block of 64 GiB. -/
def huge : Alloc := ⟨2 ^ 36 - 16, 0, .user, 2 ^ 36 + 16, 2 ^ 36, 31⟩

/-- **Large blocks are misread.**  An allocation in a block of 2 GiB, of which `2^31 - 16` bytes
are usable, is said to have grown to 3 GiB where it is.  One in a block of 64 GiB seems to have no
byte at all: asked for 4096 of them it is moved, and nothing is copied. -/
theorem realloc_misreads :
    (∃ s : State, Reach step roomy Init s ∧ large ∈ s.live ∧ large.usable = 2 ^ 31 - 16 ∧
      ∃ data junk, memreallocUser ⟨s, data⟩ (some large) (3 * 2 ^ 30) none junk =
          some (⟨s, data⟩, some large.ptr) ∧
        ¬Right ⟨s, data⟩ large (3 * 2 ^ 30)
          (memreallocUser ⟨s, data⟩ (some large) (3 * 2 ^ 30) none junk)) ∧
    ∃ s : State, Reach step roomy Init s ∧ huge ∈ s.live ∧ huge.usable = 2 ^ 36 - 16 ∧
      keptBytes huge.hdr = 0 ∧ ∃ data junk, ¬Right ⟨s, data⟩ huge 4096
        (memreallocUser ⟨s, data⟩ (some huge) 4096 (some 0x10000) junk) := by
  constructor
  · obtain ⟨s, hreach, hlive⟩ := run_finds step roomy Init (fun s => large ∈ s.live)
      [.memalloc (2 ^ 31 - 16) 0 .user (some (2 ^ 31))] boot_init (by decide +kernel)
      (by decide +kernel)
    have hinv := (reach_padded hreach).1
    have hkept : 3 * 2 ^ 30 ≤ keptBytes large.hdr := by decide +kernel
    exact ⟨s, hreach, hlive, by decide +kernel, fun _ => 0, fun _ => 0,
      hinv.realloc_inPlace hlive (by decide) hkept,
      hinv.not_right_of_inPlace hlive (by decide) hkept (by decide +kernel)⟩
  · obtain ⟨s, hreach, hlive, halloc⟩ := run_finds step roomy Init (fun s => huge ∈ s.live ∧
        (memalloc s 4096 8 .user (some 0x10000)).map Prod.snd = some (some 0x10010))
      [.memalloc (2 ^ 36 - 16) 0 .user (some (2 ^ 36))] boot_init (by decide +kernel)
      (by decide +kernel)
    obtain ⟨⟨s', r⟩, halloc, rfl⟩ := map_eq_some_iff.mp halloc
    exact ⟨s, hreach, hlive, by decide +kernel, by decide +kernel,
      (reach_padded hreach).1.not_right_of_short halloc hlive rfl (by decide) (by decide +kernel)
        (by decide +kernel) (by decide)⟩

end Librettos.Memalloc
