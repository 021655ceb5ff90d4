/-
# `Core.MemallocSafe` — the heap keeps its blocks apart

Every block of the heap is either live or on a free list, no two of them have a byte in common,
and each of them lies in a page that the page allocator has given out.  The proof follows a
block around: what is taken from a list, given back by a caller or cut out of a new page leaves
its bytes `Vacant`, and vacant bytes can be made a block again.

A live allocation is `Placed` where its header says: the pointer has its alignment, and the
header and all the bytes asked for are inside the block.  That is so in every run in which no
request, with its alignment, is larger than `2^63` (`heap_safe`).  The size of a request is
computed modulo `2^64`: one that overflows is given a block that is too small, and for one between
the two the page allocator has no level and asserts (`request_wraps`).
-/
import Librettos.Core.Memalloc

namespace Librettos.Memalloc

open List Nat Trans
open Function (update update_of_ne update_self)
/-- Two blocks have no byte in common. -/
def Apart (x i y j : Nat) : Prop := x + blockSize i ≤ y ∨ y + blockSize j ≤ x

/-- No block has a byte from `lo` to `hi`. -/
structure Vacant (s : State) (lo hi : Nat) : Prop where
  live : ∀ a ∈ s.live, a.base + blockSize a.index ≤ lo ∨ hi ≤ a.base
  free : ∀ i, ∀ x ∈ s.freebuckets i, x + blockSize i ≤ lo ∨ hi ≤ x

/-- A block is at a multiple of its size, inside a page. -/
structure Housed (out : Finset (Nat × Nat)) (x i : Nat) : Prop where
  aligned : blockSize i ∣ x
  bound : x + blockSize i < wordEnd
  page : ∃ q ∈ out, q.1 ≤ x ∧ x + blockSize i ≤ q.1 + 2 ^ (q.2 + pageShift)

/-- An allocation is where its header says, with its alignment and its size. -/
structure Placed (mem : Nat → Option Hdr) (a : Alloc) : Prop where
  header : mem (a.ptr - hdrSize) = some ⟨a.ptr - a.base, magic, a.index, a.who⟩
  aligned : max a.align minalign ∣ a.ptr
  start : a.base + hdrSize ≤ a.ptr
  stop : a.ptr + a.nbytes ≤ a.base + blockSize a.index

structure Inv (s : State) : Prop where
  live : s.live.Pairwise fun a b => Apart a.base a.index b.base b.index
  free : ∀ i, (s.freebuckets i).Pairwise fun x y => Apart x i y i
  cross : ∀ i j, i ≠ j → ∀ x ∈ s.freebuckets i, ∀ y ∈ s.freebuckets j, Apart x i y j
  mixed : ∀ a ∈ s.live, ∀ i, ∀ x ∈ s.freebuckets i, Apart a.base a.index x i
  housedLive : ∀ a ∈ s.live, Housed s.out a.base a.index
  housedFree : ∀ i, ∀ x ∈ s.freebuckets i, i < localbuckets ∧ Housed s.out x i
  placed : ∀ a ∈ s.live, Placed s.mem a

variable {s s' : State} {mem : Nat → Option Hdr} {a : Alloc} {out : Finset (Nat × Nat)}
  {x y i j lo hi n b p sz : Nat}

theorem Init.inv (h : Init s) : Inv s where
  live := by simp [h.live]
  free := by simp [h.freebuckets]
  cross := by simp [h.freebuckets]
  mixed := by simp [h.live]
  housedLive := by simp [h.live]
  housedFree := by simp [h.freebuckets]
  placed := by simp [h.live]

theorem blockSize_pos (i : Nat) : 0 < blockSize i := Nat.two_pow_pos _

theorem linkSize_le (i : Nat) : linkSize ≤ blockSize i :=
  (by decide : linkSize ≤ 2 ^ (0 + minshift)).trans (Nat.pow_le_pow_right two_pos (by omega))

theorem Apart.symm (h : Apart x i y j) : Apart y j x i := Or.symm h

theorem Housed.mono (h : Housed out x i) {out' : Finset (Nat × Nat)} (hsub : out ⊆ out') :
    Housed out' x i := by
  obtain ⟨q, hq, hin⟩ := h.page
  exact ⟨h.aligned, h.bound, q, hsub hq, hin⟩

theorem Vacant.mono (h : Vacant s lo hi) {lo' hi' : Nat} (hlo : lo ≤ lo') (hhi : hi' ≤ hi) :
    Vacant s lo' hi' where
  live := by
    intro a ha
    have := h.live a ha
    omega
  free := by
    intro i x hx
    have := h.free i x hx
    omega

/-! ## Headers -/

/-- What is written outside of an allocation's block, or to the bytes it was asked for, is not
written over its header. -/
theorem Placed.clobber (h : Placed mem a)
    (hout : lo + n ≤ a.base ∨ a.base + blockSize a.index ≤ lo ∨ a.ptr ≤ lo) :
    Placed (clobber mem lo n) a := by
  refine ⟨?_, h.aligned, h.start, h.stop⟩
  have hstart := h.start
  have hstop := h.stop
  rw [Memalloc.clobber, if_pos]
  · exact h.header
  · simp only [hdrSize] at *
    omega

theorem Placed.backLink (h : Placed mem a) {l : List Nat}
    (hout : ∀ x ∈ l, Apart a.base a.index x i) : Placed (backLink mem l) a := by
  cases l with
  | nil => exact h
  | cons x l =>
    have hx := hout x mem_cons_self
    have hlink := linkSize_le i
    simp only [Apart, linkSize] at hx hlink
    exact h.clobber (by omega)

theorem Placed.write (h : Placed mem a) {hdr : Option Hdr}
    (hout : lo + hdrSize ≤ a.base ∨ a.base + blockSize a.index ≤ lo) :
    Placed (update (Memalloc.clobber mem lo hdrSize) lo hdr) a := by
  have hc : Placed (Memalloc.clobber mem lo hdrSize) a := h.clobber (by omega)
  have hne : a.ptr - hdrSize ≠ lo := by
    have hstart := h.start
    have hstop := h.stop
    simp only [hdrSize] at *
    omega
  exact ⟨by rw [update_of_ne hne, hc.header], h.aligned, h.start, h.stop⟩

/-! ## Blocks that move -/

theorem Inv.insertHead (h : Inv s) (hvac : Vacant s x (x + blockSize b)) (hb : b < localbuckets)
    (hh : Housed s.out x b) : Inv (insertHead s b x) := by
  have hmem : ∀ i y, y ∈ (Memalloc.insertHead s b x).freebuckets i ↔
      (i = b ∧ y = x) ∨ y ∈ s.freebuckets i := by
    intro i y
    by_cases hi : i = b
    · subst hi
      simp [Memalloc.insertHead]
    · simp [Memalloc.insertHead, hi]
  constructor
  case live => exact h.live
  case free =>
    intro i
    by_cases hi : i = b
    · subst hi
      simp only [Memalloc.insertHead, update_self, pairwise_cons]
      exact ⟨fun y hy => (hvac.free i y hy).symm, h.free i⟩
    · simpa [Memalloc.insertHead, hi] using h.free i
  case cross =>
    intro i j hij y hy z hz
    rcases (hmem i y).mp hy with ⟨rfl, rfl⟩ | hy'
    · rcases (hmem j z).mp hz with ⟨rfl, rfl⟩ | hz'
      · exact absurd rfl hij
      · exact (hvac.free j z hz').symm
    · rcases (hmem j z).mp hz with ⟨rfl, rfl⟩ | hz'
      · exact hvac.free i y hy'
      · exact h.cross i j hij y hy' z hz'
  case mixed =>
    intro a ha i y hy
    rcases (hmem i y).mp hy with ⟨rfl, rfl⟩ | hy
    · exact hvac.live a ha
    · exact h.mixed a ha i y hy
  case housedLive => exact h.housedLive
  case housedFree =>
    intro i y hy
    rcases (hmem i y).mp hy with ⟨rfl, rfl⟩ | hy
    · exact ⟨hb, hh⟩
    · exact h.housedFree i y hy
  case placed =>
    intro a ha
    have hlive := hvac.live a ha
    have hlink := linkSize_le b
    exact ((h.placed a ha).backLink (h.mixed a ha b)).clobber (by omega)

theorem Vacant.insertHead (h : Vacant s lo hi) (hout : x + blockSize b ≤ lo ∨ hi ≤ x) :
    Vacant (insertHead s b x) lo hi := by
  refine ⟨h.live, fun i y hy => ?_⟩
  by_cases hi : i = b
  · subst hi
    simp only [Memalloc.insertHead, update_self, mem_cons] at hy
    rcases hy with rfl | hy
    · exact hout
    · exact h.free i y hy
  · exact h.free i y (by simpa [Memalloc.insertHead, hi] using hy)

theorem Inv.take (h : Inv s) {l : List Nat} (hl : s.freebuckets b = x :: l) :
    Inv { s with freebuckets := update s.freebuckets b l, mem := backLink s.mem l } ∧
    Vacant { s with freebuckets := update s.freebuckets b l, mem := backLink s.mem l }
      x (x + blockSize b) := by
  have hsub : ∀ i y, y ∈ update s.freebuckets b l i → y ∈ s.freebuckets i := by
    intro i y hy
    by_cases hi : i = b
    · subst hi
      rw [hl]
      exact mem_cons_of_mem _ (by simpa using hy)
    · simpa [hi] using hy
  have hx : x ∈ s.freebuckets b := by simp [hl]
  have hpair := h.free b
  rw [hl, pairwise_cons] at hpair
  constructor
  · constructor
    case live => exact h.live
    case free =>
      intro i
      by_cases hi : i = b
      · subst hi
        simpa using hpair.2
      · simpa [hi] using h.free i
    case cross => exact fun i j hij y hy z hz => h.cross i j hij y (hsub i y hy) z (hsub j z hz)
    case mixed => exact fun a ha i y hy => h.mixed a ha i y (hsub i y hy)
    case housedLive => exact h.housedLive
    case housedFree => exact fun i y hy => h.housedFree i y (hsub i y hy)
    case placed =>
      intro a ha
      refine (h.placed a ha).backLink fun y hy => h.mixed a ha b y ?_
      exact hsub b y (by simpa using hy)
  · constructor
    case live => exact fun a ha => h.mixed a ha b x hx
    case free =>
      intro i y hy
      by_cases hi : i = b
      · subst hi
        exact (hpair.1 y (by simpa using hy)).symm
      · exact h.cross i b hi y (hsub i y hy) x hx

theorem Inv.erase (h : Inv s) (ha : a ∈ s.live) : Inv { s with live := s.live.erase a } ∧
    Vacant { s with live := s.live.erase a } a.base (a.base + blockSize a.index) := by
  have hsub : ∀ c, c ∈ s.live.erase a → c ∈ s.live := fun c hc => mem_of_mem_erase hc
  have hpair := ((perm_cons_erase ha).pairwise_iff fun hab => Apart.symm hab).mp h.live
  rw [pairwise_cons] at hpair
  constructor
  · exact { h with
      live := hpair.2
      mixed := fun c hc => h.mixed c (hsub c hc)
      housedLive := fun c hc => h.housedLive c (hsub c hc)
      placed := fun c hc => h.placed c (hsub c hc) }
  · constructor
    case live => exact fun c hc => (hpair.1 c hc).symm
    case free => exact fun i y hy => (h.mixed a ha i y hy).symm

theorem Inv.page {order : Nat} (h : Inv s) (hfree : PageFree s order p) :
    Inv { s with out := insert (p, order) s.out } ∧
      Vacant { s with out := insert (p, order) s.out } p (p + 2 ^ (order + pageShift)) := by
  have hhouse : ∀ {y j}, Housed s.out y j →
      y + blockSize j ≤ p ∨ p + 2 ^ (order + pageShift) ≤ y := by
    intro y j hy
    obtain ⟨r, hr, hle, hge⟩ := hy.page
    have := hfree.apart r hr
    omega
  have hsub : s.out ⊆ insert (p, order) s.out := Finset.subset_insert _ _
  refine ⟨?_, fun a ha => hhouse (h.housedLive a ha), fun i y hy => hhouse (h.housedFree i y hy).2⟩
  exact ⟨h.live, h.free, h.cross, h.mixed, fun a ha => (h.housedLive a ha).mono hsub,
    fun i y hy => ⟨(h.housedFree i y hy).1, (h.housedFree i y hy).2.mono hsub⟩, h.placed⟩

theorem Inv.cons (h : Inv s) (hvac : Vacant s a.base (a.base + blockSize a.index))
    (hh : Housed s.out a.base a.index) (hp : Placed mem a)
    (hmem : ∀ c ∈ s.live, Placed mem c) : Inv { s with mem := mem, live := a :: s.live } := { h with
  live := pairwise_cons.mpr ⟨fun c hc => (hvac.live c hc).symm, h.live⟩
  mixed := by
    intro c hc i y hy
    rcases mem_cons.mp hc with rfl | hc
    · exact (hvac.free i y hy).symm
    · exact h.mixed c hc i y hy
  housedLive := by
    intro c hc
    rcases mem_cons.mp hc with rfl | hc
    · exact hh
    · exact h.housedLive c hc
  placed := by
    intro c hc
    rcases mem_cons.mp hc with rfl | hc
    · exact hp
    · exact hmem c hc }

theorem Inv.pgfree (h : Inv s) (hvac : Vacant s x (x + blockSize i)) (hi : localbuckets ≤ i) :
    Inv { s with out := s.out.erase (x, i + minshift - pageShift) } := by
  have hsize := blockSize_eq_page hi
  -- a block of the page would have bytes in it
  have hhouse : ∀ {y j}, Housed s.out y j → (y + blockSize j ≤ x ∨ x + blockSize i ≤ y) →
      Housed (s.out.erase (x, i + minshift - pageShift)) y j := by
    intro y j hy hout
    obtain ⟨q, hq, hle, hge⟩ := hy.page
    refine ⟨hy.aligned, hy.bound, q, Finset.mem_erase.mpr ⟨?_, hq⟩, hle, hge⟩
    rintro rfl
    have hpos := blockSize_pos j
    simp only [← hsize] at hle hge
    omega
  exact ⟨h.live, h.free, h.cross, h.mixed, fun a ha => hhouse (h.housedLive a ha) (hvac.live a ha),
    fun j y hy => ⟨(h.housedFree j y hy).1, hhouse (h.housedFree j y hy).2 (hvac.free j y hy)⟩,
    h.placed⟩

/-! ## The functions -/

/-- The loop of `morecore` makes vacant bytes into blocks, and leaves other bytes vacant. -/
theorem Inv.carve (hb : b < localbuckets) : ∀ (n p : Nat) {s : State}, Inv s →
    Vacant s (p + blockSize b) (p + blockSize b * (n + 1)) →
    (∀ m ≤ n, Housed s.out (p + blockSize b * m) b) → Vacant s lo hi → hi ≤ p + blockSize b →
    Inv (carve s b (blockSize b) n p) ∧ Vacant (carve s b (blockSize b) n p) lo hi ∧
      (carve s b (blockSize b) n p).out = s.out
  | 0, p, s, h, _, _, hvac', _ => ⟨h, hvac', rfl⟩
  | n + 1, p, s, h, hvac, hh, hvac', hhi => by
    have hend : p + blockSize b * (n + 1 + 1) = p + blockSize b + blockSize b * (n + 1) := by ring
    rw [hend] at hvac
    have hfirst : Housed s.out (p + blockSize b) b := by
      have := hh 1 (by omega)
      rwa [mul_one] at this
    have hle : blockSize b ≤ blockSize b * (n + 1) := Nat.le_mul_of_pos_right _ (Nat.succ_pos n)
    refine Inv.carve hb n (p + blockSize b)
      (h.insertHead (hvac.mono le_rfl (by omega)) hb hfirst)
      ((hvac.mono (by omega) le_rfl).insertHead (.inl le_rfl)) (fun m hm => ?_)
      (hvac'.insertHead (.inr hhi)) (by omega)
    have := hh (m + 1) (by omega)
    rwa [mul_add, mul_one, add_comm (blockSize b * m), ← add_assoc] at this

/-- What a request finds: bytes of the block's size, vacant and in a page. -/
structure Found (s : State) (x i : Nat) : Prop where
  inv : Inv s
  vacant : Vacant s x (x + blockSize i)
  housed : Housed s.out x i

/-- The outcome of a search for a block: it is larger than the page allocator knows, or it is
found, or nothing has changed. -/
def Finds (s : State) (i : Nat) (r : Option (State × Option Nat)) : Prop :=
  r = none ∧ 58 < i ∨ r = some (s, none) ∨ ∃ s' x, r = some (s', some x) ∧ Found s' x i

/-- A new page is cut into blocks: the first one is for the request. -/
theorem Inv.core (h : Inv s) (hb : b < localbuckets) (hfree : PageFree s 0 p) :
    Found (Memalloc.carve { s with out := insert (p, 0) s.out } b (blockSize b)
      (2 ^ pageShift / blockSize b - 1) p) p b := by
  obtain ⟨hmul, hblks⟩ := blockSize_mul hb
  obtain ⟨hinv, hvac⟩ := h.page hfree
  have hdvd := hfree.aligned
  have hend := hfree.bound
  rw [zero_add] at hvac hdvd hend
  have hhouse : ∀ m ≤ 2 ^ pageShift / blockSize b - 1,
      Housed (insert (p, 0) s.out) (p + blockSize b * m) b := by
    intro m hm
    have hstop : blockSize b * m + blockSize b ≤ 2 ^ pageShift :=
      calc blockSize b * m + blockSize b = blockSize b * (m + 1) := by ring
        _ ≤ blockSize b * (2 ^ pageShift / blockSize b) := mul_le_mul_left _ (by omega)
        _ = 2 ^ pageShift := hmul
    refine ⟨?_, by omega, (p, 0), Finset.mem_insert_self _ _, le_add_right _ _, ?_⟩
    · exact dvd_add ((Dvd.intro _ hmul).trans hdvd) (dvd_mul_right _ _)
    · rw [zero_add]
      omega
  have hle : blockSize b ≤ 2 ^ pageShift := le_of_dvd (by simp) (Dvd.intro _ hmul)
  have hfirst : Vacant { s with out := insert (p, 0) s.out } p (p + blockSize b) :=
    hvac.mono le_rfl (by omega)
  obtain ⟨hcarve, hvac', hout'⟩ := Inv.carve hb (2 ^ pageShift / blockSize b - 1) p hinv
    (hvac.mono (by omega) (by rw [Nat.sub_add_cancel hblks.le, hmul])) hhouse hfirst le_rfl
  refine ⟨hcarve, hvac', ?_⟩
  rw [hout']
  exact hhouse 0 (zero_le _)

theorem Inv.blockalloc {page : Option Nat} (h : Inv s) : Finds s b (blockalloc s b page) := by
  have hsearch := blockalloc_search s b page
  generalize Memalloc.blockalloc s b page = r at hsearch ⊢
  cases hsearch with
  | halt hlevel =>
    simp only [freelistLevels, pageShift, minshift] at hlevel
    exact .inl ⟨rfl, by omega⟩
  | nothing => exact .inr (.inl rfl)
  | page hb hfree =>
    obtain ⟨hinv, hvac⟩ := h.page hfree
    have hsize := blockSize_eq_page hb
    have hdvd := hfree.aligned
    have hend := hfree.bound
    rw [← hsize] at hvac hdvd hend
    exact .inr (.inr ⟨_, _, rfl, hinv, hvac, hdvd, hend, _, Finset.mem_insert_self _ _, le_rfl,
      by rw [hsize]⟩)
  | list hb hlist =>
    obtain ⟨hinv, hvac⟩ := h.take hlist
    exact .inr (.inr ⟨_, _, rfl, hinv, hvac, (h.housedFree b _ (by simp [hlist])).2⟩)
  | core hb _ _ hfree => exact .inr (.inr ⟨_, _, rfl, h.core hb hfree⟩)

theorem Found.place {nbytes align k : Nat} {who : Who} (h : Found s x b) (hk : 4 ≤ k) (hk' : k ≤ 31)
    (halign : alignFor align = 2 ^ k) (hmax : max align minalign = 2 ^ k)
    (hsize : nbytes + 2 ^ k ≤ blockSize b) (hb : b ≤ 59) : Inv (s.place nbytes align who b x) := by
  have hdvd : 2 ^ k ∣ x := by
    have hle : 2 ^ k ≤ 2 ^ (b + minshift) := (le_add_left _ _).trans hsize
    exact (Nat.pow_dvd_pow 2 ((Nat.pow_le_pow_iff_right one_lt_two).mp hle)).trans h.housed.aligned
  have hbound := h.housed.bound
  have hrv : alignUp (x + hdrSize) (2 ^ k) = x + 2 ^ k :=
    alignUp_add (by omega) (by omega) hdvd (by omega)
  have h16 : 2 ^ 4 ≤ 2 ^ k := Nat.pow_le_pow_right two_pos hk
  have h31 : 2 ^ k ≤ 2 ^ 31 := Nat.pow_le_pow_right two_pos hk'
  rw [State.place, halign, hrv]
  refine h.inv.cons h.vacant h.housed ?_ fun c hc => ?_
  · constructor
    case header =>
      rw [update_self, Nat.add_sub_cancel_left, Nat.mod_eq_of_lt (by omega),
        mod_eq_of_lt (by omega)]
    case aligned =>
      rw [hmax]
      exact dvd_add hdvd dvd_rfl
    case start =>
      simp only [hdrSize]
      omega
    case stop =>
      dsimp only
      omega
  · refine (h.inv.placed c hc).write ?_
    have := h.vacant.live c hc
    simp only [hdrSize]
    omega

/-- A request that returns keeps the invariant, and it does return if its block can be had. -/
theorem Inv.memalloc {nbytes align : Nat} (h : Inv s)
    (halign : align = 0 ∨ ∃ k ∈ range 32, align = 2 ^ k)
    (hroom : nbytes + alignFor align < wordEnd) (who : Who) (page : Option Nat) :
    (∀ r, memalloc s nbytes align who page = some r → Inv r.1) ∧
      (nbytes + alignFor align ≤ 2 ^ 63 → ∃ r, memalloc s nbytes align who page = some r) := by
  obtain ⟨hpow, k, hk, hk', hfor, hmax⟩ := alignFor_eq halign
  rw [hfor] at hroom ⊢
  have h31 : ¬ 2 ^ 31 < 2 ^ k := not_lt.mpr (Nat.pow_le_pow_right two_pos hk')
  rw [Memalloc.memalloc, if_neg (not_not.mpr hpow), hfor, if_neg h31,
    allocbytesFor_eq (by omega) (by omega) hroom]
  dsimp only
  rcases h.blockalloc (b := bucketFor (nbytes + 2 ^ k)) with ⟨hr, hlarge⟩ | hr | ⟨s', x, hr, hfound⟩
  all_goals rw [hr]
  · refine ⟨by simp, fun hle => ?_⟩
    have := bucketFor_le (b := 58) hroom hle
    omega
  · exact ⟨by rintro _ ⟨⟩; exact h, fun _ => ⟨_, rfl⟩⟩
  · refine ⟨?_, fun _ => ⟨_, rfl⟩⟩
    rintro _ ⟨⟩
    exact hfound.place hk hk' hfor hmax (le_blockSize hroom)
      (bucketFor_le (b := 59) hroom hroom.le)

theorem Placed.memfree (h : Placed s.mem a) : memfree s a.ptr a.who = some
    (if localbuckets ≤ a.index then
      { s with out := s.out.erase (a.base, a.index + minshift - pageShift) }
    else insertHead s a.index a.base) := by
  have hstart := h.start
  have hne : a.ptr ≠ 0 := by
    simp only [hdrSize] at hstart
    omega
  have horig : a.ptr - (a.ptr - a.base) = a.base := by omega
  rw [Memalloc.memfree, if_neg hne]
  simp only [h.header, ne_eq, not_true_eq_false, if_false, horig]
  split <;> rfl

theorem Inv.memfree (h : Inv s) (ha : a ∈ s.live) :
    ∃ s', memfree { s with live := s.live.erase a } a.ptr a.who = some s' ∧ Inv s' ∧
      s'.halted = s.halted := by
  obtain ⟨hinv, hvac⟩ := h.erase ha
  have hp : Placed { s with live := s.live.erase a }.mem a := h.placed a ha
  refine ⟨_, hp.memfree, ?_⟩
  split
  · next hlarge => exact ⟨hinv.pgfree hvac hlarge, rfl⟩
  · next hsmall => exact ⟨hinv.insertHead hvac (not_le.mp hsmall) (h.housedLive a ha), rfl⟩

theorem Inv.write (h : Inv s) (ha : a ∈ s.live) (hlo : a.ptr ≤ lo)
    (hhi : lo + n ≤ a.ptr + a.nbytes) : Inv { s with mem := clobber s.mem lo n } := by
  have hp := h.placed a ha
  refine { h with placed := fun c hc => ?_ }
  refine (h.placed c hc).clobber ?_
  by_cases hca : c = a
  · rw [hca]
    exact .inr (.inr hlo)
  · have hc' : c ∈ s.live.erase a := (mem_erase_of_ne hca).mpr hc
    have hapart := (h.erase ha).2.live c hc'
    have hstart := hp.start
    have hstop := hp.stop
    omega

theorem Inv.step {act : Act} (h : Inv s) (hok : roomy s act) (hs : step s act = some s') :
    Inv s' ∧ (bounded s act → s'.halted = s.halted) := by
  cases act with
  | memalloc nbytes align who page =>
    obtain ⟨⟨-, -, halign⟩, hs⟩ := Option.ite_none_right_eq_some.mp hs
    obtain ⟨hkeep, hreturn⟩ := h.memalloc halign hok who page
    cases hmem : Memalloc.memalloc s nbytes align who page with
    | none =>
      rw [hmem] at hs
      cases hs
      refine ⟨{ h with }, fun hle => ?_⟩
      obtain ⟨r, hr⟩ := hreturn hle
      cases hmem.symm.trans hr
    | some r =>
      rw [hmem] at hs
      cases hs
      exact ⟨hkeep r hmem, fun _ => memalloc_halted hmem⟩
  | memfree a =>
    obtain ⟨⟨-, ha⟩, hs⟩ := Option.ite_none_right_eq_some.mp hs
    obtain ⟨r, hr, hinv, hhalted⟩ := h.memfree ha
    rw [hr] at hs
    cases hs
    exact ⟨hinv, fun _ => hhalted⟩
  | write a lo n =>
    obtain ⟨⟨-, ha, hlo, hhi⟩, ⟨⟩⟩ := Option.ite_none_right_eq_some.mp hs
    exact ⟨h.write ha hlo hhi, fun _ => rfl⟩

theorem roomy_of_bounded {act : Act} (h : bounded s act) : roomy s act := by
  cases act with
  | memalloc nbytes align who page => exact lt_of_le_of_lt h (by decide)
  | memfree | write => trivial

/-- **Heap safety.**  In every run in which no request is larger, with its alignment, than the
largest block there is, nothing asserts or halts; the pointer of an allocation has its alignment,
its header and its bytes are in its block, and that block is apart from those of other allocations
and from those on the free lists. -/
theorem heap_safe (h : Reach step bounded Init s) :
    s.halted = false ∧ (∀ a ∈ s.live, Placed s.mem a) ∧
      (s.live.Pairwise fun a b => Apart a.base a.index b.base b.index) ∧
      ∀ a ∈ s.live, ∀ i, ∀ x ∈ s.freebuckets i, Apart a.base a.index x i := by
  obtain ⟨hinv, hhalted⟩ : Inv s ∧ s.halted = false := by
    refine h.inv (I := fun s => Inv s ∧ s.halted = false) (fun _ h0 => ⟨h0.inv, h0.halted⟩) ?_
    rintro s act s' ⟨hinv, hhalted⟩ hok hs
    obtain ⟨hinv', hkeep⟩ := hinv.step (roomy_of_bounded hok) hs
    exact ⟨hinv', (hkeep hok).trans hhalted⟩
  exact ⟨hhalted, hinv.placed, hinv.live, hinv.mixed⟩

/-- The heap at boot. -/
def boot : State where
  freebuckets := fun _ => []
  mem := fun _ => none
  out := ∅
  live := []
  halted := false

theorem boot_init : Init boot := ⟨fun _ => rfl, rfl, rfl, rfl⟩

/-- Two small allocations from one page, the first one freed; then a large one. -/
theorem heap_safe_some : ∃ s : State, Reach step bounded Init s ∧ s.live.length = 2 ∧
    s.freebuckets 6 = [0x10000] ∧ ∀ a ∈ s.live, Placed s.mem a := by
  obtain ⟨s, hreach, hlive, hfree⟩ := run_finds step bounded Init
    (fun s => s.live.length = 2 ∧ s.freebuckets 6 = [0x10000])
    [.memalloc 1500 0 .user (some 0x10000), .memalloc 1600 64 .user none,
      .memfree ⟨1500, 0, .user, 0x10010, 0x10000, 6⟩, .memalloc 9000 4096 .rumpkern (some 0x20000)]
    boot_init (by decide +kernel) (by decide +kernel)
  exact ⟨s, hreach, hlive, hfree, (heap_safe hreach).2.1⟩

/-- **A request wraps around.**  A request of `2^64 - 1` bytes at a page boundary is given a
block of one page, and a pointer to its end.  One of `2^63` bytes does not, and halts. -/
theorem request_wraps : (∃ s : State, Reach step Trans.any Init s ∧
    ∃ a ∈ s.live, a.nbytes = 2 ^ 64 - 1 ∧ blockSize a.index = 4096 ∧ ¬ Placed s.mem a) ∧
    ∃ s : State, Reach step roomy Init s ∧ s.halted = true := by
  constructor
  · obtain ⟨s, hreach, hlive⟩ := any_finds step Init
      (fun s => s.live = [⟨2 ^ 64 - 1, 4096, .user, 0x11000, 0x10000, 7⟩])
      [.memalloc (2 ^ 64 - 1) 4096 .user (some 0x10000)] boot_init
      (by decide +kernel)
    refine ⟨s, hreach, _, by rw [hlive]; exact mem_cons_self, rfl, rfl, ?_⟩
    intro hplaced
    have hstop := hplaced.stop
    simp [blockSize, minshift] at hstop
  · exact run_finds step roomy Init _ [.memalloc (2 ^ 63) 0 .user none] boot_init
      (by decide +kernel) (by decide +kernel)

end Librettos.Memalloc
