/-
# `Lib.Dyadic` — aligned power-of-two blocks and their tilings

A block is an interval of length `2 ^ e` that starts at a multiple of its
length.  Two blocks are nested or disjoint, since the block of exponent `e` that
contains `x` is found by rounding `x` down (`mem_iff`), and rounding to a coarser
grid forgets the finer one (`floor_floor`).

A tiling of a set is a family of pairwise disjoint blocks whose union it is.  A
set has many tilings, but only one without buddies, that is without two blocks
of one size that make up a larger one: a tiling without buddies consists of
exactly the maximal blocks inside the set (`Tiling.isMax_iff`), so it is
determined by the set (`Tiling.unique`).  That is why an allocator that merges
buddies whenever it can needs no other argument for completeness.
-/
import Mathlib.Data.Set.Lattice
import Mathlib.Order.Interval.Set.Basic
import Mathlib.Tactic
import Mathlib.Order.CompletePartialOrder

namespace Dyadic

open Nat

/-! ## Blocks -/

/-- `2 ^ exp` bytes from `addr`. -/
@[ext]
structure Blk where
  exp : ℕ
  addr : ℕ
  deriving DecidableEq, Repr

/-- The block starts at a multiple of its size. -/
def Blk.Aligned (b : Blk) : Prop := 2 ^ b.exp ∣ b.addr

def Blk.set (b : Blk) : Set ℕ := Set.Ico b.addr (b.addr + 2 ^ b.exp)

/-- `x` rounded down to a multiple of `2 ^ e`. -/
def floor (e x : ℕ) : ℕ := x / 2 ^ e * 2 ^ e

variable {b c : Blk} {e f x y : ℕ}

theorem Blk.addr_mem (b : Blk) : b.addr ∈ b.set :=
  ⟨le_refl _, Nat.lt_add_of_pos_right (Nat.two_pow_pos _)⟩

theorem floor_dvd (e x : ℕ) : 2 ^ e ∣ floor e x := Dvd.intro_left _ rfl

/-- Rounding to a coarser grid forgets the finer one. -/
theorem floor_floor (h : e ≤ f) (x : ℕ) : floor f (floor e x) = floor f x := by
  obtain ⟨d, rfl⟩ := Nat.exists_eq_add_of_le h
  unfold floor
  rw [pow_add, ← Nat.div_div_eq_div_mul, Nat.mul_div_cancel _ (Nat.two_pow_pos e),
    Nat.div_div_eq_div_mul]

theorem floor_eq_self (h : 2 ^ e ∣ x) : floor e x = x := Nat.div_mul_cancel h

theorem and_mask {w : ℕ} (hx : x < 2 ^ w) (he : e ≤ w) : x &&& (2 ^ w - 2 ^ e) = floor e x := by
  have hmask : 2 ^ w - 2 ^ e = 2 ^ e * (2 ^ (w - e) - 1) := by
    rw [Nat.mul_sub, ← pow_add, Nat.add_sub_cancel' he, Nat.mul_one]
  refine eq_of_testBit_eq fun i => ?_
  rw [floor, hmask, testBit_and, testBit_two_pow_mul, testBit_two_pow_sub_one,
    testBit_mul_two_pow, testBit_div_two_pow]
  rcases lt_or_ge i e with hlow | hhigh
  · simp [not_le.mpr hlow]
  · rw [Nat.sub_add_cancel hhigh]
    rcases Nat.lt_or_ge i w with hi | hi
    · have : i - e < w - e := by omega
      simp [hhigh, this]
    · simp [Nat.testBit_lt_two_pow (hx.trans_le (Nat.pow_le_pow_right two_pos hi))]

theorem eq_two_pow_of_and_pred (h0 : x ≠ 0) (h : x &&& (x - 1) = 0) : x = 2 ^ x.log2 := by
  by_contra hne
  have hle := log2_self_le h0
  have hlt := lt_log2_self (n := x)
  have hx := testBit_of_two_pow_le_and_two_pow_add_one_gt hle hlt
  have hpred : (x - 1).testBit x.log2 = true :=
    testBit_of_two_pow_le_and_two_pow_add_one_gt (by omega) (by omega)
  have hand := congrArg (testBit · x.log2) h
  simp [testBit_and, hx, hpred] at hand

theorem mem_iff (hb : b.Aligned) : x ∈ b.set ↔ floor b.exp x = b.addr := by
  obtain ⟨e, a⟩ := b
  obtain ⟨q, hq⟩ := hb
  simp only at hq
  subst hq
  have hpos : 0 < 2 ^ e := Nat.two_pow_pos e
  show 2 ^ e * q ≤ x ∧ x < 2 ^ e * q + 2 ^ e ↔ x / 2 ^ e * 2 ^ e = 2 ^ e * q
  rw [Nat.mul_comm (x / 2 ^ e), Nat.mul_right_inj (by omega), Nat.div_eq_iff hpos]
  constructor
  · rintro ⟨h1, h2⟩
    constructor
    · rw [Nat.mul_comm]; exact h1
    · rw [Nat.mul_comm]; omega
  · rintro ⟨h1, h2⟩
    rw [Nat.mul_comm] at h1 h2
    omega

/-- **Nested or disjoint.**  A block that meets a block at least as large lies
inside it. -/
theorem nested (hb : b.Aligned) (hc : c.Aligned) (h : b.exp ≤ c.exp) (hxb : x ∈ b.set)
    (hxc : x ∈ c.set) : b.set ⊆ c.set := by
  intro y hy
  rw [mem_iff hb] at hxb hy
  rw [mem_iff hc] at hxc ⊢
  rw [← floor_floor h y, hy, ← hxb, floor_floor h, hxc]

theorem eq_of_exp_eq (hb : b.Aligned) (hc : c.Aligned) (h : b.exp = c.exp) (hxb : x ∈ b.set)
    (hxc : x ∈ c.set) : b = c := by
  rw [mem_iff hb] at hxb
  rw [mem_iff hc] at hxc
  exact Blk.ext h (by rw [← hxb, ← hxc, h])

theorem set_injective (h : b.set = c.set) : b = c := by
  have hb : b.addr ∈ c.set := h ▸ b.addr_mem
  have hc : c.addr ∈ b.set := h ▸ c.addr_mem
  have ha : b.addr = c.addr := le_antisymm hc.1 hb.1
  have hlast : ∀ {b c : Blk}, b.set = c.set → b.addr = c.addr → 2 ^ b.exp ≤ 2 ^ c.exp := by
    intro b c h ha
    have hpos : 0 < 2 ^ b.exp := Nat.two_pow_pos _
    have hm : b.addr + 2 ^ b.exp - 1 ∈ b.set := ⟨by omega, by omega⟩
    rw [h] at hm
    have := hm.2
    omega
  have hp : 2 ^ b.exp = 2 ^ c.exp := le_antisymm (hlast h ha) (hlast h.symm ha.symm)
  exact Blk.ext (Nat.pow_right_injective (le_refl 2) hp) ha

/-! ## Buddies -/

/-- The other half of the next larger block. -/
def Blk.buddy (b : Blk) : Blk where
  exp := b.exp
  addr := if b.addr / 2 ^ b.exp % 2 = 1 then b.addr - 2 ^ b.exp else b.addr + 2 ^ b.exp

/-- The next larger block. -/
def Blk.parent (b : Blk) : Blk where
  exp := b.exp + 1
  addr := floor (b.exp + 1) b.addr

theorem Blk.parent_aligned (b : Blk) : b.parent.Aligned := floor_dvd _ _

section
variable (hb : b.Aligned)
include hb

theorem buddy_cases : (b.addr / 2 ^ b.exp % 2 = 0 ∧ b.addr = b.parent.addr ∧
      b.buddy.addr = b.parent.addr + 2 ^ b.exp) ∨
    (b.addr / 2 ^ b.exp % 2 = 1 ∧ b.addr = b.parent.addr + 2 ^ b.exp ∧
      b.buddy.addr = b.parent.addr) := by
  obtain ⟨e, a⟩ := b
  obtain ⟨q, hq⟩ := hb
  simp only at hq
  subst hq
  have hpos : 0 < 2 ^ e := Nat.two_pow_pos e
  have hdiv : 2 ^ e * q / 2 ^ e = q := Nat.mul_div_cancel_left q hpos
  have hpar : floor (e + 1) (2 ^ e * q) = 2 ^ e * (2 * (q / 2)) := by
    unfold floor
    rw [pow_succ, Nat.mul_div_mul_left _ _ hpos]
    ring
  simp only [Blk.buddy, Blk.parent, hdiv, hpar]
  rcases mod_two_eq_zero_or_one q with h | h
  · have hqq : 2 * (q / 2) = q := by omega
    exact .inl ⟨h, by rw [hqq], by rw [if_neg (by omega), hqq]⟩
  · have hqq : q = 2 * (q / 2) + 1 := by omega
    have hexp : 2 ^ e * q = 2 ^ e * (2 * (q / 2)) + 2 ^ e := by
      conv_lhs => rw [hqq]
      ring
    refine .inr ⟨h, hexp, ?_⟩
    rw [if_pos h, hexp, Nat.add_sub_cancel]

theorem Blk.buddy_aligned : b.buddy.Aligned := by
  have hp : 2 ^ b.exp ∣ b.parent.addr :=
    dvd_trans (pow_dvd_pow 2 (le_succ _)) b.parent_aligned
  show 2 ^ b.exp ∣ b.buddy.addr
  rcases buddy_cases hb with ⟨-, -, h⟩ | ⟨-, -, h⟩ <;> rw [h]
  · exact dvd_add hp dvd_rfl
  · exact hp

theorem parent_set : b.parent.set = b.set ∪ b.buddy.set := by
  have hexp : 2 ^ (b.exp + 1) = 2 ^ b.exp + 2 ^ b.exp := by ring
  ext x
  simp only [Blk.set, Set.mem_union, Set.mem_Ico]
  have he : b.parent.exp = b.exp + 1 := rfl
  have hf : b.buddy.exp = b.exp := rfl
  rw [he, hf, hexp]
  rcases buddy_cases hb with ⟨-, h1, h2⟩ | ⟨-, h1, h2⟩ <;> rw [h2] <;> omega

theorem disjoint_buddy (hx : x ∈ b.set) : x ∉ b.buddy.set := by
  intro hy
  have hf : b.buddy.exp = b.exp := rfl
  simp only [Blk.set, Set.mem_Ico, hf] at hx hy
  rcases buddy_cases hb with ⟨-, h1, h2⟩ | ⟨-, h1, h2⟩ <;> omega

theorem buddy_ne : b.buddy ≠ b := fun h =>
  disjoint_buddy hb b.addr_mem (h.symm ▸ b.addr_mem)

theorem parent_buddy : b.buddy.parent = b.parent := by
  refine eq_of_exp_eq b.buddy.parent_aligned b.parent_aligned rfl (x := b.buddy.addr) ?_ ?_
  · rw [parent_set (Blk.buddy_aligned hb)]; exact .inl b.buddy.addr_mem
  · rw [parent_set hb]; exact .inr b.buddy.addr_mem

theorem buddy_buddy : b.buddy.buddy = b := by
  -- both are the half of the common parent that the buddy is not
  have hp := parent_set (Blk.buddy_aligned hb)
  rw [parent_buddy hb, parent_set hb] at hp
  have hx : b.addr ∈ b.buddy.buddy.set := by
    have hm : b.addr ∈ b.set ∪ b.buddy.set := .inl b.addr_mem
    rw [hp] at hm
    exact hm.resolve_left (disjoint_buddy hb b.addr_mem)
  exact eq_of_exp_eq (Blk.buddy_aligned (Blk.buddy_aligned hb)) hb rfl hx b.addr_mem

end

/-! ## Tilings -/

/-- Pairwise disjoint blocks whose union is `F`. -/
structure Tiling (C : Set Blk) (F : Set ℕ) : Prop where
  aligned : ∀ b ∈ C, b.Aligned
  cover : ∀ x, x ∈ F ↔ ∃ b ∈ C, x ∈ b.set
  disj : ∀ b ∈ C, ∀ c ∈ C, ∀ x, x ∈ b.set → x ∈ c.set → b = c

/-- No two blocks of the family make up a larger one. -/
def NoBuddy (C : Set Blk) : Prop := ∀ b ∈ C, b.buddy ∉ C

/-- A largest block inside `F`: no other block inside `F` contains it. -/
def IsMax (F : Set ℕ) (b : Blk) : Prop :=
  b.Aligned ∧ b.set ⊆ F ∧ ∀ c : Blk, c.Aligned → c.set ⊆ F → b.set ⊆ c.set → c = b

section
variable {C D : Set Blk} {F G : Set ℕ}

theorem Tiling.subset (h : Tiling C F) (hb : b ∈ C) : b.set ⊆ F :=
  fun x hx => (h.cover x).mpr ⟨b, hb, hx⟩

theorem Tiling.empty : Tiling ∅ ∅ :=
  ⟨fun _ h => h.elim, fun x => by simp, fun _ h => h.elim⟩

theorem Tiling.singleton (hb : b.Aligned) : Tiling {b} b.set := by
  refine ⟨?_, fun x => ?_, ?_⟩
  · rintro c rfl; exact hb
  · simp
  · rintro c rfl d rfl x - -; rfl

section
variable (h : Tiling C F)
include h

theorem Tiling.union (h' : Tiling D G) (hd : Disjoint F G) : Tiling (C ∪ D) (F ∪ G) := by
  have hne : ∀ b ∈ C, ∀ c ∈ D, ∀ x, x ∈ b.set → x ∉ c.set := fun b hb c hc x hxb hxc =>
    Set.disjoint_left.mp hd (h.subset hb hxb) (h'.subset hc hxc)
  refine ⟨?_, fun x => ?_, ?_⟩
  · rintro b (hb | hb)
    · exact h.aligned b hb
    · exact h'.aligned b hb
  · rw [Set.mem_union, h.cover, h'.cover]
    constructor
    · rintro (⟨b, hb, hx⟩ | ⟨b, hb, hx⟩)
      · exact ⟨b, .inl hb, hx⟩
      · exact ⟨b, .inr hb, hx⟩
    · rintro ⟨b, hb | hb, hx⟩
      · exact .inl ⟨b, hb, hx⟩
      · exact .inr ⟨b, hb, hx⟩
  · rintro b (hb | hb) c (hc | hc) x hxb hxc
    · exact h.disj b hb c hc x hxb hxc
    · exact absurd hxc (hne b hb c hc x hxb)
    · exact absurd hxb (hne c hc b hb x hxc)
    · exact h'.disj b hb c hc x hxb hxc

theorem Tiling.erase (hb : b ∈ C) : Tiling (C \ {b}) (F \ b.set) := by
  refine ⟨fun c hc => h.aligned c hc.1, fun x => ⟨?_, ?_⟩, fun c hc d hd => h.disj c hc.1 d hd.1⟩
  · rintro ⟨hx, hxb⟩
    obtain ⟨c, hc, hxc⟩ := (h.cover x).mp hx
    exact ⟨c, ⟨hc, fun hcb => hxb (hcb ▸ hxc)⟩, hxc⟩
  · rintro ⟨c, ⟨hc, hcb⟩, hxc⟩
    exact ⟨h.subset hc hxc, fun hxb => hcb (h.disj c hc b hb x hxc hxb)⟩

theorem Tiling.insert (hb : b.Aligned) (hd : Disjoint F b.set) :
    Tiling (insert b C) (F ∪ b.set) := by
  rw [← Set.union_singleton]
  exact h.union (.singleton hb) hd

/-- The tile over a point that is a multiple of `2 ^ e` starts there, unless it is
larger than that. -/
theorem Tiling.head (hy : 2 ^ e ∣ y) (hb : b ∈ C) (hyb : y ∈ b.set)
    (he : b.exp ≤ e) : b.addr = y := by
  rw [← (mem_iff (h.aligned b hb)).mp hyb]
  exact floor_eq_self (dvd_trans (pow_dvd_pow 2 he) hy)

/-- A tile over part of its neighbour's buddy is no larger than the neighbour. -/
theorem Tiling.exp_le (hb : b ∈ C) (hc : c ∈ C) (hy : y ∈ b.buddy.set)
    (hyc : y ∈ c.set) : c.exp ≤ b.exp := by
  by_contra hlt
  have hal := h.aligned b hb
  have hin : b.parent.set ⊆ c.set :=
    nested b.parent_aligned (h.aligned c hc) (show b.exp + 1 ≤ c.exp by omega)
      (by rw [parent_set hal]; exact .inr hy) hyc
  have hbc : b = c := h.disj b hb c hc b.addr b.addr_mem
    (hin (by rw [parent_set hal]; exact .inl b.addr_mem))
  subst hbc
  omega

theorem Tiling.merge (hb : b ∈ C) (hbb : b.buddy ∈ C) :
    Tiling (Insert.insert b.parent ((C \ {b}) \ {b.buddy})) F ∧
      b.parent ∉ (C \ {b}) \ {b.buddy} := by
  have hal := h.aligned b hb
  have hbb' : b.buddy ∈ C \ {b} := ⟨hbb, buddy_ne hal⟩
  have hF : (F \ b.set) \ b.buddy.set ∪ b.parent.set = F := by
    rw [Set.sdiff_sdiff, ← parent_set hal]
    refine Set.sdiff_union_of_subset ?_
    rw [parent_set hal]
    exact Set.union_subset (h.subset hb) (h.subset hbb)
  refine ⟨?_, fun hp => ?_⟩
  · have := ((h.erase hb).erase hbb').insert b.parent_aligned (by
      rw [Set.sdiff_sdiff, ← parent_set hal]
      exact Set.disjoint_sdiff_left)
    rwa [hF] at this
  · have : b = b.parent := h.disj b hb _ hp.1.1 b.addr b.addr_mem
      (by rw [parent_set hal]; exact .inl b.addr_mem)
    have hexp : b.exp = b.exp + 1 := congrArg Blk.exp this
    omega

/-! ## The tiling without buddies -/

/-- **Completeness.**  In a tiling without buddies every block inside the set lies
inside a tile.  If not, the block is made up of smaller tiles, and the buddy of a
smallest one among them can only be a tile. -/
theorem Tiling.exists_tile (hn : NoBuddy C) (hb : b.Aligned) (hF : b.set ⊆ F) :
    ∃ c ∈ C, b.set ⊆ c.set := by
  classical
  by_contra hno
  have hsmall : ∀ c ∈ C, ∀ x, x ∈ b.set → x ∈ c.set → c.exp < b.exp ∧ c.set ⊆ b.set := by
    intro c hc x hxb hxc
    have hlt : c.exp < b.exp := by
      by_contra hle
      exact hno ⟨c, hc, nested hb (h.aligned c hc) (by omega) hxb hxc⟩
    exact ⟨hlt, nested (h.aligned c hc) hb hlt.le hxc hxb⟩
  have hex : ∃ e, ∃ c ∈ C, c.exp = e ∧ c.set ⊆ b.set := by
    obtain ⟨c, hc, hxc⟩ := (h.cover _).mp (hF b.addr_mem)
    exact ⟨c.exp, c, hc, rfl, (hsmall c hc _ b.addr_mem hxc).2⟩
  obtain ⟨c, hc, hce, hcb⟩ := Nat.find_spec hex
  have hmin : ∀ d ∈ C, d.set ⊆ b.set → c.exp ≤ d.exp := fun d hd hdb =>
    hce ▸ Nat.find_min' hex ⟨d, hd, rfl, hdb⟩
  have hcal := h.aligned c hc
  have hlt := (hsmall c hc _ (hcb c.addr_mem) c.addr_mem).1
  -- the buddy of the smallest tile is inside the block
  have hbud : c.buddy.set ⊆ b.set := by
    have hpar : c.parent.set ⊆ b.set :=
      nested c.parent_aligned hb (show c.exp + 1 ≤ b.exp by omega)
        (by rw [parent_set hcal]; exact .inl c.addr_mem) (hcb c.addr_mem)
    rw [parent_set hcal] at hpar
    exact fun x hx => hpar (.inr hx)
  obtain ⟨d, hd, hyd⟩ := (h.cover _).mp (hF (hbud c.buddy.addr_mem))
  have hdle : d.exp ≤ c.exp := h.exp_le hc hd c.buddy.addr_mem hyd
  have hdge : c.exp ≤ d.exp := hmin d hd (hsmall d hd _ (hbud c.buddy.addr_mem) hyd).2
  have hdc : d = c.buddy := eq_of_exp_eq (h.aligned d hd) (Blk.buddy_aligned hcal)
    (le_antisymm hdle hdge) hyd c.buddy.addr_mem
  exact hn c hc (hdc ▸ hd)

/-- **Canonicity.**  A tiling without buddies consists of the maximal blocks. -/
theorem Tiling.isMax_iff (hn : NoBuddy C) (b : Blk) : b ∈ C ↔ IsMax F b := by
  constructor
  · intro hb
    refine ⟨h.aligned b hb, h.subset hb, fun c hc hcF hbc => ?_⟩
    obtain ⟨d, hd, hcd⟩ := h.exists_tile hn hc hcF
    have hbd : b = d := h.disj b hb d hd b.addr b.addr_mem (hcd (hbc b.addr_mem))
    subst hbd
    exact set_injective (Set.Subset.antisymm hcd hbc)
  · rintro ⟨hb, hbF, hmax⟩
    obtain ⟨c, hc, hbc⟩ := h.exists_tile hn hb hbF
    exact hmax c (h.aligned c hc) (h.subset hc) hbc ▸ hc

/-- A set has one tiling without buddies. -/
theorem Tiling.unique (hn : NoBuddy C) (h' : Tiling D F) (hn' : NoBuddy D) : C = D := by
  ext b
  rw [h.isMax_iff hn, h'.isMax_iff hn']

end

theorem NoBuddy.mono (h : NoBuddy D) (hC : C ⊆ D) : NoBuddy C := fun b hb hbb =>
  h b (hC hb) (hC hbb)

theorem NoBuddy.insert (h : NoBuddy C) (hal : ∀ c ∈ C, c.Aligned) (hb : b.Aligned)
    (hbb : b.buddy ∉ C) : NoBuddy (Insert.insert b C) := by
  rintro c (rfl | hc) (hcb | hcb)
  · exact buddy_ne hb hcb
  · exact hbb hcb
  · exact hbb (by rw [← hcb, buddy_buddy (hal c hc)]; exact hc)
  · exact h c hc hcb

end

end Dyadic
