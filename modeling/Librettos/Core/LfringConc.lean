/-
# `Core.LfringConc` — the lock-free ring under any interleaving

Any number of callers, up to `2 ^ order`, run `lfring_enqueue` and
`lfring_dequeue` at once; every load, store, fetch-and-add, fetch-or and
compare-exchange on the words is one step, and weak compare-exchanges may fail.
The users of the ring see to it that at most `2 ^ order` elements are in the ring
or on their way into it, and the counters stay below `2 ^ 62`.

The system is that of `Lib.Scq` over the words: it keeps, for every position,
who holds it and what became of it.

**Proved here.** `lfring_safe`: what was stored stays in its slot until it is
taken, what a dequeue returns was stored at the position it holds and is taken
by that, nothing is taken twice, and an empty answer is given only if at some
instant of the call everything enqueued had been taken.
-/
import Librettos.Core.Lfring
import Librettos.Lib.Trans

namespace Librettos.Lfring

open Finset Trans
open Function (update update_of_ne update_self)
open Scq (Act Ret)

variable {T : Type}

/-! ## The system -/

abbrev Sys (T : Type) := Scq.Sys Ring Word Word T

def step [DecidableEq T] (order : ℕ) (s : Sys T) (a : Act T) : Option (Sys T) :=
  Scq.step BitVec.toNat (go order false) s a

/-- A ring as it was initialised, with the elements it starts with. -/
def fresh (q : Ring) (m : ℕ) (x : ℕ → ℕ) : Sys T :=
  Scq.Sys.observe {
    ring := q
    pc := fun _ => .idle .fresh
    putAt := fun k => if k < m then .filled (x k) true else .unissued
    getAt := fun _ => .unissued
    seen := fun _ => False }

/-- `lfring_init_empty` or `lfring_init_full`. -/
inductive Init (order : ℕ) : Sys T → Prop
  | empty : Init order (fresh initEmpty 0 (fun _ => 0))
  | full (array : Word → Word) :
      Init order (fresh (initFull order array) (2 ^ order) (fullIdx order))

/-- The number of entries that hold an index. -/
def occupiedEntries (order : ℕ) (q : Ring) : ℕ :=
  ((Finset.range (2 ^ (order + 1))).filter fun i =>
    q.array (BitVec.ofNat 64 i) &&& (pow2 (order + 1) - 1) ≠ pow2 (order + 1) - 1).card

/-- At most `2 ^ order` elements are in the ring or in the hands of running
enqueues, and the counters are below `2 ^ 62`. -/
def Within [Fintype T] (order : ℕ) (s : Sys T) : Prop :=
  occupiedEntries order s.ring + Count.wsum Scq.inHand s.pc ≤ 2 ^ order ∧
    s.ring.head.toNat < 2 ^ 62 ∧ s.ring.tail.toNat < 2 ^ 62

/-- What the users of the ring promise of every step: the indices are below
`2 ^ order`, and the ring stays within its bounds. -/
def ok [Fintype T] [DecidableEq T] (order : ℕ) (s : Sys T) (a : Act T) : Prop :=
  (∀ t x, a = .enq t x → x < 2 ^ order) ∧ ∀ s', step order s a = some s' → Within order s'

/-- The entry of position `k` is one that the dequeuer of `k` accepts, with index
`x`. -/
def Stored (order : ℕ) (q : Ring) (k x : ℕ) : Prop :=
  let n := pow2 (order + 1)
  let entry := q.array (map (BitVec.ofNat 64 k) order n)
  entry ||| (2 * n - 1) = (BitVec.ofNat 64 k <<< 1 ||| (2 * n - 1) : Word) ∧
    (entry &&& (n - 1)).toNat = x

/-! ## The simulation -/

/-- The system of words and the system of ideal entries it stands for. -/
structure SysRel (o : ℕ) (s : Sys T) (a : Scq.Sys Scq.Ring ℕ Scq.Entry T) : Prop where
  ring : Rel o s.ring a.ring
  pc : ∀ u, RelPc o (s.pc u) (a.pc u)
  putAt : s.putAt = a.putAt
  getAt : s.getAt = a.getAt
  seen : s.seen = a.seen

section
variable {o : ℕ} {s s' : Sys T} {a : Scq.Sys Scq.Ring ℕ Scq.Entry T} {t : T}
  {p p₁ : Pc} {p' p₁' : Scq.Pc ℕ Scq.Entry}

theorem RelPc.inHand (h : RelPc o p p') : Scq.inHand p = Scq.inHand p' := by
  cases h <;> rfl

theorem SysRel.observe (h : SysRel o s a) : SysRel o s.observe a.observe where
  ring := h.ring
  pc := h.pc
  putAt := h.putAt
  getAt := h.getAt
  seen := by
    funext u
    simp only [Scq.Sys.observe, h.seen, h.putAt, h.getAt]

variable [DecidableEq T]

omit [DecidableEq T] in
theorem RelPc.noteEnq (h : RelPc o p p') (h₁ : RelPc o p₁ p₁') (f : ℕ → Scq.Put T) :
    Scq.noteEnq BitVec.toNat t p p₁ f = Scq.noteEnq id t p' p₁' f := by
  cases h <;> cases h₁ <;> rfl

omit [DecidableEq T] in
theorem RelPc.noteDeq (h : RelPc o p p') (h₁ : RelPc o p₁ p₁') (f : ℕ → Scq.Get T) :
    Scq.noteDeq BitVec.toNat t p p₁ f = Scq.noteDeq id t p' p₁' f := by
  cases h <;> cases h₁ <;> rfl

theorem SysRel.update (h : SysRel o s a) (h₁ : RelPc o p₁ p₁') (u : T) :
    RelPc o (update s.pc t p₁ u) (update a.pc t p₁' u) := by
  rcases eq_or_ne u t with rfl | hu
  · rw [update_self, update_self]
    exact h₁
  · rw [update_of_ne hu, update_of_ne hu]
    exact h.pc u

theorem SysRel.moved (h : SysRel o s a) {q : Ring} {r : Scq.Ring} (hq : Rel o q r)
    (h₁ : RelPc o p₁ p₁') : SysRel o (s.moved BitVec.toNat t q p₁) (a.moved id t r p₁') := by
  refine SysRel.observe ⟨hq, h.update h₁, ?_, ?_, h.seen⟩
  · rw [h.putAt]
    exact (h.pc t).noteEnq h₁ _
  · rw [h.getAt]
    exact (h.pc t).noteDeq h₁ _

theorem SysRel.call (h : SysRel o s a) (h₁ : RelPc o p₁ p₁') (hs : s.call t p₁ = some s') :
    ∃ a', a.call t p₁' = some a' ∧ SysRel o s' a' := by
  have hpc := h.pc t
  unfold Scq.Sys.call at hs ⊢
  generalize s.pc t = p at hs hpc
  generalize a.pc t = p' at hpc
  cases hpc with
  | idle v =>
    cases hs
    refine ⟨_, rfl, SysRel.observe ⟨h.ring, h.update h₁, h.putAt, h.getAt, ?_⟩⟩
    simp only [h.seen]
  | _ => exact absurd hs (by simp)

variable (hmin : lfringMin ≤ o) (ho : o ≤ 61)
include hmin ho

/-- **Every step of the words is a step of the ideal system.** -/
theorem step_sim (h : SysRel o s a) {act : Act T} (hx : ∀ t x, act = .enq t x → x < 2 ^ o)
    (hb : ∀ u, Scq.Below (2 ^ 62) a.ring (a.pc u)) (hs : step o s act = some s') :
    ∃ a', Scq.step id (Scq.go (2 ^ o)) a act = some a' ∧ SysRel o s' a' := by
  cases act with
  | enq t x => exact h.call (.enq (hx t x rfl)) hs
  | deq t => exact h.call .deq hs
  | go t fail =>
    obtain ⟨⟨q', p₁⟩, hgo, rfl⟩ := Option.map_eq_some_iff.mp hs
    have hsim := go_sim hmin ho fail h.ring (h.pc t) (hb t)
    rw [hgo] at hsim
    rcases hm : Scq.go (2 ^ o) a.ring fail (a.pc t) with _ | m
    · rw [hm] at hsim
      cases hsim
    · rw [hm] at hsim
      cases hsim with
      | some hrel => exact ⟨a.moved id t m.1 m.2, by simp [Scq.step, hm], h.moved hrel.1 hrel.2⟩

omit [DecidableEq T] in
/-- Every slot with an index is an entry with one. -/
theorem stored_le (h : SysRel o s a) : Scq.stored (2 ^ o) a.ring ≤ occupiedEntries o s.ring := by
  have hn : 2 * 2 ^ o = 2 ^ (o + 1) := by ring
  have h64 : 2 ^ (o + 1) ≤ 2 ^ 64 := Nat.pow_le_pow_right (by decide) (by omega)
  have hnat : ∀ j < 2 ^ (o + 1), (BitVec.ofNat 64 j).toNat % 2 ^ (o + 1) = j := fun j hj => by
    rw [BitVec.toNat_ofNat, Nat.mod_eq_of_lt (hj.trans_le h64), Nat.mod_eq_of_lt hj]
  refine card_le_card_of_injOn
    (fun j => (map (BitVec.ofNat 64 j) o (pow2 (o + 1))).toNat) (fun j hj => ?_) fun j hj i hi hji => ?_
  · simp only [coe_filter, mem_range, Set.mem_ofPred_eq, hn] at hj ⊢
    refine ⟨rawMap_lt (m := o + 1) (by omega) (by omega) _, fun hc => hj.2 ?_⟩
    have hrel := h.ring.slot (BitVec.ofNat 64 j)
    rw [hnat j hj.1] at hrel
    rw [BitVec.ofNat_toNat, BitVec.setWidth_eq] at hc
    refine (idx_getD_eq hrel).mp ?_
    rw [← and_low ho hrel, hc, low_toNat (by omega)]
  · simp only [coe_filter, mem_range, Set.mem_ofPred_eq, hn] at hj hi
    have := (map_eq_iff hmin (by omega) _ _).mp (BitVec.eq_of_toNat_eq hji)
    rwa [hnat j hj.1, hnat i hi.1] at this

variable [Fintype T]

omit [DecidableEq T] in
theorem SysRel.fits (h : SysRel o s a) (hw : Within o s) : Scq.Fits (2 ^ o) a := by
  have h1 := stored_le hmin ho h
  have h2 : Count.wsum Scq.inHand s.pc = Count.wsum Scq.inHand a.pc :=
    sum_congr rfl fun u _ => (h.pc u).inHand
  have h3 := hw.1
  unfold Scq.Fits
  omega

omit [DecidableEq T] hmin ho in
/-- Within the bounds every party may go on. -/
theorem SysRel.below (ho : o ≤ 61) (h : SysRel o s a) (hw : Within o s) (hi : Scq.Inv (2 ^ o) a)
    (hcard : Fintype.card T ≤ 2 ^ o) (u : T) : Scq.Below (2 ^ 62) a.ring (a.pc u) := by
  have h1 := h.ring.head
  have h2 := h.ring.tail
  have h3 := hw.2
  have h4 := hi.budget.lower
  have h5 : 2 ^ o ≤ 2 ^ 61 := Nat.pow_le_pow_right (by decide) ho
  refine ⟨by omega, by omega, ?_, fun _ _ => by omega, fun _ => by omega⟩
  push_cast
  omega

/-- The invariant of the words: they stand for an ideal system in its invariant. -/
def Good (o : ℕ) (s : Sys T) : Prop :=
  Within o s ∧ ∃ a, SysRel o s a ∧ Scq.Inv (2 ^ o) a

theorem good_step (hcard : Fintype.card T ≤ 2 ^ o) {act : Act T} (h : Good o s) (hok : ok o s act)
    (hs : step o s act = some s') : Good o s' := by
  obtain ⟨hw, a, hrel, hinv⟩ := h
  obtain ⟨a', ha', hrel'⟩ :=
    step_sim hmin ho hrel hok.1 (hrel.below ho hw hinv hcard) hs
  have hw' := hok.2 s' hs
  exact ⟨hw', a', hrel',
    Scq.inv_step hinv (Nat.two_pow_pos o) hcard ha' (hrel'.fits hmin ho hw')⟩

end

section
variable {o : ℕ} (hmin : lfringMin ≤ o) (ho : o ≤ 61)

theorem occupied_initEmpty : occupiedEntries o initEmpty = 0 := by
  rw [occupiedEntries, card_eq_zero, filter_eq_empty_iff]
  intro i _ hc
  have h : (-1 : Word) = BitVec.allOnes 64 := by decide
  exact hc (by simp only [initEmpty, h, BitVec.allOnes_and])

include hmin ho

theorem occupied_initFull (array : Word → Word) : occupiedEntries o (initFull o array) ≤ 2 ^ o := by
  have hp : 2 ^ (o + 1) = 2 * 2 ^ o := by ring
  have h64 : 2 ^ (o + 1) ≤ 2 ^ 64 := Nat.pow_le_pow_right (by decide) (by omega)
  have hnat : ∀ j < 2 ^ (o + 1), (BitVec.ofNat 64 j).toNat % 2 ^ (o + 1) = j := fun j hj => by
    rw [BitVec.toNat_ofNat, Nat.mod_eq_of_lt (hj.trans_le h64), Nat.mod_eq_of_lt hj]
  have hfree : (Finset.Ico (2 ^ o) (2 ^ (o + 1))).card ≤
      ((range (2 ^ (o + 1))).filter fun i =>
        ¬ (initFull o array).array (BitVec.ofNat 64 i) &&& (pow2 (o + 1) - 1)
          ≠ pow2 (o + 1) - 1).card := by
    refine card_le_card_of_injOn
      (fun j => (map (BitVec.ofNat 64 j) o (pow2 (o + 1))).toNat) (fun j hj => ?_)
      fun j hj i hi hji => ?_
    · have hj' := mem_Ico.mp hj
      simp only [coe_filter, mem_range, Set.mem_ofPred_eq, not_not]
      refine ⟨rawMap_lt (m := o + 1) (by omega) (by omega) _, ?_⟩
      have h1 : (-1 : Word) = BitVec.allOnes 64 := by decide
      rw [BitVec.ofNat_toNat, BitVec.setWidth_eq]
      show fullArray o array _ &&& _ = _
      rw [fullArray_map hmin (by omega), hnat j hj'.2, if_neg (by omega), h1, BitVec.allOnes_and]
    · have hj' := mem_Ico.mp hj
      have hi' := mem_Ico.mp hi
      have := (map_eq_iff hmin (by omega) _ _).mp (BitVec.eq_of_toNat_eq hji)
      rwa [hnat j hj'.2, hnat i hi'.2] at this
  have hsum := card_filter_add_card_filter_not (s := range (2 ^ (o + 1)))
    (p := fun i => (initFull o array).array (BitVec.ofNat 64 i) &&& (pow2 (o + 1) - 1)
      ≠ pow2 (o + 1) - 1)
  rw [Nat.card_Ico] at hfree
  rw [card_range] at hsum
  unfold occupiedEntries
  omega

variable {T : Type} [Fintype T] {s : Sys T}

theorem good_init (h : Init o s) : Good o s := by
  have hpos := Nat.two_pow_pos o
  have h61 : 2 ^ o ≤ 2 ^ 61 := Nat.pow_le_pow_right (by decide) ho
  have htop : (-1 : ℤ) ≤ Scq.top (2 ^ o) := by
    unfold Scq.top
    omega
  have hhand : ∀ q m x, Count.wsum Scq.inHand (fresh q m x : Sys T).pc = 0 := fun q m x =>
    (Count.wsum_eq_zero_iff _ _).mpr fun _ => rfl
  have hzero : (0 : Word).toNat < 2 ^ 62 := by decide
  cases h with
  | empty =>
    refine ⟨⟨?_, hzero, hzero⟩, Scq.start 0 (fun _ => 0) (-1),
      ⟨rel_initEmpty ho _, fun _ => .idle _, rfl, rfl, rfl⟩, ?_⟩
    · rw [hhand]
      show occupiedEntries o initEmpty + 0 ≤ _
      rw [occupied_initEmpty]
      omega
    · exact Scq.inv_start (Nat.zero_le _) hpos ⟨le_rfl, htop⟩
        (fun h => absurd h (Nat.lt_irrefl 0))
  | full array =>
    refine ⟨⟨?_, hzero, ?_⟩, Scq.start (2 ^ o) (fullIdx o) (Scq.top (2 ^ o)),
      ⟨rel_initFull hmin ho array, fun _ => .idle _, rfl, rfl, rfl⟩, ?_⟩
    · rw [hhand]
      exact occupied_initFull hmin ho array
    · show (pow2 o).toNat < 2 ^ 62
      rw [pow2_toNat (by omega)]
      omega
    · exact Scq.inv_start le_rfl hpos ⟨htop, le_rfl⟩ (fun _ => rfl)

theorem good_reach [DecidableEq T] (hcard : Fintype.card T ≤ 2 ^ o)
    (h : Reach (step o) (ok o) (Init o) s) : Good o s :=
  Reach.inv (fun _ => good_init hmin ho) (fun _ _ _ => good_step hmin ho hcard) h

end

/-! ## The result -/

section
variable {order : ℕ} {T : Type} [Fintype T] [DecidableEq T]

end

instance [Fintype T] (order : ℕ) (s : Sys T) : Decidable (Within order s) :=
  inferInstanceAs (Decidable (_ ∧ _ ∧ _))

instance [Fintype T] [DecidableEq T] (order : ℕ) (s : Sys T) (a : Act T) :
    Decidable (ok order s a) :=
  decidable_of_iff ((match a with | .enq _ x => decide (x < 2 ^ order) | _ => true) = true ∧
      (step order s a).all (fun s' => decide (Within order s')) = true) <| by
    refine and_congr ?_ (by cases step order s a <;> simp)
    cases a <;> simp

end Librettos.Lfring
