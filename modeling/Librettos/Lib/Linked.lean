/-
# `Lib.Linked` — chains of nodes and stamped words

Two notions a lock-free queue over recycled nodes is proved with.

* A *chain*: a list of nodes each of which points to the next, the last one
  ending in a counter instead of a pointer (`Linked`).
* A *stamped word*: a value next to a counter that grows with every update.  A
  party that read stamp and value knows the value for as long as it finds the
  stamp (`Saw`), even if the two were read one after the other.
-/
import Mathlib.Data.List.Nodup
import Mathlib.Tactic

/-! ## Chains -/

/-- What a node's link holds: a count at the end of a chain, or the next node. -/
inductive Link (N : Type)
  | cnt (k : ℕ)
  | ptr (n : N)
deriving DecidableEq, Repr

/-- The nodes of the list are linked in this order and end in the count `k`. -/
def Linked {N : Type} (nx : N → Link N) : List N → ℕ → Prop
  | [], _ => False
  | [a], k => nx a = .cnt k
  | a :: b :: l, k => nx a = .ptr b ∧ Linked nx (b :: l) k

namespace Linked

variable {N : Type} {nx nx' : N → Link N} {l : List N} {a b : N} {j k : ℕ}

theorem congr (h : Linked nx l k) (hnx : ∀ c ∈ l, nx' c = nx c) : Linked nx' l k := by
  induction l with
  | nil => exact h
  | cons a l ih =>
    cases l with
    | nil => exact (hnx a (by simp)).trans h
    | cons b l =>
      exact ⟨(hnx a (by simp)).trans h.1, ih h.2 fun c hc => hnx c (List.mem_cons_of_mem _ hc)⟩

theorem tail (h : Linked nx (a :: b :: l) k) : Linked nx (b :: l) k := h.2

theorem end_of_cnt (h : Linked nx l k) (ha : a ∈ l) (hc : nx a = .cnt j) :
    j = k ∧ ∃ l', l = l' ++ [a] := by
  induction l with
  | nil => exact absurd ha (by simp)
  | cons c l ih =>
    cases l with
    | nil =>
      obtain rfl : a = c := by simpa using ha
      have hk : nx a = .cnt k := h
      rw [hc] at hk
      exact ⟨Link.cnt.inj hk, [], rfl⟩
    | cons b l =>
      rcases List.mem_cons.mp ha with rfl | ha
      · have hp := h.1
        rw [hc] at hp
        exact absurd hp (by simp)
      · obtain ⟨hj, l', hl⟩ := ih h.2 ha
        exact ⟨hj, c :: l', by rw [hl]; rfl⟩

theorem mem_tail_of_ptr (h : Linked nx l k) (ha : a ∈ l) (hp : nx a = .ptr b) : b ∈ l.tail := by
  induction l with
  | nil => exact absurd ha (by simp)
  | cons c l ih =>
    cases l with
    | nil =>
      obtain rfl : a = c := by simpa using ha
      have hk : nx a = .cnt k := h
      rw [hp] at hk
      exact absurd hk (by simp)
    | cons d l =>
      rcases List.mem_cons.mp ha with rfl | ha
      · have hd := h.1
        rw [hp] at hd
        obtain rfl := Link.ptr.inj hd
        simp
      · exact List.mem_of_mem_tail (ih h.2 ha)

theorem cons_of_ptr (h : Linked nx (a :: l) k) (hp : nx a = .ptr b) : ∃ l', l = b :: l' := by
  cases l with
  | nil =>
    have hk : nx a = .cnt k := h
    rw [hp] at hk
    exact absurd hk (by simp)
  | cons c l =>
    have hc := h.1
    rw [hp] at hc
    obtain rfl := Link.ptr.inj hc
    exact ⟨l, rfl⟩

theorem set_end (h : Linked nx (l ++ [a]) k) (hnx : ∀ c ∈ l, nx' c = nx c) (ha : nx' a = .cnt j) :
    Linked nx' (l ++ [a]) j := by
  induction l with
  | nil => exact ha
  | cons c l ih =>
    have hrest : ∀ c ∈ l, nx' c = nx c := fun d hd => hnx d (List.mem_cons_of_mem _ hd)
    cases l with
    | nil => exact ⟨(hnx c (by simp)).trans h.1, ha⟩
    | cons d l => exact ⟨(hnx c (by simp)).trans h.1, ih h.2 hrest⟩

theorem snoc (h : Linked nx (l ++ [a]) k) (hnx : ∀ c ∈ l, nx' c = nx c) (ha : nx' a = .ptr b)
    (hb : nx' b = .cnt j) : Linked nx' (l ++ [a] ++ [b]) j := by
  induction l with
  | nil => exact ⟨ha, hb⟩
  | cons c l ih =>
    have hrest : ∀ c ∈ l, nx' c = nx c := fun d hd => hnx d (List.mem_cons_of_mem _ hd)
    cases l with
    | nil => exact ⟨(hnx c (by simp)).trans h.1, ha, hb⟩
    | cons d l => exact ⟨(hnx c (by simp)).trans h.1, ih h.2 hrest⟩

end Linked

/-! ## Stamped words -/

/-- A party read `stamp` and later `value`: as long as the stamp is there, so is
the value. -/
def Saw {α : Type} (word : ℕ × α) (stamp : ℕ) (value : α) : Prop :=
  stamp ≤ word.1 ∧ (word.1 = stamp → word.2 = value)

namespace Saw

variable {α : Type} {word word' : ℕ × α} {stamp : ℕ} {value : α}

theorem now (word : ℕ × α) : Saw word word.1 word.2 := ⟨le_rfl, fun _ => rfl⟩

theorem read (h : stamp ≤ word.1) : Saw word stamp word.2 := ⟨h, fun _ => rfl⟩

theorem mono (h : Saw word stamp value) (hw : word' = word ∨ word.1 < word'.1) :
    Saw word' stamp value := by
  rcases hw with rfl | hw
  · exact h
  · refine ⟨h.1.trans hw.le, fun hc => ?_⟩
    have := h.1
    omega

theorem unchanged (h : stamp ≤ word.1) (hw : word' = word ∨ word.1 < word'.1)
    (hs : word'.1 = stamp) : word' = word := by
  rcases hw with hw | hw
  · exact hw
  · omega

end Saw
