/-
# `Lib.StableQueue` — a queue in order of a key, first come first served

The elements have a key, by which the queue is sorted, and a turn, the moment they came.
`Ahead` is the order of the queue: the smaller key first, and of two equal ones the earlier
turn.  An element that comes now goes in front of the first one with a greater key
(`pairwise_insert`), and what is taken from the front up to a bound is all there is up to that
bound (`takeWhile_eq_filter`).
-/
import Mathlib.Data.List.Sort
import Mathlib.Tactic

namespace StableQueue

open List

variable {T K : Type*} [LinearOrder K]

/-- `a` comes before `b`. -/
def Ahead (key : T → K) (turn : T → ℕ) (a b : T) : Prop :=
  key a < key b ∨ key a = key b ∧ turn a < turn b

variable {key key' : T → K} {turn turn' : T → ℕ} {a b : T} {q : List T}

theorem Ahead.le (h : Ahead key turn a b) : key a ≤ key b := by
  rcases h with h | ⟨h, -⟩
  · exact h.le
  · exact h.le

theorem Ahead.ne (h : Ahead key turn a b) : a ≠ b := by
  rintro rfl
  rcases h with h | ⟨-, h⟩
  · exact lt_irrefl _ h
  · exact lt_irrefl _ h

section
variable (h : q.Pairwise (Ahead key turn))
include h

theorem nodup_of_pairwise : q.Nodup :=
  h.imp Ahead.ne

theorem pairwise_congr (hkey : ∀ b ∈ q, key' b = key b)
    (hturn : ∀ b ∈ q, turn' b = turn b) : q.Pairwise (Ahead key' turn') := by
  refine h.imp_of_mem fun {b c} hb hc hbc => ?_
  rw [Ahead, hkey b hb, hkey c hc, hturn b hb, hturn c hc]
  exact hbc

/-- An element that comes last goes in front of the first one with a greater key. -/
theorem pairwise_insert (hturn : ∀ b ∈ q, turn b < turn a) :
    (q.orderedInsert (fun a b => key a < key b) a).Pairwise (Ahead key turn) := by
  induction q with
  | nil => simp
  | cons b q ih =>
    obtain ⟨hb, hq⟩ := pairwise_cons.mp h
    rw [orderedInsert_cons]
    split
    · next hlt =>
      refine pairwise_cons.mpr ⟨fun c hc => .inl ?_, h⟩
      rcases mem_cons.mp hc with rfl | hc
      · exact hlt
      · exact hlt.trans_le (hb c hc).le
    · next hle =>
      refine pairwise_cons.mpr ⟨fun c hc => ?_, ih hq fun c hc => hturn c (.tail _ hc)⟩
      rcases (mem_orderedInsert _).mp hc with rfl | hc
      · -- behind the elements with the same key
        rcases lt_or_eq_of_le (not_lt.mp hle) with hlt | heq
        · exact .inl hlt
        · exact .inr ⟨heq, hturn b mem_cons_self⟩
      · exact hb c hc

/-- What is in front of the first element beyond `t` is all there is up to `t`. -/
theorem takeWhile_eq_filter (t : K) :
    q.takeWhile (fun a => decide (key a ≤ t)) = q.filter fun a => decide (key a ≤ t) := by
  induction q with
  | nil => rfl
  | cons b q ih =>
    obtain ⟨hb, hq⟩ := pairwise_cons.mp h
    by_cases hle : key b ≤ t
    · simp [hle, ih hq]
    · have hnone : q.filter (fun a => decide (key a ≤ t)) = [] := by
        refine filter_eq_nil_iff.mpr fun c hc => ?_
        simpa using (not_le.mp hle).trans_le (hb c hc).le
      simp [hle, hnone]

theorem dropWhile_eq_filter (t : K) :
    q.dropWhile (fun a => decide (key a ≤ t)) = q.filter fun a => decide (t < key a) := by
  induction q with
  | nil => rfl
  | cons b q ih =>
    obtain ⟨hb, hq⟩ := pairwise_cons.mp h
    by_cases hle : key b ≤ t
    · simp [hle, ih hq]
    · have hall : ∀ c ∈ q, t < key c := fun c hc => (not_le.mp hle).trans_le (hb c hc).le
      have hfilter : q.filter (fun a => decide (t < key a)) = q :=
        filter_eq_self.mpr fun c hc => by simpa using hall c hc
      simp [hle, hfilter, not_le.mp hle]

end

end StableQueue
