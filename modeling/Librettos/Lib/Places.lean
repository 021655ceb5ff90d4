/-
# `Lib.Places` — things that are in one place

A resource is conserved when each of a set of things is in exactly one of a set of
places, whatever the places are: a list, somebody's hands, a field of a record.
`Once` says so of a relation "is in", and `Once.move` is the rule for a step: one
thing is taken out of the place where it is and put into another.
-/
import Mathlib.Logic.ExistsUnique
import Mathlib.Tactic

namespace Places

variable {ι P : Type*} {D : ι → Prop} {At At' : ι → P → Prop} {i : ι} {p q : P}

/-- Everything in `D` is in exactly one place, and nothing else is anywhere. -/
def Once (D : ι → Prop) (At : ι → P → Prop) : Prop :=
  ∃ f : ι → P, ∀ i p, At i p ↔ D i ∧ p = f i

section
variable (h : Once D At)
include h

theorem Once.existsUnique (hi : D i) : ∃! p, At i p := by
  obtain ⟨f, hf⟩ := h
  exact ⟨f i, (hf i _).mpr ⟨hi, rfl⟩, fun p hp => ((hf i p).mp hp).2⟩

theorem Once.eq (hp : At i p) (hq : At i q) : p = q := by
  obtain ⟨f, hf⟩ := h
  rw [((hf i p).mp hp).2, ((hf i q).mp hq).2]

theorem Once.apart (hp : At i p) (hne : p ≠ q) : ¬ At i q :=
  fun hq => hne (h.eq hp hq)

theorem Once.congr (he : ∀ i p, At' i p ↔ At i p) : Once D At' := by
  obtain ⟨f, hf⟩ := h
  exact ⟨f, fun i p => (he i p).trans (hf i p)⟩

theorem Once.move (hp : At i p)
    (he : ∀ j r, At' j r ↔ At j r ∧ ¬ (j = i ∧ r = p) ∨ j = i ∧ r = q) : Once D At' := by
  classical
  obtain ⟨f, hf⟩ := h
  obtain ⟨hi, hpi⟩ := (hf i p).mp hp
  refine ⟨Function.update f i q, fun j r => ?_⟩
  rw [he, hf]
  by_cases hji : j = i
  · subst hji
    rw [Function.update_self, hpi]
    tauto
  · rw [Function.update_of_ne hji]
    tauto

end

end Places
