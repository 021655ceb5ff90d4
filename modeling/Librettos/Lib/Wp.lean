/-
# `Lib.Wp` — what holds when a program ends

A program with a state that can stop with an error.  `wp m Q E s`: from the state `s` it ends with a
value and a state of which `Q` holds, or with an error of which `E` holds.  The rules are
equivalences and go from a program to its parts, so `simp` can follow them.
-/
import Mathlib.Tactic.Common

namespace Wp

abbrev Run (σ ε : Type) : Type → Type := StateT σ (Except ε)

/-- To end with an error. -/
def stop {σ ε α : Type} (e : ε) : Run σ ε α := fun _ => .error e

def wp {σ ε α : Type} (m : Run σ ε α) (Q : α → σ → Prop) (E : ε → Prop) (s : σ) : Prop :=
  match m s with
  | .ok (a, s') => Q a s'
  | .error e => E e

section
variable {σ ε α β : Type} {m : Run σ ε α} {f : α → Run σ ε β} {s s' : σ} {a : α} {e : ε}
variable {Q Q' : α → σ → Prop} {R : β → σ → Prop} {E E' : ε → Prop} {c : Prop} [Decidable c]

@[simp] theorem wp_pure : wp (pure a : Run σ ε α) Q E s ↔ Q a s := Iff.rfl

@[simp] theorem wp_stop : wp (stop e : Run σ ε α) Q E s ↔ E e := Iff.rfl

@[simp] theorem wp_get {Q : σ → σ → Prop} : wp (get : Run σ ε σ) Q E s ↔ Q s s := Iff.rfl

@[simp] theorem wp_modify {Q : Unit → σ → Prop} {g : σ → σ} :
    wp (modify g : Run σ ε Unit) Q E s ↔ Q () (g s) := Iff.rfl

@[simp] theorem wp_bind : wp (m >>= f) R E s ↔ wp m (fun a s' => wp (f a) R E s') E s := by
  have hrun : (m >>= f) s = (m s).bind fun p => f p.1 p.2 := rfl
  unfold wp
  rw [hrun]
  cases m s with
  | error e => rfl
  | ok p => rfl

@[simp] theorem wp_ite {m' : Run σ ε α} :
    wp (if c then m else m') Q E s ↔ if c then wp m Q E s else wp m' Q E s := by
  split <;> rfl

theorem wp.mono (h : wp m Q E s) (hQ : ∀ a s', Q a s' → Q' a s') (hE : ∀ e, E e → E' e) :
    wp m Q' E' s := by
  unfold wp at h ⊢
  cases hm : m s with
  | error e =>
    rw [hm] at h
    exact hE e h
  | ok p =>
    rw [hm] at h
    exact hQ _ _ h

theorem wp.and (h : wp m Q E s) (h' : wp m Q' E' s) :
    wp m (fun a s' => Q a s' ∧ Q' a s') (fun e => E e ∧ E' e) s := by
  unfold wp at h h' ⊢
  cases hm : m s with
  | error | ok =>
    rw [hm] at h h'
    exact ⟨h, h'⟩

theorem wp.ok (h : wp m Q E s) (hm : m s = .ok (a, s')) : Q a s' := by
  unfold wp at h
  rwa [hm] at h

theorem wp.error (h : wp m Q E s) (hm : m s = .error e) : E e := by
  unfold wp at h
  rwa [hm] at h

theorem wp_of_ok (hm : m s = .ok (a, s')) (h : Q a s') : wp m Q E s := by
  unfold wp
  rwa [hm]

/-- How it stops and what holds when it returns are two things. -/
theorem wp_iff : wp m Q E s ↔
    wp m (fun _ _ => True) E s ∧ ∀ a s', m s = .ok (a, s') → Q a s' := by
  refine ⟨fun h => ⟨h.mono (fun _ _ _ => trivial) fun _ he => he, fun _ _ hm => h.ok hm⟩, ?_⟩
  rintro ⟨hstop, hret⟩
  cases hm : m s with
  | error e =>
    unfold wp
    rw [hm]
    exact hstop.error hm
  | ok p => exact wp_of_ok hm (hret p.1 p.2 hm)

theorem bind_of_ok (hm : m s = .ok (a, s')) : (m >>= f) s = f a s' := by
  have hrun : (m >>= f) s = (m s).bind fun p => f p.1 p.2 := rfl
  rw [hrun, hm]
  rfl

theorem get_bind {g : σ → Run σ ε β} : ((get : Run σ ε σ) >>= g) s = g s s := rfl

theorem bind_of_error (hm : m s = .error e) : (m >>= f) s = .error e := by
  have hrun : (m >>= f) s = (m s).bind fun p => f p.1 p.2 := rfl
  rw [hrun, hm]
  rfl

end

/-! ## Results alone -/

theorem bind_ok {ε α β : Type} {x : Except ε α} {f : α → Except ε β} {b : β}
    (h : x.bind f = .ok b) : ∃ a, x = .ok a ∧ f a = .ok b := by
  cases x with
  | error e => cases h
  | ok a => exact ⟨a, rfl, h⟩

theorem map_ok {ε α β : Type} {x : Except ε α} {f : α → β} {b : β} (h : x.map f = .ok b) :
    ∃ a, x = .ok a ∧ f a = b := by
  cases x with
  | error e => cases h
  | ok a => exact ⟨a, rfl, Except.ok.inj h⟩

end Wp
