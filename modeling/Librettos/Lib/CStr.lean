/-
# `Lib.CStr` — strings in memory

A C string is the bytes from an address up to the first zero.  `Text m a s` says that the bytes `s`
are at `a`, `CStr m a s` that they are the string there.  Both depend on these bytes only, so they
survive a write anywhere else, and there is one string at an address (`CStr.unique`).

`strncmpEq` is the comparison with a constant of which only the first `n` bytes are looked at.
With the length of a text for `n` it does not tell whether the text is the constant, but whether
it is a prefix of it (`strncmpEq_iff`).
-/
import Librettos.Lib.Bytes

namespace Bytes

open Function List

/-- The bytes `s` are at the address `a`. -/
def Text (m : Mem) : ℕ → List UInt8 → Prop
  | _, [] => True
  | a, c :: s => m a = c ∧ Text m (a + 1) s

/-- The string at the address `a` is `s`. -/
structure CStr (m : Mem) (a : ℕ) (s : List UInt8) : Prop where
  text : Text m a s
  stop : m (a + s.length) = 0
  nonzero : 0 ∉ s

instance Text.decidable (m : Mem) : ∀ (a : ℕ) (s : List UInt8), Decidable (Text m a s)
  | _, [] => isTrue trivial
  | a, c :: s =>
    have := Text.decidable m (a + 1) s
    inferInstanceAs (Decidable (m a = c ∧ Text m (a + 1) s))

instance (m : Mem) (a : ℕ) (s : List UInt8) : Decidable (CStr m a s) :=
  decidable_of_iff (Text m a s ∧ m (a + s.length) = 0 ∧ 0 ∉ s)
    ⟨fun h => ⟨h.1, h.2.1, h.2.2⟩, fun h => ⟨h.text, h.stop, h.nonzero⟩⟩

/-- Memory with the bytes `s` at its start. -/
def ofList (s : List UInt8) : Mem := fun x => s.getD x 0

/-- `strncmp(a, name, n) == 0` -/
def strncmpEq (m : Mem) : ℕ → List UInt8 → ℕ → Bool
  | _, _, 0 => true
  | a, [], _ + 1 => m a == 0
  | a, c :: name, n + 1 => m a == c && strncmpEq m (a + 1) name n

variable {m m' : Mem} {a x n : ℕ} {c : UInt8} {s t name : List UInt8}

theorem text_append : ∀ {s : List UInt8} {a : ℕ},
    Text m a (s ++ t) ↔ Text m a s ∧ Text m (a + s.length) t
  | [], a => by simp [Text]
  | c :: s, a => by
    rw [cons_append, Text, Text, text_append, length_cons, and_assoc]
    rw [show a + 1 + s.length = a + (s.length + 1) by omega]

theorem Text.congr : ∀ {s : List UInt8} {a : ℕ}, Text m a s →
    (∀ x, a ≤ x → x < a + s.length → m' x = m x) → Text m' a s
  | [], _, _, _ => trivial
  | c :: s, a, h, heq => by
    rw [length_cons] at heq
    refine ⟨(heq a le_rfl (by omega)).trans h.1, h.2.congr fun x hlo hhi => ?_⟩
    exact heq x (by omega) (by omega)

theorem Text.update (h : Text m a s) (hx : x < a ∨ a + s.length ≤ x) : Text (update m x c) a s :=
  h.congr fun y _ _ => update_of_ne (by omega) _ _

theorem Text.push (h : Text m a s) : Text (Function.update m (a + s.length) c) a (s ++ [c]) :=
  text_append.mpr ⟨h.update (.inr le_rfl), Function.update_self _ _ _, trivial⟩

theorem Text.get : ∀ {s : List UInt8} {a i : ℕ}, Text m a s → (h : i < s.length) →
    m (a + i) = s[i]
  | _ :: _, _, 0, h, _ => h.1
  | _ :: s, a, i + 1, h, hi => by
    rw [show a + (i + 1) = a + 1 + i by omega]
    exact h.2.get (Nat.lt_of_succ_lt_succ hi)

theorem CStr.congr (h : CStr m a s) (heq : ∀ x, a ≤ x → x ≤ a + s.length → m' x = m x) :
    CStr m' a s :=
  ⟨h.text.congr fun x hlo hhi => heq x hlo hhi.le, (heq _ (by omega) le_rfl).trans h.stop, h.nonzero⟩

theorem CStr.update (h : CStr m a s) (hx : x < a ∨ a + s.length < x) : CStr (update m x c) a s :=
  h.congr fun y _ _ => update_of_ne (by omega) _ _

theorem CStr.tail (h : CStr m a (c :: s)) : CStr m (a + 1) s := by
  have hstop := h.stop
  rw [length_cons, show a + (s.length + 1) = a + 1 + s.length by omega] at hstop
  exact ⟨h.text.2, hstop, fun h0 => h.nonzero (mem_cons_of_mem _ h0)⟩

theorem CStr.ne_zero {i : ℕ} (h : CStr m a s) (hi : i < s.length) : m (a + i) ≠ 0 := by
  intro h0
  apply h.nonzero
  rw [← h0, h.text.get hi]
  exact getElem_mem hi

theorem CStr.length_le {i : ℕ} (h : CStr m a s) (hi : m (a + i) = 0) : s.length ≤ i :=
  not_lt.mp fun hlt => h.ne_zero hlt hi

/-- Two strings are equal if their bytes are, up to the terminator. -/
theorem CStr.eq_iff {b : ℕ} (hs : CStr m a s) (ht : CStr m b t) :
    s = t ↔ ∀ j ≤ s.length, m (a + j) = m (b + j) := by
  constructor
  · rintro rfl j hj
    rcases hj.lt_or_eq with hlt | rfl
    · rw [hs.text.get hlt, ht.text.get hlt]
    · rw [hs.stop, ht.stop]
  · intro h
    have hle : t.length ≤ s.length := ht.length_le ((h _ le_rfl).symm.trans hs.stop)
    have hge : s.length ≤ t.length := hs.length_le ((h _ hle).trans ht.stop)
    refine ext_getElem (le_antisymm hge hle) fun j h₁ h₂ => ?_
    rw [← hs.text.get h₁, ← ht.text.get h₂]
    exact h j h₁.le

theorem CStr.unique : ∀ {s t : List UInt8} {a : ℕ}, CStr m a s → CStr m a t → s = t
  | [], [], _, _, _ => rfl
  | [], c :: t, _, hs, ht => by
    have hc : c = 0 := ht.text.1.symm.trans hs.stop
    exact absurd (hc ▸ mem_cons_self) ht.nonzero
  | c :: s, [], _, hs, ht => by
    have hc : c = 0 := hs.text.1.symm.trans ht.stop
    exact absurd (hc ▸ mem_cons_self) hs.nonzero
  | c :: s, d :: t, _, hs, ht => by
    obtain rfl : c = d := hs.text.1.symm.trans ht.text.1
    rw [hs.tail.unique ht.tail]

theorem exists_cstr : ∀ {n a : ℕ}, m (a + n) = 0 → ∃ s, CStr m a s ∧ s.length ≤ n
  | 0, a, h => ⟨[], ⟨trivial, h, not_mem_nil⟩, le_rfl⟩
  | n + 1, a, h => by
    by_cases h0 : m a = 0
    · exact ⟨[], ⟨trivial, h0, not_mem_nil⟩, Nat.zero_le _⟩
    · rw [show a + (n + 1) = a + 1 + n by omega] at h
      obtain ⟨s, hs, hle⟩ := exists_cstr h
      refine ⟨m a :: s, ⟨⟨rfl, hs.text⟩, ?_, ?_⟩, Nat.succ_le_succ hle⟩
      · rw [length_cons, show a + (s.length + 1) = a + 1 + s.length by omega]
        exact hs.stop
      · rw [mem_cons, not_or]
        exact ⟨fun h => h0 h.symm, hs.nonzero⟩

/-- A text is compared over its length: it is a prefix of the constant. -/
theorem strncmpEq_iff : ∀ {s name : List UInt8} {a : ℕ}, Text m a s → 0 ∉ s →
    (strncmpEq m a name s.length = true ↔ s <+: name)
  | [], _, _, _, _ => by simp [strncmpEq]
  | c :: s, [], a, h, h0 => by
    have hc : c ≠ 0 := fun hc => h0 (hc ▸ mem_cons_self)
    simp [strncmpEq, h.1, hc]
  | c :: s, d :: name, a, h, h0 => by
    have ih : strncmpEq m (a + 1) name s.length = true ↔ s <+: name :=
      strncmpEq_iff h.2 fun hs => h0 (mem_cons_of_mem _ hs)
    rw [length_cons, strncmpEq, Bool.and_eq_true, ih, cons_prefix_cons, h.1, beq_iff_eq]

end Bytes
