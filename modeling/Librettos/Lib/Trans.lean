/-
# `Lib.Trans` — runs of a labelled transition system

A system is a partial function `step : σ → α → Option σ`: the label says who
moves and how every nondeterministic choice falls, so a step is a function and
a concrete run can be evaluated.  `Reach` is reachability by steps that meet a
side condition `ok`; with `ok` always true it is plain reachability, and with a
smaller `ok` it is "every run all of whose steps meet the condition", the form
in which a result about a faulty program is stated.

The rules a development needs are here once: an invariant of the steps is an
invariant of the runs (`Reach.inv`), and a run that was evaluated gives a reachable
state (`run_finds`, `any_finds`).
-/
import Mathlib.Logic.Function.Basic
import Mathlib.Tactic

namespace Trans

variable {σ α : Type*}

/-- The state after a list of labels, if every one of them is enabled. -/
def exec (step : σ → α → Option σ) : σ → List α → Option σ
  | s, [] => some s
  | s, a :: as => (step s a).bind fun s' => exec step s' as

theorem exec_cons {step : σ → α → Option σ} {s s' : σ} {a : α} (h : step s a = some s')
    (as : List α) : exec step s (a :: as) = exec step s' as := by
  rw [exec, h, Option.bind_some]

theorem exec_append (step : σ → α → Option σ) : ∀ (as bs : List α) (s : σ),
    exec step s (as ++ bs) = (exec step s as).bind fun s' => exec step s' bs
  | [], _, _ => rfl
  | a :: as, bs, s => by
    simp only [List.cons_append, exec, Option.bind_assoc]
    congr 1
    funext s'
    exact exec_append step as bs s'

/-- Every step of the run from `s` along the labels meets `ok`. -/
def okRun (step : σ → α → Option σ) (ok : σ → α → Prop) : σ → List α → Prop
  | _, [] => True
  | s, a :: as => ok s a ∧ ∀ s', step s a = some s' → okRun step ok s' as

/-- The condition can be evaluated along a concrete run. -/
instance okRun.decidable (step : σ → α → Option σ) (ok : σ → α → Prop)
    [∀ s a, Decidable (ok s a)] : ∀ (as : List α) (s : σ), Decidable (okRun step ok s as)
  | [], _ => isTrue trivial
  | a :: as, s =>
    match h : step s a with
    | none => decidable_of_iff (ok s a)
        ⟨fun h1 => ⟨h1, fun s' hs => absurd (h.symm.trans hs) (by simp)⟩, And.left⟩
    | some t =>
      have := okRun.decidable step ok as t
      decidable_of_iff (ok s a ∧ okRun step ok t as)
        ⟨fun h1 => ⟨h1.1, fun s' hs => Option.some.inj (h.symm.trans hs) ▸ h1.2⟩,
          fun h1 => ⟨h1.1, h1.2 t h⟩⟩

/-- The states reachable from `init` by steps that meet `ok`. -/
inductive Reach (step : σ → α → Option σ) (ok : σ → α → Prop) (init : σ → Prop) : σ → Prop
  | start {s : σ} : init s → Reach step ok init s
  | next {s s' : σ} {a : α} :
      Reach step ok init s → ok s a → step s a = some s' → Reach step ok init s'

/-- No condition on the steps. -/
def any : σ → α → Prop := fun _ _ => True

section
variable {step : σ → α → Option σ} {ok : σ → α → Prop} {init : σ → Prop}

/-- **The invariant rule.**  What holds initially and is kept by every step that
meets the condition holds in every reachable state. -/
theorem Reach.inv {I : σ → Prop} (h0 : ∀ s, init s → I s)
    (hstep : ∀ s a s', I s → ok s a → step s a = some s' → I s') :
    ∀ {s : σ}, Reach step ok init s → I s := by
  intro s h
  induction h with
  | start hi => exact h0 _ hi
  | next _ hok hs ih => exact hstep _ _ _ ih hok hs

theorem Reach.trans {s : σ} (h : Reach step ok (Reach step ok init) s) : Reach step ok init s := by
  induction h with
  | start hi => exact hi
  | next _ h1 hs ih => exact .next ih h1 hs

/-- Extending a reachable state by a run whose steps all meet the condition. -/
theorem Reach.exec : ∀ (as : List α) {s s' : σ}, Reach step ok init s →
    okRun step ok s as → exec step s as = some s' → Reach step ok init s'
  | [], s, s', h, _, he => by
    simp only [Trans.exec, Option.some.injEq] at he
    exact he ▸ h
  | a :: as, s, s', h, hok, he => by
    simp only [Trans.exec, Option.bind_eq_some_iff] at he
    obtain ⟨t, ht, he⟩ := he
    exact Reach.exec as (.next h hok.1 ht) (hok.2 t ht) he

theorem okRun_of_forall : ∀ (as : List α) (s : σ), (∀ a ∈ as, ∀ t, ok t a) → okRun step ok s as
  | [], _, _ => trivial
  | a :: as, s, h => ⟨h a (by simp) s, fun s' _ => okRun_of_forall as s' fun b hb => h b (by simp [hb])⟩

/-- Two conditions that agree where an invariant holds, which the first one keeps. -/
theorem okRun_iff {p q : σ → α → Prop} {I : σ → Prop} (hpq : ∀ s a, I s → (p s a ↔ q s a))
    (hkeep : ∀ s a s', I s → p s a → step s a = some s' → I s') :
    ∀ (as : List α) (s : σ), I s → (okRun step p s as ↔ okRun step q s as)
  | [], _, _ => Iff.rfl
  | a :: as, s, hs => by
    have hhead := hpq s a hs
    have htail : p s a → ∀ s', step s a = some s' → (okRun step p s' as ↔ okRun step q s' as) :=
      fun hp s' hstep => okRun_iff hpq hkeep as s' (hkeep s a s' hs hp hstep)
    constructor
    · exact fun h => ⟨hhead.mp h.1, fun s' hstep => (htail h.1 s' hstep).mp (h.2 s' hstep)⟩
    · exact fun h => ⟨hhead.mpr h.1,
        fun s' hstep => (htail (hhead.mpr h.1) s' hstep).mpr (h.2 s' hstep)⟩

theorem okRun_any (as : List α) (s : σ) : okRun step any s as :=
  okRun_of_forall as s fun _ _ _ => trivial

end

theorem run_finds (step : σ → α → Option σ) (ok : σ → α → Prop) (init : σ → Prop) {s : σ}
    (p : σ → Prop) [DecidablePred p] (as : List α) (hi : init s) (hok : okRun step ok s as)
    (hp : (exec step s as).any (fun s => decide (p s)) = true) : ∃ s', Reach step ok init s' ∧ p s' := by
  cases he : exec step s as with
  | none => simp [he] at hp
  | some s' => exact ⟨s', .exec as (.start hi) hok he, by simpa [he] using hp⟩

theorem any_finds (step : σ → α → Option σ) (init : σ → Prop) {s : σ} (p : σ → Prop) [DecidablePred p]
    (as : List α) (hi : init s) (hp : (exec step s as).any (fun s => decide (p s)) = true) :
    ∃ s', Reach step any init s' ∧ p s' :=
  run_finds step any init p as hi (okRun_any as s) hp

end Trans
