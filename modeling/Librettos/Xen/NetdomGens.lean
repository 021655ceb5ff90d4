/-
# `Xen.NetdomGens` — which ring set an end is on

A control point names the generations whose pointers the end has read.  An end
learns of a generation only from its pointer (`txGo_gens`, `rxGo_gens`); so within
one connection, where the ring set is not replaced, everybody is on the first one
(`Single.reach`).
-/
import Librettos.Xen.Netdom

namespace Librettos.Netdom

open Function (update update_of_ne update_self)
open Sleeper Trans

/-! ## The generations a control point names -/

def TxPc.gens : TxPc → List ℕ
  | .deq g _ => [g]
  | .ptrBuf gd _ _ => [gd]
  | .zero gd gb _ _ => [gd, gb]
  | .add gd gb _ _ _ => [gd, gb]
  | .copy gd gb _ _ _ _ => [gd, gb]
  | .halt gd gb _ => [gd, gb]
  | .ptrEnq gd gb _ => [gd, gb]
  | .enq gd gb g _ => [gd, gb, g]
  | .look g => [g]
  | _ => []

def RxPc.gens : RxPc → List ℕ
  | .up g => [g]
  | .deq _ g => [g]
  | .got gd _ => [gd]
  | .len gd g _ => [gd, g]
  | .deliver gd g _ _ => [gd, g]
  | .ptrGive gd _ => [gd]
  | .give gd g _ => [gd, g]
  | .store g => [g]
  | .deqLast g => [g]
  | _ => []

def HdPc.gens : HdPc → List ℕ
  | .exch g => [g]
  | _ => []

theorem txGo_gens {txp : Option ℕ} {ring : ℕ → Rings} {flag : ℕ → ℤ} {pkt : List UInt8}
    {pc : TxPc} {o : TxOut} (h : txGo txp ring flag pkt pc = some o) {g : ℕ}
    (hg : g ∈ o.pc.gens) : g ∈ pc.gens ∨ txp = some g := by
  cases pc with
  | idle | halt => exact absurd h (by simp [txGo])
  | check c => cases txp <;> cases h <;> simp [TxPc.gens] at hg
  | ptrDeq | ptrBuf | ptrLook =>
    obtain ⟨g', rfl, rfl⟩ := Option.map_eq_some_iff.mp h
    simpa [TxPc.gens, eq_comm] using hg
  | ptrEnq gd gb i =>
    obtain ⟨g', rfl, rfl⟩ := Option.map_eq_some_iff.mp h
    simp only [TxPc.gens, List.mem_cons, List.not_mem_nil, or_false] at hg ⊢
    rcases hg with rfl | rfl | rfl
    · exact .inl (.inl rfl)
    · exact .inl (.inr rfl)
    · exact .inr rfl
  | deq g' c =>
    simp only [txGo] at h
    split at h <;> cases h
    · simp [TxPc.gens] at hg
    · exact .inl hg
  | zero | copy =>
    cases h
    exact .inl hg
  | add gd gb i off c =>
    cases c with
    | nil =>
      cases h
      exact .inl hg
    | cons b c =>
      simp only [txGo] at h
      split at h <;> cases h <;> exact .inl hg
  | enq | notify =>
    cases h
    simp [TxPc.gens] at hg
  | look g' =>
    cases h
    by_cases hf : flag g' ≤ 0 <;> simp [TxPc.gens, hf] at hg

section
variable {H : Type} {side : Side} {term : Bool} {rxp : ℕ} {ring : ℕ → Rings} {bed : Bed ℕ H}
  {pc : RxPc} {o : RxOut H}

theorem rxGo_gens (h : rxGo side term rxp ring bed pc = some o) {g : ℕ} (hg : g ∈ o.pc.gens) :
    g ∈ pc.gens ∨ g = rxp := by
  cases pc with
  | start | asleep =>
    cases h
    by_cases hs : side = .frontend ∧ term = true <;> simp [RxPc.gens, hs] at hg
  | done => exact absurd h (by simp [rxGo])
  | deq f g' =>
    simp only [rxGo] at h
    split at h <;> cases h
    · by_cases hf : f + 1 < 256 <;> simp [RxPc.gens, hf] at hg
    · exact .inl hg
  | deqLast g' =>
    simp only [rxGo] at h
    split at h <;> cases h
    · simp [RxPc.gens] at hg
    · exact .inl hg
  | _ =>
    cases h
    simp [RxPc.gens] at hg ⊢
    try tauto

end

/-! ## One connection -/

section
variable {S H : Type} [DecidableEq S] [DecidableEq H]
variable {s : State S H}

/-- One connection: the ring set is not replaced. -/
def oneConnection (_ : State S H) (a : Act S H) : Prop := a ≠ .newRings

instance (s : State S H) (a : Act S H) : Decidable (oneConnection s a) :=
  inferInstanceAs (Decidable (a ≠ .newRings))

/-- Everybody is on the ring set of generation `0`. -/
structure Single (s : State S H) : Prop where
  gen : s.gen = 1
  txp : ∀ g, s.txp = some g → g = 0
  rxp : s.rxp = 0
  tx : ∀ x, ∀ g ∈ (s.tx x).gens, g = 0
  rx : ∀ g ∈ s.rx.gens, g = 0
  cb : ∀ g, s.cb = some g → g = 0
  hd : ∀ h, ∀ g ∈ (s.hd h).gens, g = 0

omit [DecidableEq S] [DecidableEq H] in
theorem single_init (h : Init s) : Single s where
  gen := h.gen
  txp _ hg := absurd (h.txp.symm.trans hg) (by simp)
  rxp := h.rxp
  tx x := by simp [h.tx x, TxPc.gens]
  rx := by simp [h.rx, RxPc.gens]
  cb _ hg := absurd (h.cb.symm.trans hg) (by simp)
  hd x := by simp [h.hd x, HdPc.gens]

omit [DecidableEq S] in
theorem Single.moves (hs : Single s) {p : HdPc} (hp : ∀ g ∈ p.gens, g = 0) (x y : H) :
    ∀ g ∈ (update s.hd x p y).gens, g = 0 := by
  by_cases hyx : y = x
  · simpa [hyx] using hp
  · simpa [update_of_ne hyx] using hs.hd y

theorem Single.step {side : Side} {s' : State S H} {a : Act S H} (hs : Single s)
    (hok : oneConnection s a) (h : step side s a = some s') : Single s' := by
  cases step_moved h with
  | send x c =>
    refine { hs with tx := fun y => ?_ }
    by_cases hyx : y = x
    · simp [hyx, TxPc.gens]
    · simpa [update_of_ne hyx] using hs.tx y
  | tx x h =>
    obtain ⟨o, _, _, hgo, rfl, -⟩ := stepTx_cases h
    refine { hs with tx := fun y g hg => ?_ }
    by_cases hyx : y = x
    · simp only [hyx, update_self] at hg
      exact (txGo_gens hgo hg).elim (hs.tx x g) (hs.txp g)
    · simp only [update_of_ne hyx] at hg
      exact hs.tx y g hg
  | rx h =>
    obtain ⟨-, o, hgo, rfl⟩ := stepRx_cases h
    refine { hs with rx := fun g hg => ?_ }
    exact (rxGo_gens hgo hg).elim (hs.rx g) (fun h1 => h1.trans hs.rxp)
  | callback h =>
    obtain ⟨-, ⟨-, rfl⟩ | ⟨g, -, rfl⟩⟩ := stepCallback_cases h
    · exact { hs with cb := fun g hg => (Option.some.inj hg).symm.trans hs.rxp }
    · exact { hs with cb := fun g hg => absurd hg (by simp) }
  | handler x h =>
    obtain ⟨-, rfl⟩ | ⟨g, -, rfl⟩ := stepHandler_cases h
    · exact { hs with hd := hs.moves (by simp [HdPc.gens, hs.rxp]) x }
    · exact { hs with hd := hs.moves (by simp [HdPc.gens]) x }
  | deliver x | terminate x => exact { hs with hd := hs.moves (by simp [HdPc.gens]) x }
  | newRings => exact absurd rfl hok
  | setRx => exact { hs with rxp := by simp [hs.gen] }
  | setTx =>
    refine { hs with txp := fun g hg => ?_ }
    simpa [hs.gen, eq_comm] using Option.some.inj hg
  | event | requeue | resume | wake | bind | unmask => exact { hs with }

theorem Single.reach {side : Side}
    (hs : Reach (Netdom.step side) oneConnection Init s) : Single s :=
  Reach.inv (I := Single) (fun _ h0 => single_init h0)
    (fun _ _ _ h1 hok hstep => h1.step hok hstep) hs

end

end Librettos.Netdom
