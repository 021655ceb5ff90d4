/-
# `Core.JoinScene` — where the thread slots are

The part of a state of `Core.Join` that says where the thread slots are, with the little
of the control points that bears on it, is its *scene*.  A scene is sound when every slot
is in one place, when what its control point says goes with the place, and when a
processor that is in a callback or in the reaper has just switched to its thread.

Each lemma below moves one slot to another place; a step of the program is one or two of
these moves (`Core.JoinSafe`).
-/
import Librettos.Core.Join

namespace Librettos.Join

open Function (update)
open Places Rendezvous

/-! ## Scenes -/

/-- Where a thread slot can be. -/
inductive Place (P : Type)
  | free
  | zombie
  | hand (p : P)
  | queued
  | on (p : P)
  | leaving (p : P)
  | asleep

/-- What a thread's control point and its rendezvous say about where it is. -/
inductive Pos
  | run
  | busy
  | leaving
  | asleep
  | woken
  | dead
deriving DecidableEq, Repr

structure Scene (P T : Type) where
  freeq : List T
  zombieq : List T
  runq : List T
  cur : P → Option T
  leaving : P → Option T
  hand : P → Option T
  pos : T → Pos

section
variable {P T : Type}

def Scene.At (c : Scene P T) (t : T) : Place P → Prop
  | .free => t ∈ c.freeq
  | .zombie => t ∈ c.zombieq
  | .hand p => c.hand p = some t
  | .queued => t ∈ c.runq
  | .on p => c.cur p = some t
  | .leaving p => c.leaving p = some t
  | .asleep => c.pos t = .asleep

/-- The positions that go with a place. -/
def Place.allows : Place P → Pos → Prop
  | .free, x => x = .run ∨ x = .dead
  | .zombie, x | .hand _, x => x = .dead
  | .queued, x => x = .run ∨ x = .woken
  | .on _, x => x = .run ∨ x = .busy ∨ x = .woken
  | .leaving _, x => x = .run ∨ x = .leaving ∨ x = .dead
  | .asleep, x => x = .asleep

/-- A processor that is in a callback or in the reaper has just switched to its thread. -/
def Scene.Calm (c : Scene P T) : Prop :=
  ∀ p t, c.cur p = some t →
    c.leaving p = none ∧ c.hand p = none ∨ c.pos t = .run ∨ c.pos t = .woken

/-- Every slot is in one place, and its position goes with it. -/
structure Scene.Sound (c : Scene P T) : Prop where
  once : Once (fun _ => True) c.At
  freeq : c.freeq.Nodup
  zombieq : c.zombieq.Nodup
  runq : c.runq.Nodup
  fits : ∀ t q, c.At t q → q.allows (c.pos t)
  calm : c.Calm

namespace Scene.Sound

variable {c c' : Scene P T} {t : T} {p : P} {q r : Place P}

section
variable (h : c.Sound)
include h

theorem apart (hq : c.At t q) (hne : q ≠ r) : ¬ c.At t r := h.once.apart hq hne

theorem place (t : T) : ∃ q, c.At t q := (h.once.existsUnique trivial).exists

theorem move (hq : c.At t q) (he : ∀ j x, c'.At j x ↔ c.At j x ∧ ¬ (j = t ∧ x = q) ∨ j = t ∧ x = r)
    (hpos : ∀ j, j ≠ t → c'.pos j = c.pos j) (hr : r.allows (c'.pos t))
    (hf : c'.freeq.Nodup) (hz : c'.zombieq.Nodup) (hrun : c'.runq.Nodup) (hcalm : c'.Calm) :
    c'.Sound where
  calm := hcalm
  once := h.once.move hq he
  freeq := hf
  zombieq := hz
  runq := hrun
  fits := by
    intro j x hx
    rcases (he j x).mp hx with ⟨hold, hnot⟩ | ⟨rfl, rfl⟩
    · have hj : j ≠ t := by
        rintro rfl
        exact hnot ⟨rfl, h.once.eq hold hq⟩
      rw [hpos j hj]
      exact h.fits j x hold
    · exact hr

/-- What a step leaves as it was for the processors it is not about. -/
theorem carry (he : ∀ p j, c'.cur p = some j → c'.pos j = .run ∨ c'.pos j = .woken ∨
      c.cur p = some j ∧ c'.pos j = c.pos j ∧ (c.leaving p = none → c'.leaving p = none) ∧
        (c.hand p = none → c'.hand p = none)) : c'.Calm := by
  intro p j hj
  rcases he p j hj with hrun | hwoken | ⟨hold, hpos, hl, hh⟩
  · exact .inr (.inl hrun)
  · exact .inr (.inr hwoken)
  · rw [hpos]
    exact (h.calm p j hold).imp_left fun hc => ⟨hl hc.1, hh hc.2⟩

theorem off (hq : c.At t q) (hne : q ≠ .on p) {j : T} (hj : c.cur p = some j) : j ≠ t := by
  rintro rfl
  exact hne (h.once.eq hq (show c.At j (.on p) from hj))

/-- The slot `t`, which is on no processor, goes from `q` to `r`, and nothing is left or taken
in hand. -/
theorem shift (hq : c.At t q) (hne : ∀ p, q ≠ .on p)
    (he : ∀ j x, c'.At j x ↔ c.At j x ∧ ¬ (j = t ∧ x = q) ∨ j = t ∧ x = r)
    (hpos : ∀ j, j ≠ t → c'.pos j = c.pos j) (hr : r.allows (c'.pos t))
    (hf : c'.freeq.Nodup) (hz : c'.zombieq.Nodup) (hrun : c'.runq.Nodup) (hcur : c'.cur = c.cur)
    (hl : ∀ p, c.leaving p = none → c'.leaving p = none)
    (hh : ∀ p, c.hand p = none → c'.hand p = none) : c'.Sound := by
  refine h.move hq he hpos hr hf hz hrun (h.carry fun p j hj => .inr (.inr ?_))
  rw [hcur] at hj
  exact ⟨hj, hpos j (h.off hq (hne p) hj), hl p, hh p⟩

end

variable [DecidableEq T]

attribute [local simp] Scene.At

theorem set (h : c.Sound) (hon : c.At t (.on p)) (hl : c.leaving p = none) (hh : c.hand p = none)
    {x : Pos} (hx : x = .run ∨ x = .busy) : Scene.Sound { c with pos := update c.pos t x } := by
  have hna : c.pos t ≠ .asleep := h.apart (r := .asleep) hon (by simp)
  have hx' : x ≠ .asleep := by rcases hx with rfl | rfl <;> simp
  have hcur : c.cur p = some t := hon
  refine h.move (r := .on p) hon (fun j q => ?_) (fun j hj => by simp [hj])
    (by simpa [Place.allows] using hx.imp_right .inl) h.freeq h.zombieq h.runq fun p' j hj => ?_
  · cases q with
    | on p' =>
      by_cases hp : p' = p
      · simp [hp, hcur, eq_comm (a := t)]
      · simp [hp]
    | asleep => by_cases hj : j = t <;> simp [hj, hx', hna]
    | _ => simp
  · by_cases hp : p' = p
    · subst hp
      exact .inl ⟨hl, hh⟩
    · have hjt : j ≠ t := h.off hon (by simpa using Ne.symm hp) hj
      simpa [hjt] using h.calm p' j hj

omit [DecidableEq T] in
theorem update_none_eq_none [DecidableEq P] {f : P → Option T} {p' : P} (h : f p' = none) :
    update f p none p' = none := by
  by_cases hpp : p' = p <;> simp [hpp, h]

section
variable (h : c.Sound)
include h

theorem park [DecidableEq P] (hon : c.At t (.on p)) (hl : c.leaving p = none) {x : Pos}
    (hx : x = .run ∨ x = .leaving ∨ x = .dead) :
    Scene.Sound { c with
      cur := update c.cur p none
      leaving := update c.leaving p (some t)
      pos := update c.pos t x } := by
  have hx' : x ≠ .asleep := by rcases hx with rfl | rfl | rfl <;> simp
  have hna : c.pos t ≠ .asleep := h.apart (r := .asleep) hon (by simp)
  have hcur : c.cur p = some t := hon
  refine h.move (r := .leaving p) hon (fun j q => ?_) (fun j hj => by simp [hj])
    (by simpa [Place.allows] using hx) h.freeq h.zombieq h.runq
    (h.carry fun p' j hj => ?_)
  · cases q with
    | on p' => by_cases hp : p' = p <;> simp [hp, hcur, eq_comm (a := t)]
    | leaving p' => by_cases hp : p' = p <;> simp [hp, hl, eq_comm (a := t)]
    | asleep => by_cases hj : j = t <;> simp [hj, hx', hna]
    | _ => simp
  · by_cases hp : p' = p
    · simp [hp] at hj
    · have hj' : c.cur p' = some j := by simpa [hp] using hj
      have hjt : j ≠ t := h.off hon (by simpa using Ne.symm hp) hj'
      simp [hp, hjt, hj']

theorem take [DecidableEq P] (hq : t ∈ c.runq) (hcur : c.cur p = none) :
    Scene.Sound { c with runq := c.runq.erase t, cur := update c.cur p (some t) } := by
  have hpos := h.fits t .queued hq
  refine h.move (q := .queued) (r := .on p) hq (fun j q => ?_) (fun _ _ => rfl)
    (hpos.elim .inl fun hw => .inr (.inr hw)) h.freeq h.zombieq (h.runq.erase t)
    (h.carry fun p' j hj => ?_)
  · cases q with
    | queued =>
      simp only [Scene.At, h.runq.mem_erase_iff]
      tauto
    | on p' => by_cases hp : p' = p <;> simp [hp, hcur, eq_comm (a := t)]
    | _ => simp
  · by_cases hp : p' = p
    · have hjt : t = j := by simpa [hp] using hj
      exact hjt ▸ hpos.imp_right .inl
    · exact .inr (.inr ⟨by simpa [hp] using hj, rfl, id, id⟩)

theorem requeue [DecidableEq P] (hl : c.At t (.leaving p)) {x : Pos} (hx : x = .run ∨ x = .woken) :
    Scene.Sound { c with
      leaving := update c.leaving p none
      runq := c.runq ++ [t]
      pos := update c.pos t x } := by
  have hlp : c.leaving p = some t := hl
  have hx' : x ≠ .asleep := by rcases hx with rfl | rfl <;> simp
  have hna : c.pos t ≠ .asleep := h.apart (r := .asleep) hl (by simp)
  have hnot : t ∉ c.runq := h.apart (r := .queued) hl (by simp)
  refine h.shift (r := .queued) hl (by simp) (fun j q => ?_) (fun j hj => by simp [hj])
    (by simpa [Place.allows] using hx) h.freeq h.zombieq (by simpa using h.runq.concat hnot) rfl
    (fun _ => update_none_eq_none) (fun _ => id)
  cases q with
  | queued => simp
  | leaving p' => by_cases hp : p' = p <;> simp [hp, hlp, eq_comm (a := t)]
  | asleep => by_cases hj : j = t <;> simp [hj, hx', hna]
  | _ => simp

theorem sleep [DecidableEq P] (hl : c.At t (.leaving p)) :
    Scene.Sound { c with
      leaving := update c.leaving p none
      pos := update c.pos t .asleep } := by
  have hlp : c.leaving p = some t := hl
  have hna : c.pos t ≠ .asleep := h.apart (r := .asleep) hl (by simp)
  refine h.shift (r := .asleep) hl (by simp) (fun j q => ?_) (fun j hj => by simp [hj])
    (by simp [Place.allows]) h.freeq h.zombieq h.runq rfl (fun _ => update_none_eq_none) (fun _ => id)
  cases q with
  | leaving p' => by_cases hp : p' = p <;> simp [hp, hlp, eq_comm (a := t)]
  | asleep => by_cases hj : j = t <;> simp [hj]
  | _ => simp

theorem rouse (ha : c.pos t = .asleep) :
    Scene.Sound { c with runq := c.runq ++ [t], pos := update c.pos t .woken } := by
  have hnot : t ∉ c.runq := h.apart (q := .asleep) (r := .queued) ha (by simp)
  refine h.shift (q := .asleep) (r := .queued) ha (by simp) (fun j q => ?_) (fun j hj => by simp [hj])
    (by simp [Place.allows]) h.freeq h.zombieq (by simpa using h.runq.concat hnot) rfl
    (fun _ => id) (fun _ => id)
  cases q with
  | queued => simp
  | asleep => by_cases hj : j = t <;> simp [hj]
  | _ => simp

omit [DecidableEq T] in
theorem bury [DecidableEq P] (hl : c.At t (.leaving p)) (hd : c.pos t = .dead) :
    Scene.Sound { c with leaving := update c.leaving p none, zombieq := c.zombieq ++ [t] } := by
  have hlp : c.leaving p = some t := hl
  have hnot : t ∉ c.zombieq := h.apart (r := .zombie) hl (by simp)
  refine h.shift (r := .zombie) hl (by simp) (fun j q => ?_) (fun _ _ => rfl) hd h.freeq
    (by simpa using h.zombieq.concat hnot) h.runq rfl (fun _ => update_none_eq_none) (fun _ => id)
  cases q with
  | zombie => simp
  | leaving p' => by_cases hp : p' = p <;> simp [hp, hlp, eq_comm (a := t)]
  | _ => simp

theorem grab [DecidableEq P] {rest : List T} (hz : c.zombieq = t :: rest)
    (hh : c.hand p = none) (hr : ∀ j, c.cur p = some j → c.pos j = .run ∨ c.pos j = .woken) :
    Scene.Sound { c with zombieq := rest, hand := update c.hand p (some t) } := by
  have hat : c.At t .zombie := by simp [hz]
  have hnodup := h.zombieq
  rw [hz, List.nodup_cons] at hnodup
  refine h.move (r := .hand p) hat (fun j q => ?_) (fun _ _ => rfl) (h.fits t .zombie hat) h.freeq
    hnodup.2 h.runq (h.carry fun p' j hj => ?_)
  · cases q with
    | zombie =>
      have : j ∈ rest → j ≠ t := fun hj hjt => hnodup.1 (hjt ▸ hj)
      simp only [Scene.At, hz, List.mem_cons]
      tauto
    | hand p' => by_cases hp : p' = p <;> simp [hp, hh, eq_comm (a := t)]
    | _ => simp
  · by_cases hp : p' = p
    · exact (hr j (hp ▸ hj)).imp_right .inl
    · exact .inr (.inr ⟨hj, rfl, id, fun hnone => by simp [hp, hnone]⟩)

omit [DecidableEq T] in
theorem release [DecidableEq P] (hh : c.At t (.hand p)) :
    Scene.Sound { c with hand := update c.hand p none, freeq := c.freeq ++ [t] } := by
  have hhp : c.hand p = some t := hh
  have hnot : t ∉ c.freeq := h.apart (r := .free) hh (by simp)
  refine h.shift (r := .free) hh (by simp) (fun j q => ?_) (fun _ _ => rfl) (.inr (h.fits t _ hh))
    (by simpa using h.freeq.concat hnot) h.zombieq h.runq rfl (fun _ => id)
    (fun _ => update_none_eq_none)
  cases q with
  | free => simp
  | hand p' => by_cases hp : p' = p <;> simp [hp, hhp, eq_comm (a := t)]
  | _ => simp

theorem create (hf : t ∈ c.freeq) :
    Scene.Sound { c with
      freeq := c.freeq.erase t
      runq := c.runq ++ [t]
      pos := update c.pos t .run } := by
  have hat : c.At t .free := hf
  have hnot : t ∉ c.runq := h.apart (r := .queued) hat (by simp)
  have hna : c.pos t ≠ .asleep := h.apart (r := .asleep) hat (by simp)
  refine h.shift (r := .queued) hat (by simp) (fun j q => ?_) (fun j hj => by simp [hj])
    (by simp [Place.allows]) (h.freeq.erase t) h.zombieq (by simpa using h.runq.concat hnot) rfl
    (fun _ => id) (fun _ => id)
  cases q with
  | free =>
    simp only [Scene.At, h.freeq.mem_erase_iff]
    tauto
  | queued => simp
  | asleep => by_cases hj : j = t <;> simp [hj, hna]
  | _ => simp

end

end Scene.Sound

end

end Librettos.Join
