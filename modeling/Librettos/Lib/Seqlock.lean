/-
# `Lib.Seqlock` — reading what is being written

A writer and a reader without a lock.  The writer makes a version number odd, writes the fields in
any order, and makes the number even.  The reader takes the number, reads fields, and takes the number
twice more: if the first is even and the second is the one it began with, it returns what it has
read, else it tries again.  Then all of it is from one completed update (`returned_consistent`),
unless the number has gone round in the meantime: an attempt during which fewer than `2^31` updates
begin is safe.

The fields have values of different types, `V f`.  `X` is what an attempt has read from elsewhere.
`begun`, `updates` and `returned` are ghosts: the updates begun during the attempt, the completed
ones, and what was returned.
-/
import Librettos.Lib.Trans

namespace Seqlock

/-- What an attempt returns: the fields that it has read, in order, and what it found there. -/
structure Result {F : Type} (V : F → Type) (X : Type) where
  x : X
  prog : List F
  got : List (Σ f, V f)

/-- Where the reader is. -/
inductive Pc {F : Type} (V : F → Type) (X : Type)
  | idle
  /-- reading; `todo` is what remains of `prog` -/
  | reading (version : BitVec 32) (r : Result V X) (todo : List F)
  /-- has found an even number -/
  | compare (version : BitVec 32) (r : Result V X)

structure State {F : Type} (V : F → Type) (X : Type) where
  version : BitVec 32
  fields : ∀ f, V f
  pc : Pc V X
  begun : ℕ
  updates : List (∀ f, V f)
  returned : List (Result V X)

inductive Act {F : Type} (V : F → Type) (X : Type)
  /-- the number becomes odd -/
  | begin
  | write (f : F) (v : V f)
  /-- and even again -/
  | finish
  /-- an attempt, which will read these fields -/
  | start (x : X) (prog : List F)
  | read
  /-- the number is read for its last bit -/
  | test
  /-- and once more, to be compared -/
  | compare

def odd (version : BitVec 32) : Bool := version.toNat % 2 == 1

def Pc.isIdle {F : Type} {V : F → Type} {X : Type} : Pc V X → Bool
  | .idle => true
  | _ => false

section
variable {F : Type} [DecidableEq F] {V : F → Type} {X : Type}

def step (progs : List (List F)) (s : State V X) : Act V X → Option (State V X)
  | .begin =>
    if odd s.version then none
    else
      some { s with
        version := s.version + 1
        begun := if s.pc.isIdle then s.begun else s.begun + 1 }
  | .write f v =>
    if odd s.version then some { s with fields := Function.update s.fields f v } else none
  | .finish =>
    if odd s.version then
      some { s with version := s.version + 1, updates := s.fields :: s.updates }
    else none
  | .start x prog =>
    if s.pc.isIdle ∧ prog ∈ progs then
      some { s with pc := .reading s.version ⟨x, prog, []⟩ prog, begun := 0 }
    else none
  | .read =>
    match s.pc with
    | .reading version r (f :: todo) =>
      some { s with
        pc := .reading version { r with got := r.got ++ [⟨f, s.fields f⟩] } todo }
    | _ => none
  | .test =>
    match s.pc with
    | .reading version r [] =>
      some { s with pc := if odd s.version then .idle else .compare version r }
    | _ => none
  | .compare =>
    match s.pc with
    | .compare version r =>
      if s.version = version then some { s with pc := .idle, returned := r :: s.returned }
      else some { s with pc := .idle }
    | _ => none

/-- What was there before is a completed update. -/
structure Init (s : State V X) : Prop where
  version : odd s.version = false
  pc : s.pc = .idle
  begun : s.begun = 0
  updates : s.updates = [s.fields]
  returned : s.returned = []

/-- Fewer than `2^31` updates begin during an attempt. -/
def Few (s : State V X) (a : Act V X) : Prop :=
  a = .begin → s.pc.isIdle = false → s.begun + 1 < 2 ^ 31

instance (s : State V X) (a : Act V X) : Decidable (Few s a) :=
  match a with
  | .begin => decidable_of_iff (s.pc.isIdle = false → s.begun + 1 < 2 ^ 31) ⟨fun h _ => h, fun h => h rfl⟩
  | .write _ _ | .finish | .start _ _ | .read | .test | .compare => isTrue nofun

/-- What was read is the update `u`. -/
def Result.Of (r : Result V X) (u : ∀ f, V f) : Prop := r.got = r.prog.map fun f => ⟨f, u f⟩

/-! ## The invariant -/

/-- An attempt that began with `version`; the number has moved `n` times. -/
structure Attempt (s : State V X) (version : BitVec 32) (n : ℕ) : Prop where
  number : s.version.toNat = (version.toNat + n) % 2 ^ 32
  /-- two moves for each update, as far as it has come -/
  moves : n + s.version.toNat % 2 = 2 * s.begun + version.toNat % 2

/-- If the number has not moved from an even one, what was read is there. -/
def Stable (s : State V X) (version : BitVec 32) (n : ℕ) (done : List F) (got : List (Σ f, V f)) :
    Prop :=
  n = 0 → odd version = false → got = done.map fun f => ⟨f, s.fields f⟩

/-- What holds where the reader is. -/
def At (progs : List (List F)) (s : State V X) : Pc V X → Prop
  | .idle => True
  | .reading version r todo =>
    r.prog ∈ progs ∧
      ∃ n done, Attempt s version n ∧ r.prog = done ++ todo ∧ Stable s version n done r.got
  | .compare version r =>
    r.prog ∈ progs ∧
      ∃ n, Attempt s version n ∧ (odd version = false ∨ 0 < n) ∧ Stable s version n r.prog r.got

structure Inv (progs : List (List F)) (s : State V X) : Prop where
  begun : s.begun < 2 ^ 31
  /-- between updates the fields are those of the last one -/
  last : odd s.version = false → s.fields ∈ s.updates
  at_pc : At progs s s.pc
  returned : ∀ r ∈ s.returned, r.prog ∈ progs ∧ ∃ u ∈ s.updates, r.Of u

variable {progs : List (List F)} {s s' : State V X} {version : BitVec 32} {n : ℕ} {pc : Pc V X}

theorem odd_eq_true {v : BitVec 32} : odd v = true ↔ v.toNat % 2 = 1 := beq_iff_eq

theorem odd_eq_false {v : BitVec 32} : odd v = false ↔ v.toNat % 2 = 0 := by
  rw [← Bool.not_eq_true, odd_eq_true]
  omega

theorem toNat_succ (v : BitVec 32) :
    (v + 1).toNat = (v.toNat + 1) % 2 ^ 32 ∧ (v + 1).toNat % 2 = 1 - v.toNat % 2 := by
  have hone : (1 : BitVec 32).toNat = 1 := rfl
  rw [BitVec.toNat_add, hone]
  omega

omit [DecidableEq F] in
theorem At.move {b : ℕ} {us : List (∀ f, V f)} (h : At progs s pc)
    (hb : pc.isIdle = false → b + s.version.toNat % 2 = s.begun + 1) :
    At progs { s with version := s.version + 1, begun := b, updates := us } pc := by
  have hsucc := toNat_succ s.version
  -- whatever was stable before is no longer asked for
  have hattempt : ∀ {version n}, pc.isIdle = false → Attempt s version n →
      Attempt { s with version := s.version + 1, begun := b, updates := us } version (n + 1) := by
    intro version n hpc h
    have hver := h.number
    have hmoves := h.moves
    have hb := hb hpc
    refine ⟨?_, ?_⟩
    · show (s.version + 1).toNat = _
      omega
    · show n + 1 + (s.version + 1).toNat % 2 = 2 * b + version.toNat % 2
      omega
  cases pc with
  | idle => trivial
  | reading version r todo =>
    obtain ⟨hin, n, done, ha, hprog, -⟩ := h
    exact ⟨hin, n + 1, done, hattempt rfl ha, hprog, fun h0 => absurd h0 (Nat.succ_ne_zero n)⟩
  | compare version r =>
    obtain ⟨hin, n, ha, -, -⟩ := h
    exact ⟨hin, n + 1, hattempt rfl ha, .inr (Nat.succ_pos n), fun h0 => absurd h0 (Nat.succ_ne_zero n)⟩

section
variable (h : Inv progs s)
include h

theorem Inv.begin (hfew : Few s .begin) (hstep : step progs s .begin = some s') : Inv progs s' := by
  obtain ⟨hodd, ⟨⟩⟩ := Option.ite_none_left_eq_some.mp hstep
  rw [Bool.not_eq_true, odd_eq_false] at hodd
  have hsucc := toNat_succ s.version
  constructor
  case begun =>
    show (if s.pc.isIdle then s.begun else s.begun + 1) < 2 ^ 31
    split
    · exact h.begun
    · next hpc => exact hfew rfl (Bool.not_eq_true _ ▸ hpc)
  case last =>
    intro heven
    rw [odd_eq_false] at heven
    dsimp only at heven
    omega
  case at_pc =>
    refine h.at_pc.move fun hpc => ?_
    rw [hpc]
    simp only [Bool.false_eq_true, if_false]
    omega
  case returned => exact h.returned

theorem Inv.write {f : F} {v : V f} (hstep : step progs s (.write f v) = some s') :
    Inv progs s' := by
  obtain ⟨hodd, ⟨⟩⟩ := Option.ite_none_right_eq_some.mp hstep
  -- the number is odd: either it has moved or it was odd from the start
  have hstable : ∀ {version n done got}, Attempt s version n → Stable s version n done got →
      Stable { s with fields := Function.update s.fields f v } version n done got := by
    intro version n done got ha _ h0 heven
    have hver := ha.number
    have hlt := version.isLt
    rw [odd_eq_true] at hodd
    rw [odd_eq_false] at heven
    omega
  have hat := h.at_pc
  constructor
  case begun => exact h.begun
  case last => exact fun heven => absurd (hodd.symm.trans heven) (by decide)
  case at_pc =>
    show At progs _ s.pc
    cases hpc : s.pc with
    | idle => trivial
    | reading version r todo =>
      rw [hpc] at hat
      obtain ⟨hin, n, done, ha, hprog, hst⟩ := hat
      exact ⟨hin, n, done, ⟨ha.number, ha.moves⟩, hprog, hstable ha hst⟩
    | compare version r =>
      rw [hpc] at hat
      obtain ⟨hin, n, ha, hor, hst⟩ := hat
      exact ⟨hin, n, ⟨ha.number, ha.moves⟩, hor, hstable ha hst⟩
  case returned => exact h.returned

theorem Inv.finish (hstep : step progs s .finish = some s') : Inv progs s' := by
  obtain ⟨hodd, ⟨⟩⟩ := Option.ite_none_right_eq_some.mp hstep
  rw [odd_eq_true] at hodd
  have hsucc := toNat_succ s.version
  constructor
  case begun => exact h.begun
  case last => exact fun _ => List.mem_cons_self
  case at_pc =>
    refine h.at_pc.move fun _ => ?_
    omega
  case returned =>
    intro r hr
    obtain ⟨hin, u, hu, hof⟩ := h.returned r hr
    exact ⟨hin, u, List.mem_cons_of_mem _ hu, hof⟩

theorem Inv.start {x : X} {prog : List F}
    (hstep : step progs s (.start x prog) = some s') : Inv progs s' := by
  obtain ⟨hin, ⟨⟩⟩ := Option.ite_none_right_eq_some.mp hstep
  refine ⟨Nat.two_pow_pos 31, h.last, ⟨hin.2, 0, [], ⟨?_, ?_⟩, rfl, fun _ _ => rfl⟩, h.returned⟩
  · exact (Nat.mod_eq_of_lt s.version.isLt).symm
  · show 0 + s.version.toNat % 2 = 2 * 0 + s.version.toNat % 2
    omega

theorem Inv.read (hstep : step progs s .read = some s') : Inv progs s' := by
  have hat := h.at_pc
  simp only [step] at hstep
  split at hstep
  · next version r f todo hpc =>
    cases hstep
    rw [hpc] at hat
    obtain ⟨hin, n, done, ha, hprog, hst⟩ := hat
    refine ⟨h.begun, h.last, ⟨hin, n, done ++ [f], ⟨ha.number, ha.moves⟩, ?_, ?_⟩, h.returned⟩
    · rw [hprog, List.append_assoc]
      rfl
    · intro h0 heven
      rw [hst h0 heven, List.map_append]
      rfl
  · cases hstep

theorem Inv.test (hstep : step progs s .test = some s') : Inv progs s' := by
  have hat := h.at_pc
  simp only [step] at hstep
  split at hstep
  · next version r hpc =>
    cases hstep
    rw [hpc] at hat
    obtain ⟨hin, n, done, ha, hprog, hst⟩ := hat
    rw [List.append_nil] at hprog
    refine { h with at_pc := ?_ }
    show At progs _ (if odd s.version then Pc.idle else .compare version r)
    split
    · trivial
    · next heven =>
      refine ⟨hin, n, ⟨ha.number, ha.moves⟩, ?_, hprog ▸ hst⟩
      rw [Bool.not_eq_true, odd_eq_false] at heven
      rw [odd_eq_false]
      have hver := ha.number
      have hlt := version.isLt
      omega
  · cases hstep

end

omit [DecidableEq F] in
/-- Where the number is the one of the start, it has not moved at all. -/
theorem Attempt.unmoved (ha : Attempt s version n) (hbegun : s.begun < 2 ^ 31)
    (heq : s.version = version) : n = 0 := by
  have hver := ha.number
  have hmoves := ha.moves
  have hlt := version.isLt
  rw [heq] at hver hmoves
  omega

theorem Inv.compare (h : Inv progs s) (hstep : step progs s .compare = some s') : Inv progs s' := by
  have hat := h.at_pc
  simp only [step] at hstep
  split at hstep
  · next version r hpc =>
    rw [hpc] at hat
    obtain ⟨hin, n, ha, hor, hst⟩ := hat
    split at hstep
    · next heq =>
      cases hstep
      have h0 := ha.unmoved h.begun heq
      have heven : odd version = false := hor.resolve_right (by omega)
      refine ⟨h.begun, h.last, trivial, ?_⟩
      rw [List.forall_mem_cons]
      exact ⟨⟨hin, s.fields, h.last (heq ▸ heven), hst h0 heven⟩, h.returned⟩
    · cases hstep
      exact { h with at_pc := trivial }
  · cases hstep

theorem Inv.step {a : Act V X} (h : Inv progs s) (hfew : Few s a) (hstep : step progs s a = some s') :
    Inv progs s' := by
  cases a with
  | begin => exact h.begin hfew hstep
  | write f v => exact h.write hstep
  | finish => exact h.finish hstep
  | start x prog => exact h.start hstep
  | read => exact h.read hstep
  | test => exact h.test hstep
  | compare => exact h.compare hstep

omit [DecidableEq F] in
theorem Init.inv (h : Init s) : Inv progs s := by
  refine ⟨by rw [h.begun]; decide, fun _ => by rw [h.updates]; exact List.mem_singleton_self _, ?_, ?_⟩
  · rw [h.pc]
    trivial
  · rw [h.returned]
    exact nofun

/-- **Consistency.**  What is returned was read by one of the programs, and is one completed update. -/
theorem returned_consistent (h : Trans.Reach (Seqlock.step progs) Few Init s) :
    ∀ r ∈ s.returned, r.prog ∈ progs ∧ ∃ u ∈ s.updates, r.Of u :=
  (h.inv (I := Inv progs) (fun _ => Init.inv) fun _ _ _ hi hfew hs => hi.step hfew hs).returned

end

end Seqlock
