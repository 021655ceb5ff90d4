/-
# `Lib.Scq` — the scalable circular queue over ideal entries

A bounded ring of `2 * half` slots that any number of parties fill and empty at
once.  Positions are handed out by two counters, `tail` for enqueues and `head`
for dequeues; position `p` lives in slot `p % (2 * half)`, so a slot is used
again once a cycle.  A slot remembers the last position it was written for, an
index or nothing, and a *safe* bit that a dequeuer clears when it overtakes an
index it may not remove.  A threshold lets a dequeuer give up.

Here an entry is ideal: its stamp is the whole position (plus one; zero for a
slot never used) where an implementation keeps the cycle only, and the counters
are numbers.  What an implementation has to show is that its words stand for
these entries; every property of the algorithm is proved here, once.

The control points (`Pc`) and the system around them (`Sys`, `step`) are generic
in the counters and the entries, so an implementation runs in the same system.
The system carries history that no step reads: what became of every enqueue
position (`Put`) and dequeue position (`Get`), and for each caller whether
everything enqueued was taken at some instant since its call began (`seen`).
-/
import Librettos.Lib.Count
import Mathlib.Data.Finset.Card

namespace Scq

open Function (update)

/-! ## Control points, callers and their history -/

/-- What the last call of a party returned. -/
inductive Ret
  | fresh
  | enqueued
  | value (v : ℕ)
  | empty
deriving DecidableEq, Repr

/-- The points between two atomic operations of an enqueue or a dequeue, with
the local variables that are still used. -/
inductive Pc (C E : Type)
  | idle (r : Ret)
  | enq (x : ℕ)
  | enqLoad (x : ℕ) (tail : C)
  | enqHead (x : ℕ) (tail : C) (entry : E)
  | enqCas (x : ℕ) (tail : C) (entry : E)
  | enqThr (tail : C)
  | enqStore (tail : C)
  | deq
  | deqAdd
  | deqLoad (head : C)
  | deqOr (head : C) (entry : E)
  | deqCas (head : C) (entry new : E)
  | deqTail (head : C)
  | catchCas (tail head : C)
  | catchHead
  | catchTail (head : C)
  | deqSub
  | deqLoop
deriving DecidableEq, Repr

/-- The history of an enqueue position. -/
inductive Put (T : Type)
  | unissued
  | pending (t : T)
  | lost
  | filled (x : ℕ) (completed : Bool)
deriving DecidableEq, Repr

/-- The history of a dequeue position. -/
inductive Get (T : Type)
  | unissued
  | pending (t : T)
  | missed
  | taken
deriving DecidableEq, Repr

variable {R C E T : Type}

/-- The party that holds an enqueue position. -/
def Put.holder : Put T → Option T
  | .pending t => some t
  | _ => none

/-- The element stored at an enqueue position. -/
def Put.val : Put T → Option ℕ
  | .filled x _ => some x
  | _ => none

/-- The enqueue that filled the position has returned. -/
def Put.complete : Put T → Put T
  | .filled x _ => .filled x true
  | p => p

/-- The party that holds a dequeue position. -/
def Get.holder : Get T → Option T
  | .pending t => some t
  | _ => none

/-- The enqueue position a point holds. -/
def Pc.put? : Pc C E → Option C
  | .enqLoad _ k | .enqHead _ k _ | .enqCas _ k _ => some k
  | _ => none

/-- The dequeue position a point holds and has not given up. -/
def Pc.get? : Pc C E → Option C
  | .deqLoad k | .deqOr k _ | .deqCas k _ _ => some k
  | _ => none

section
variable [DecidableEq T]

/-- What a move of `t` from one point to the next says about enqueue positions. -/
def noteEnq (num : C → ℕ) (t : T) : Pc C E → Pc C E → (ℕ → Put T) → ℕ → Put T
  | .enq _, .enqLoad _ k, f => update f (num k) (.pending t)
  | .enqLoad _ k, .enq _, f | .enqHead _ k _, .enq _, f | .enqCas _ k _, .enq _, f =>
    update f (num k) .lost
  | .enqCas x k _, .enqThr _, f => update f (num k) (.filled x false)
  | .enqThr k, .idle _, f | .enqStore k, .idle _, f =>
    update f (num k) (f (num k)).complete
  | _, _, f => f

/-- What a move of `t` from one point to the next says about dequeue positions. -/
def noteDeq (num : C → ℕ) (t : T) : Pc C E → Pc C E → (ℕ → Get T) → ℕ → Get T
  | .deqAdd, .deqLoad k, f => update f (num k) (.pending t)
  | .deqLoad k, .deqTail _, f | .deqCas k _ _, .deqTail _, f => update f (num k) .missed
  | .deqOr k _, .idle _, f => update f (num k) .taken
  | _, _, f => f

/-- A ring, the parties that call it, and the history. -/
structure Sys (R C E T : Type) where
  ring : R
  pc : T → Pc C E
  putAt : ℕ → Put T
  getAt : ℕ → Get T
  seen : T → Prop

/-- Every completed enqueue has been taken: a dequeue holds its position or has
returned its element. -/
def AllTaken (put : ℕ → Put T) (get : ℕ → Get T) : Prop :=
  ∀ k x, put k = .filled x true → (∃ t, get k = .pending t) ∨ get k = .taken

/-- Every caller notes an instant at which everything was taken. -/
def Sys.observe (s : Sys R C E T) : Sys R C E T :=
  { s with seen := fun u => s.seen u ∨ AllTaken s.putAt s.getAt }

/-- A party calls enqueue or dequeue, or performs its next atomic operation; a
weak compare-exchange may `fail` without a cause. -/
inductive Act (T : Type)
  | enq (t : T) (x : ℕ)
  | deq (t : T)
  | go (t : T) (fail : Bool)
deriving DecidableEq, Repr

/-- A call begins, and with it what its caller has seen. -/
def Sys.call (s : Sys R C E T) (t : T) (p : Pc C E) : Option (Sys R C E T) :=
  match s.pc t with
  | .idle _ =>
    some (Sys.observe { s with
      pc := update s.pc t p
      seen := update s.seen t False })
  | _ => none

/-- The state after party `t` moved to point `p`, leaving the ring as `r`. -/
def Sys.moved (num : C → ℕ) (s : Sys R C E T) (t : T) (r : R) (p : Pc C E) : Sys R C E T :=
  Sys.observe {
    ring := r
    pc := update s.pc t p
    putAt := noteEnq num t (s.pc t) p s.putAt
    getAt := noteDeq num t (s.pc t) p s.getAt
    seen := s.seen }

/-- One step of the system, given what an operation does to the ring. -/
def step (num : C → ℕ) (go : R → Bool → Pc C E → Option (R × Pc C E)) (s : Sys R C E T) :
    Act T → Option (Sys R C E T)
  | .enq t x => s.call t (.enq x)
  | .deq t => s.call t .deq
  | .go t fail => (go s.ring fail (s.pc t)).map fun m => s.moved num t m.1 m.2

end

/-! ## The ideal ring -/

/-- A slot: the last position it was written for plus one, the safe bit, and the
index it holds. -/
structure Entry where
  stamp : ℕ
  safe : Bool
  idx : Option ℕ
deriving DecidableEq, Repr

structure Ring where
  head : ℕ
  tail : ℕ
  thr : ℤ
  slot : ℕ → Entry

def Ring.write (r : Ring) (j : ℕ) (e : Entry) : Ring :=
  { r with slot := update r.slot j e }

/-- An enqueuer looks at the entry of its position: it may use a slot that is
free and older, if that is safe or after a look at `head`; else the position is
lost. -/
def enqTest (x k : ℕ) (e : Entry) : Pc ℕ Entry :=
  if e.stamp ≤ k ∧ e.idx = none then
    if e.safe then .enqCas x k e else .enqHead x k e
  else .enq x

/-- A dequeuer looks at the entry of its position: it is the one, or an older
one that is marked before the position is given up, or not. -/
def deqTest (k : ℕ) (e : Entry) : Pc ℕ Entry :=
  if e.stamp = k + 1 then .deqOr k e
  else if e.idx ≠ none then
    if e.safe = false then .deqTail k
    else if e.stamp ≤ k then .deqCas k e { e with safe := false } else .deqTail k
  else if e.stamp ≤ k then .deqCas k e ⟨k + 1, e.safe, none⟩ else .deqTail k

/-- The value the threshold is set to. -/
def top (half : ℕ) : ℤ := 3 * half - 1

/-- The next atomic operation of a party at a point. -/
def go (half : ℕ) (r : Ring) (fail : Bool) : Pc ℕ Entry → Option (Ring × Pc ℕ Entry)
  | .idle _ => none
  | .enq x => some ({ r with tail := r.tail + 1 }, .enqLoad x r.tail)
  | .enqLoad x k => some (r, enqTest x k (r.slot (k % (2 * half))))
  | .enqHead x k e => some (r, if r.head ≤ k then .enqCas x k e else .enq x)
  | .enqCas x k e =>
    if fail = false ∧ r.slot (k % (2 * half)) = e then
      some (r.write (k % (2 * half)) ⟨k + 1, true, some x⟩, .enqThr k)
    else some (r, enqTest x k (r.slot (k % (2 * half))))
  | .enqThr k => some (r, if r.thr = top half then .idle .enqueued else .enqStore k)
  | .enqStore _ => some ({ r with thr := top half }, .idle .enqueued)
  | .deq => some (r, if r.thr < 0 then .idle .empty else .deqAdd)
  | .deqAdd => some ({ r with head := r.head + 1 }, .deqLoad r.head)
  | .deqLoad k => some (r, deqTest k (r.slot (k % (2 * half))))
  | .deqOr k e =>
    some (r.write (k % (2 * half)) { r.slot (k % (2 * half)) with idx := none },
      .idle (.value (e.idx.getD (2 * half - 1))))
  | .deqCas k e new =>
    if fail = false ∧ r.slot (k % (2 * half)) = e then
      some (r.write (k % (2 * half)) new, .deqTail k)
    else some (r, deqTest k (r.slot (k % (2 * half))))
  | .deqTail k => some (r, if r.tail ≤ k + 1 then .catchCas r.tail (k + 1) else .deqLoop)
  | .catchCas t h =>
    if fail = false ∧ r.tail = t then some ({ r with tail := h }, .deqSub)
    else some (r, .catchHead)
  | .catchHead => some (r, .catchTail r.head)
  | .catchTail h => some (r, if h ≤ r.tail then .deqSub else .catchCas r.tail h)
  | .deqSub => some ({ r with thr := r.thr - 1 }, .idle .empty)
  | .deqLoop =>
    some ({ r with thr := r.thr - 1 }, if r.thr ≤ 0 then .idle .empty else .deqAdd)

/-- The counters stay within a bound, with room for the next operation. -/
structure Below (b : ℕ) (r : Ring) (p : Pc ℕ Entry) : Prop where
  head : r.head ≤ b
  tail : r.tail ≤ b
  thr : -(b : ℤ) ≤ r.thr
  enq : ∀ x, p = .enq x → r.tail < b
  deq : p = .deqAdd → r.head < b

/-! ## What a step can do -/

/-- The point of an enqueuer that is about to look at the entry of position `k`. -/
def LooksEnq (p : Pc ℕ Entry) (x k : ℕ) : Prop := p = .enqLoad x k ∨ ∃ e, p = .enqCas x k e

/-- The point of a dequeuer that is about to look at the entry of position `k`. -/
def LooksDeq (p : Pc ℕ Entry) (k : ℕ) : Prop := p = .deqLoad k ∨ ∃ e new, p = .deqCas k e new

/-- How a dequeuer at `k` marks an older entry: an index is made unsafe, a free
slot is moved on to `k`. -/
def Marks (k : ℕ) (e new : Entry) : Prop :=
  (e.idx ≠ none ∧ new = { e with safe := false }) ∨ (e.idx = none ∧ new = ⟨k + 1, e.safe, none⟩)

/-- The moves of party `t`, one constructor for each way an operation can turn
out, with what it does to the ring and to the history. -/
inductive Move [DecidableEq T] (half : ℕ) (t : T) (r : Ring) (f : ℕ → Put T) (g : ℕ → Get T) :
    Pc ℕ Entry → Ring → (ℕ → Put T) → (ℕ → Get T) → Pc ℕ Entry → Prop
  | issue (x : ℕ) :
      Move half t r f g (.enq x) { r with tail := r.tail + 1 }
        (update f r.tail (.pending t)) g (.enqLoad x r.tail)
  | useSafe {p : Pc ℕ Entry} {x k : ℕ} (hp : LooksEnq p x k)
      (hs : (r.slot (k % (2 * half))).stamp ≤ k) (hi : (r.slot (k % (2 * half))).idx = none)
      (hsafe : (r.slot (k % (2 * half))).safe = true) :
      Move half t r f g p r f g (.enqCas x k (r.slot (k % (2 * half))))
  | useUnsafe {p : Pc ℕ Entry} {x k : ℕ} (hp : LooksEnq p x k)
      (hs : (r.slot (k % (2 * half))).stamp ≤ k) (hi : (r.slot (k % (2 * half))).idx = none) :
      Move half t r f g p r f g (.enqHead x k (r.slot (k % (2 * half))))
  | lose {p : Pc ℕ Entry} {x k : ℕ} (hp : LooksEnq p x k)
      (hn : ¬ ((r.slot (k % (2 * half))).stamp ≤ k ∧ (r.slot (k % (2 * half))).idx = none)) :
      Move half t r f g p r (update f k .lost) g (.enq x)
  | headOk (x k : ℕ) (e : Entry) (hk : r.head ≤ k) :
      Move half t r f g (.enqHead x k e) r f g (.enqCas x k e)
  | headLate (x k : ℕ) (e : Entry) (hk : k < r.head) :
      Move half t r f g (.enqHead x k e) r (update f k .lost) g (.enq x)
  | fill (x k : ℕ) :
      Move half t r f g (.enqCas x k (r.slot (k % (2 * half))))
        (r.write (k % (2 * half)) ⟨k + 1, true, some x⟩)
        (update f k (.filled x false)) g (.enqThr k)
  | thrOk (k : ℕ) (hthr : r.thr = top half) :
      Move half t r f g (.enqThr k) r (update f k (f k).complete) g (.idle .enqueued)
  | thrLow (k : ℕ) : Move half t r f g (.enqThr k) r f g (.enqStore k)
  | thrSet (k : ℕ) :
      Move half t r f g (.enqStore k) { r with thr := top half }
        (update f k (f k).complete) g (.idle .enqueued)
  | giveUp (hthr : r.thr < 0) : Move half t r f g .deq r f g (.idle .empty)
  | enter (hthr : 0 ≤ r.thr) : Move half t r f g .deq r f g .deqAdd
  | claim :
      Move half t r f g .deqAdd { r with head := r.head + 1 } f
        (update g r.head (.pending t)) (.deqLoad r.head)
  | found {p : Pc ℕ Entry} {k : ℕ} (hp : LooksDeq p k)
      (hs : (r.slot (k % (2 * half))).stamp = k + 1) :
      Move half t r f g p r f g (.deqOr k (r.slot (k % (2 * half))))
  | mark {p : Pc ℕ Entry} {k : ℕ} {new : Entry} (hp : LooksDeq p k)
      (hs : (r.slot (k % (2 * half))).stamp ≤ k)
      (hm : Marks k (r.slot (k % (2 * half))) new) :
      Move half t r f g p r f g (.deqCas k (r.slot (k % (2 * half))) new)
  | pass {p : Pc ℕ Entry} {k : ℕ} (hp : LooksDeq p k)
      (hs : (r.slot (k % (2 * half))).stamp ≠ k + 1)
      (hn : ((r.slot (k % (2 * half))).idx ≠ none ∧ (r.slot (k % (2 * half))).safe = false) ∨
        k < (r.slot (k % (2 * half))).stamp) :
      Move half t r f g p r f (update g k .missed) (.deqTail k)
  | marked (k : ℕ) (new : Entry) :
      Move half t r f g (.deqCas k (r.slot (k % (2 * half))) new)
        (r.write (k % (2 * half)) new) f (update g k .missed) (.deqTail k)
  | take (k : ℕ) (e : Entry) :
      Move half t r f g (.deqOr k e)
        (r.write (k % (2 * half)) { r.slot (k % (2 * half)) with idx := none }) f
        (update g k .taken) (.idle (.value (e.idx.getD (2 * half - 1))))
  | behind (k : ℕ) (hk : r.tail ≤ k + 1) :
      Move half t r f g (.deqTail k) r f g (.catchCas r.tail (k + 1))
  | ahead (k : ℕ) : Move half t r f g (.deqTail k) r f g .deqLoop
  | catchUp (h : ℕ) :
      Move half t r f g (.catchCas r.tail h) { r with tail := h } f g .deqSub
  | catchMiss (k h : ℕ) : Move half t r f g (.catchCas k h) r f g .catchHead
  | catchHead : Move half t r f g .catchHead r f g (.catchTail r.head)
  | caught (h : ℕ) : Move half t r f g (.catchTail h) r f g .deqSub
  | catchAgain (h : ℕ) (hh : r.tail < h) :
      Move half t r f g (.catchTail h) r f g (.catchCas r.tail h)
  | lastSub : Move half t r f g .deqSub { r with thr := r.thr - 1 } f g (.idle .empty)
  | loopEnd (hthr : r.thr ≤ 0) :
      Move half t r f g .deqLoop { r with thr := r.thr - 1 } f g (.idle .empty)
  | loopOn (hthr : 0 < r.thr) :
      Move half t r f g .deqLoop { r with thr := r.thr - 1 } f g .deqAdd

section
variable [DecidableEq T] {half : ℕ} {t : T} {r r' : Ring} {f : ℕ → Put T} {g : ℕ → Get T}
  {p p' : Pc ℕ Entry} {x k : ℕ}

theorem move_enqTest (hp : LooksEnq p x k) :
    Move half t r f g p r
      (noteEnq id t p (enqTest x k (r.slot (k % (2 * half)))) f)
      (noteDeq id t p (enqTest x k (r.slot (k % (2 * half)))) g)
      (enqTest x k (r.slot (k % (2 * half)))) := by
  unfold enqTest
  split
  next h =>
    split
    next hs =>
      have hm : Move half t r f g p r f g _ := .useSafe hp h.1 h.2 hs
      rcases hp with rfl | ⟨e, rfl⟩ <;> exact hm
    next =>
      have hm : Move half t r f g p r f g _ := .useUnsafe hp h.1 h.2
      rcases hp with rfl | ⟨e, rfl⟩ <;> exact hm
  next h =>
    have hm := Move.lose (t := t) (f := f) (g := g) hp h
    rcases hp with rfl | ⟨e, rfl⟩ <;> exact hm

theorem move_deqTest (hp : LooksDeq p k) :
    Move half t r f g p r
      (noteEnq id t p (deqTest k (r.slot (k % (2 * half)))) f)
      (noteDeq id t p (deqTest k (r.slot (k % (2 * half)))) g)
      (deqTest k (r.slot (k % (2 * half)))) := by
  have keep : ∀ {q : Pc ℕ Entry}, Move half t r f g p r f g q → (∀ i, q ≠ .deqTail i) →
      Move half t r f g p r (noteEnq id t p q f) (noteDeq id t p q g) q := by
    intro q hm hq
    rcases hp with rfl | ⟨e, new, rfl⟩ <;> cases q <;>
      first | exact hm | exact absurd rfl (hq _)
  have pass : ((r.slot (k % (2 * half))).stamp ≠ k + 1) →
      (((r.slot (k % (2 * half))).idx ≠ none ∧ (r.slot (k % (2 * half))).safe = false) ∨
        k < (r.slot (k % (2 * half))).stamp) →
      Move half t r f g p r (noteEnq id t p (.deqTail k) f) (noteDeq id t p (.deqTail k) g)
        (.deqTail k) := by
    intro hs hn
    have hm := Move.pass (t := t) (f := f) (g := g) hp hs hn
    rcases hp with rfl | ⟨e, new, rfl⟩ <;> exact hm
  unfold deqTest
  split
  next h => exact keep (.found hp h) (by simp)
  next h =>
    split
    next hi =>
      split
      next hs => exact pass h (.inl ⟨hi, hs⟩)
      next =>
        split
        next hk => exact keep (.mark hp hk (.inl ⟨hi, rfl⟩)) (by simp)
        next hk => exact pass h (.inr (by omega))
    next hi =>
      split
      next hk => exact keep (.mark hp hk (.inr ⟨not_not.mp hi, rfl⟩)) (by simp)
      next hk => exact pass h (.inr (by omega))

/-- **Every operation is one of the moves.** -/
theorem go_move {fail : Bool} (h : go half r fail p = some (r', p')) :
    Move half t r f g p r' (noteEnq id t p p' f) (noteDeq id t p p' g) p' := by
  cases p with
  | idle ret => simp [go] at h
  | enq x =>
    obtain ⟨rfl, rfl⟩ : _ = r' ∧ _ = p' := by simpa [go] using h
    exact .issue x
  | enqLoad x k =>
    obtain ⟨rfl, rfl⟩ : _ = r' ∧ _ = p' := by simpa [go] using h
    exact move_enqTest (.inl rfl)
  | enqHead x k e =>
    obtain ⟨rfl, rfl⟩ : _ = r' ∧ _ = p' := by simpa [go] using h
    split
    next hk => exact .headOk x k e hk
    next hk => exact .headLate x k e (by omega)
  | enqCas x k e =>
    simp only [go] at h
    split at h
    next hc =>
      obtain ⟨rfl, rfl⟩ : _ = r' ∧ _ = p' := by simpa using h
      obtain ⟨-, rfl⟩ := hc
      exact .fill x k
    next =>
      obtain ⟨rfl, rfl⟩ : _ = r' ∧ _ = p' := by simpa using h
      exact move_enqTest (.inr ⟨e, rfl⟩)
  | enqThr k =>
    obtain ⟨rfl, rfl⟩ : _ = r' ∧ _ = p' := by simpa [go] using h
    split
    next hk => exact .thrOk k hk
    next => exact .thrLow k
  | enqStore k =>
    obtain ⟨rfl, rfl⟩ : _ = r' ∧ _ = p' := by simpa [go] using h
    exact .thrSet k
  | deq =>
    obtain ⟨rfl, rfl⟩ : _ = r' ∧ _ = p' := by simpa [go] using h
    split
    next hk => exact .giveUp hk
    next hk => exact .enter (not_lt.mp hk)
  | deqAdd =>
    obtain ⟨rfl, rfl⟩ : _ = r' ∧ _ = p' := by simpa [go] using h
    exact .claim
  | deqLoad k =>
    obtain ⟨rfl, rfl⟩ : _ = r' ∧ _ = p' := by simpa [go] using h
    exact move_deqTest (.inl rfl)
  | deqOr k e =>
    obtain ⟨rfl, rfl⟩ : _ = r' ∧ _ = p' := by simpa [go] using h
    exact .take k e
  | deqCas k e new =>
    simp only [go] at h
    split at h
    next hc =>
      obtain ⟨rfl, rfl⟩ : _ = r' ∧ _ = p' := by simpa using h
      obtain ⟨-, rfl⟩ := hc
      exact .marked k new
    next =>
      obtain ⟨rfl, rfl⟩ : _ = r' ∧ _ = p' := by simpa using h
      exact move_deqTest (.inr ⟨e, new, rfl⟩)
  | deqTail k =>
    obtain ⟨rfl, rfl⟩ : _ = r' ∧ _ = p' := by simpa [go] using h
    split
    next hk => exact .behind k hk
    next => exact .ahead k
  | catchCas k h' =>
    simp only [go] at h
    split at h
    next hc =>
      obtain ⟨rfl, rfl⟩ : _ = r' ∧ _ = p' := by simpa using h
      obtain ⟨-, rfl⟩ := hc
      exact .catchUp h'
    next =>
      obtain ⟨rfl, rfl⟩ : _ = r' ∧ _ = p' := by simpa using h
      exact .catchMiss k h'
  | catchHead =>
    obtain ⟨rfl, rfl⟩ : _ = r' ∧ _ = p' := by simpa [go] using h
    exact .catchHead
  | catchTail h' =>
    obtain ⟨rfl, rfl⟩ : _ = r' ∧ _ = p' := by simpa [go] using h
    split
    next => exact .caught h'
    next hk => exact .catchAgain h' (by omega)
  | deqSub =>
    obtain ⟨rfl, rfl⟩ : _ = r' ∧ _ = p' := by simpa [go] using h
    exact .lastSub
  | deqLoop =>
    obtain ⟨rfl, rfl⟩ : _ = r' ∧ _ = p' := by simpa [go] using h
    split
    next hk => exact .loopEnd hk
    next hk => exact .loopOn (not_le.mp hk)

end

end Scq
