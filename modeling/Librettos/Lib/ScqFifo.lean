/-
# `Lib.ScqFifo` — the scalable circular queue with one caller

Without competition the ring is a first-in first-out queue: the elements are at
the positions from `head` to `tail`, a call ends after a few operations, and a
dequeue reports emptiness exactly when there is no element.

**Proved here.** `Fifo.enqueue`, `Fifo.dequeue` and `Fifo.dequeue_empty`: what
one call does to a ring that holds a given queue.
-/
import Librettos.Lib.ScqInv

namespace Scq

open Function (update update_of_ne update_self)

/-- A call alone with the ring, from a point to its return, in fewer than `n`
operations; no compare-exchange fails and the counters stay below `b`. -/
inductive Runs (half b : ℕ) : ℕ → Ring → Pc ℕ Entry → Ring → Ret → Prop
  | done {n : ℕ} {r : Ring} {v : Ret} : Runs half b (n + 1) r (.idle v) r v
  | step {n : ℕ} {r r₁ r' : Ring} {p p₁ : Pc ℕ Entry} {v : Ret} (hb : Below b r p)
      (hgo : go half r false p = some (r₁, p₁)) (h : Runs half b n r₁ p₁ r' v) :
      Runs half b (n + 1) r p r' v

/-- The ring holds the queue `q`. -/
structure Fifo (half : ℕ) (r : Ring) (q : List ℕ) : Prop where
  len : q.length ≤ half
  tail : r.tail = r.head + q.length
  elem : ∀ i x, q[i]? = some x → (r.slot ((r.head + i) % (2 * half))).stamp = r.head + i + 1 ∧
    (r.slot ((r.head + i) % (2 * half))).idx = some x
  free : ∀ j < 2 * half, (∀ i < q.length, (r.head + i) % (2 * half) ≠ j) → (r.slot j).idx = none
  old : ∀ j < 2 * half, (r.slot j).stamp ≤ r.tail
  thr : -1 ≤ r.thr ∧ r.thr ≤ top half
  full : q ≠ [] → r.thr = top half

section
variable {half b n : ℕ} {r : Ring} {q : List ℕ} {x k : ℕ}

theorem mod_ne_of_lt {n a i j : ℕ} (hij : i < j) (hj : j < n) : (a + i) % n ≠ (a + j) % n := by
  intro h
  have := add_le_of_mod_eq h (by omega)
  omega

theorem below_of {p : Pc ℕ Entry} (hb : r.head ≤ b ∧ r.tail ≤ b ∧ -(b : ℤ) ≤ r.thr)
    (h1 : ∀ x, p ≠ .enq x) (h2 : p ≠ .deqAdd) : Below b r p :=
  ⟨hb.1, hb.2.1, hb.2.2, fun x hx => absurd hx (h1 x), fun hp => absurd hp h2⟩

theorem runs_enqThr (hb : r.head ≤ b ∧ r.tail ≤ b ∧ -(b : ℤ) ≤ r.thr) :
    Runs half b (n + 3) r (.enqThr k) { r with thr := top half } .enqueued := by
  by_cases hthr : r.thr = top half
  · have hgo : go half r false (.enqThr k) = some ({ r with thr := top half }, .idle .enqueued) := by
      simp [go, ← hthr]
    exact .step (below_of hb (by simp) (by simp)) hgo .done
  · have hgo : go half r false (.enqThr k) = some (r, .enqStore k) := by simp [go, hthr]
    have hb' : Below b r (.enqStore k) := below_of hb (by simp) (by simp)
    exact .step (below_of hb (by simp) (by simp)) hgo (.step hb' rfl .done)

theorem runs_enqLoad (hb : r.head ≤ b ∧ r.tail ≤ b ∧ -(b : ℤ) ≤ r.thr) (hh : r.head ≤ k)
    (hs : (r.slot (k % (2 * half))).stamp ≤ k) (hi : (r.slot (k % (2 * half))).idx = none) :
    Runs half b (n + 6) r (.enqLoad x k)
      { r.write (k % (2 * half)) ⟨k + 1, true, some x⟩ with thr := top half } .enqueued := by
  have hcas : ∀ m, Runs half b (m + 4) r (.enqCas x k (r.slot (k % (2 * half))))
      { r.write (k % (2 * half)) ⟨k + 1, true, some x⟩ with thr := top half } .enqueued := by
    intro m
    have hgo : go half r false (.enqCas x k (r.slot (k % (2 * half))))
        = some (r.write (k % (2 * half)) ⟨k + 1, true, some x⟩, .enqThr k) := by simp [go]
    exact .step (below_of hb (by simp) (by simp)) hgo (runs_enqThr hb)
  cases hsafe : (r.slot (k % (2 * half))).safe with
  | true =>
    have hgo : go half r false (.enqLoad x k)
        = some (r, .enqCas x k (r.slot (k % (2 * half)))) := by
      simp [go, enqTest, hs, hi, hsafe]
    exact .step (below_of hb (by simp) (by simp)) hgo (hcas (n + 1))
  | false =>
    have hgo : go half r false (.enqLoad x k)
        = some (r, .enqHead x k (r.slot (k % (2 * half)))) := by
      simp [go, enqTest, hs, hi, hsafe]
    have hgo' : go half r false (.enqHead x k (r.slot (k % (2 * half))))
        = some (r, .enqCas x k (r.slot (k % (2 * half)))) := by simp [go, hh]
    refine .step (below_of hb (by simp) (by simp)) hgo ?_
    exact .step (below_of hb (by simp) (by simp)) hgo' (hcas n)

theorem Fifo.push (h : Fifo half r q) (hq : q.length < half) (x : ℕ) :
    Fifo half ⟨r.head, r.tail + 1, top half,
      update r.slot (r.tail % (2 * half)) ⟨r.tail + 1, true, some x⟩⟩ (q ++ [x]) := by
  have hne : ∀ i < q.length, (r.head + i) % (2 * half) ≠ r.tail % (2 * half) := by
    intro i hi
    rw [h.tail]
    exact mod_ne_of_lt hi (by omega)
  have hlen : (q ++ [x]).length = q.length + 1 := by simp
  constructor
  case len => omega
  case tail =>
    show r.tail + 1 = r.head + (q ++ [x]).length
    have := h.tail
    omega
  case elem =>
    intro i y hi
    simp only
    rcases lt_or_ge i q.length with hlt | hge
    · rw [List.getElem?_append_left hlt] at hi
      rw [update_of_ne (hne i hlt)]
      exact h.elem i y hi
    · obtain ⟨rfl, rfl⟩ : i = q.length ∧ x = y := by
        rw [List.getElem?_append_right hge] at hi
        rcases hd : i - q.length with _ | d
        · rw [hd] at hi
          exact ⟨by omega, Option.some.inj hi⟩
        · rw [hd] at hi
          simp at hi
      rw [← h.tail, update_self]
      exact ⟨rfl, rfl⟩
  case free =>
    intro j hj hno
    have hjt : j ≠ r.tail % (2 * half) := fun hc =>
      hno q.length (by omega) (by rw [hc, h.tail])
    simp only
    rw [update_of_ne hjt]
    exact h.free j hj fun i hi => hno i (by omega)
  case old =>
    intro j hj
    simp only
    rcases eq_or_ne j (r.tail % (2 * half)) with rfl | hjt
    · rw [update_self]
    · rw [update_of_ne hjt]
      exact (h.old j hj).trans (Nat.le_succ _)
  case thr =>
    refine ⟨?_, le_rfl⟩
    show -1 ≤ top half
    unfold top
    omega
  case full => exact fun _ => rfl

theorem Fifo.pop (h : Fifo half r (x :: q)) :
    Fifo half ⟨r.head + 1, r.tail, r.thr, update r.slot (r.head % (2 * half))
      { r.slot (r.head % (2 * half)) with idx := none }⟩ q := by
  have hlen := h.len
  have hlen' : (x :: q).length = q.length + 1 := rfl
  have hne : ∀ i < q.length, (r.head + (i + 1)) % (2 * half) ≠ r.head % (2 * half) :=
    fun i hi hc => mod_ne_of_lt (n := 2 * half) (a := r.head) (i := 0) (j := i + 1)
      (by omega) (by omega) hc.symm
  constructor
  case len => omega
  case tail =>
    show r.tail = r.head + 1 + q.length
    have := h.tail
    omega
  case elem =>
    intro i y hy
    have hiq : i < q.length := (List.getElem?_eq_some_iff.mp hy).1
    simp only
    rw [show r.head + 1 + i = r.head + (i + 1) by omega, update_of_ne (hne i hiq)]
    exact h.elem (i + 1) y hy
  case free =>
    intro j hj hno
    simp only
    rcases eq_or_ne j (r.head % (2 * half)) with rfl | hjh
    · rw [update_self]
    · rw [update_of_ne hjh]
      refine h.free j hj fun i hi' => ?_
      rcases i with _ | i
      · exact fun hc => hjh hc.symm
      · have := hno i (by omega)
        simp only at this
        rwa [show r.head + (i + 1) = r.head + 1 + i by omega]
  case old =>
    intro j hj
    simp only
    rcases eq_or_ne j (r.head % (2 * half)) with rfl | hjh
    · rw [update_self]
      exact h.old _ hj
    · rw [update_of_ne hjh]
      exact h.old j hj
  case thr => exact h.thr
  case full => exact fun _ => h.full (by simp)

theorem Fifo.skip (h : Fifo half r []) (hthr : 0 ≤ r.thr) {safe : Bool} :
    Fifo half ⟨r.head + 1, r.head + 1, r.thr - 1, update r.slot (r.head % (2 * half))
      ⟨r.head + 1, safe, none⟩⟩ [] := by
  have ht : r.tail = r.head := h.tail
  constructor
  case len => exact Nat.zero_le _
  case tail => rfl
  case elem => exact fun i y hy => absurd hy (by simp)
  case free =>
    intro j hj _
    simp only
    rcases eq_or_ne j (r.head % (2 * half)) with rfl | hjh
    · rw [update_self]
    · rw [update_of_ne hjh]
      exact h.free j hj (by simp)
  case old =>
    intro j hj
    simp only
    rcases eq_or_ne j (r.head % (2 * half)) with rfl | hjh
    · rw [update_self]
    · rw [update_of_ne hjh]
      have := h.old j hj
      omega
  case thr =>
    have := h.thr
    constructor
    · show -1 ≤ r.thr - 1
      omega
    · show r.thr - 1 ≤ top half
      omega
  case full => exact fun hc => absurd rfl hc

/-- **An enqueue appends its element**, if there is room. -/
theorem Fifo.enqueue (h : Fifo half r q) (hq : q.length < half) (hh : r.head ≤ b)
    (ht : r.tail < b) (x : ℕ) :
    ∃ r', Runs half b 8 r (.enq x) r' .enqueued ∧ Fifo half r' (q ++ [x]) := by
  have hjlt : r.tail % (2 * half) < 2 * half := Nat.mod_lt _ (by omega)
  have hthr : -(b : ℤ) ≤ r.thr := by have := h.thr.1; omega
  have hfree : (r.slot (r.tail % (2 * half))).idx = none := by
    refine h.free _ hjlt fun i hi => ?_
    rw [h.tail]
    exact mod_ne_of_lt hi (by omega)
  have hrun : Runs half b 7 { r with tail := r.tail + 1 } (.enqLoad x r.tail) _ .enqueued :=
    runs_enqLoad ⟨hh, ht, hthr⟩ (by show r.head ≤ r.tail; have := h.tail; omega)
      (h.old _ hjlt) hfree
  exact ⟨_, .step ⟨hh, ht.le, hthr, fun _ _ => ht, by simp⟩ rfl hrun, h.push hq x⟩

/-- **A dequeue returns the oldest element.** -/
theorem Fifo.dequeue (h : Fifo half r (x :: q)) (hh : r.head < b) (ht : r.tail ≤ b) :
    ∃ r', Runs half b 8 r .deq r' (.value x) ∧ Fifo half r' q := by
  have hlen : q.length + 1 ≤ half := h.len
  have hb : -(b : ℤ) ≤ r.thr := by have := h.thr.1; omega
  have hpos : ¬ r.thr < 0 := by rw [h.full (by simp)]; unfold top; omega
  obtain ⟨hs, hi⟩ := h.elem 0 x rfl
  rw [Nat.add_zero] at hs hi
  have hgo₁ : go half r false .deq = some (r, .deqAdd) := by simp [go, hpos]
  have hgo₂ : go half { r with head := r.head + 1 } false (.deqLoad r.head)
      = some ({ r with head := r.head + 1 }, .deqOr r.head (r.slot (r.head % (2 * half)))) := by
    simp [go, deqTest, hs]
  have hgo₃ : go half { r with head := r.head + 1 } false
      (.deqOr r.head (r.slot (r.head % (2 * half)))) = some (
        Ring.write { r with head := r.head + 1 } (r.head % (2 * half))
          { r.slot (r.head % (2 * half)) with idx := none }, .idle (.value x)) := by
    simp [go, hi]
  exact ⟨_, .step (below_of ⟨hh.le, ht, hb⟩ (by simp) (by simp)) hgo₁
    (.step ⟨hh.le, ht, hb, by simp, fun _ => hh⟩ rfl
      (.step (below_of ⟨hh, ht, hb⟩ (by simp) (by simp)) hgo₂
        (.step (below_of ⟨hh, ht, hb⟩ (by simp) (by simp)) hgo₃ .done))), h.pop⟩

/-- **A dequeue of an empty queue says so.** -/
theorem Fifo.dequeue_empty (h : Fifo half r []) (hhalf : 0 < half) (hh : r.head < b) :
    ∃ r', Runs half b 8 r .deq r' .empty ∧ Fifo half r' [] := by
  have ht : r.tail = r.head := h.tail
  have hb : -(b : ℤ) ≤ r.thr := by have := h.thr.1; omega
  have htb : r.tail ≤ b := by omega
  by_cases hneg : r.thr < 0
  · have hgo : go half r false .deq = some (r, .idle .empty) := by simp [go, hneg]
    exact ⟨r, .step (below_of ⟨hh.le, htb, hb⟩ (by simp) (by simp)) hgo .done, h⟩
  · have hjlt : r.head % (2 * half) < 2 * half := Nat.mod_lt _ (by omega)
    have hs : (r.slot (r.head % (2 * half))).stamp ≤ r.head := by
      have := h.old _ hjlt
      omega
    have hi : (r.slot (r.head % (2 * half))).idx = none := h.free _ hjlt (by simp)
    set e := r.slot (r.head % (2 * half)) with he
    set r₁ : Ring := { r with head := r.head + 1 } with hr₁
    set r₂ : Ring := r₁.write (r.head % (2 * half)) ⟨r.head + 1, e.safe, none⟩ with hr₂
    have hgo₁ : go half r false .deq = some (r, .deqAdd) := by simp [go, hneg]
    have hgo₂ : go half r₁ false (.deqLoad r.head)
        = some (r₁, .deqCas r.head e ⟨r.head + 1, e.safe, none⟩) := by
      have : e.stamp ≠ r.head + 1 := by omega
      simp [go, deqTest, hr₁, ← he, this, hi, hs]
    have hgo₃ : go half r₁ false (.deqCas r.head e ⟨r.head + 1, e.safe, none⟩)
        = some (r₂, .deqTail r.head) := by simp [go, hr₁, hr₂, he]
    have hgo₄ : go half r₂ false (.deqTail r.head)
        = some (r₂, .catchCas r.head (r.head + 1)) := by
      simp [go, hr₂, hr₁, Ring.write, ht]
    have hgo₅ : go half r₂ false (.catchCas r.head (r.head + 1))
        = some ({ r₂ with tail := r.head + 1 }, .deqSub) := by
      simp [go, hr₂, hr₁, Ring.write, ht]
    exact ⟨_, .step (below_of ⟨hh.le, htb, hb⟩ (by simp) (by simp)) hgo₁
      (.step ⟨hh.le, htb, hb, by simp, fun _ => hh⟩ rfl
      (.step (below_of ⟨hh, htb, hb⟩ (by simp) (by simp)) hgo₂
      (.step (below_of ⟨hh, htb, hb⟩ (by simp) (by simp)) hgo₃
      (.step (below_of ⟨hh, htb, hb⟩ (by simp) (by simp)) hgo₄
      (.step (below_of ⟨hh, htb, hb⟩ (by simp) (by simp)) hgo₅
      (.step (below_of ⟨hh, hh, hb⟩ (by simp) (by simp)) rfl .done)))))), h.skip (not_lt.mp hneg)⟩

theorem fifo_start {m : ℕ} {f : ℕ → ℕ} {thr : ℤ} (hm : m ≤ half)
    (hthr : -1 ≤ thr ∧ thr ≤ top half) (hfull : 0 < m → thr = top half) {T : Type} :
    Fifo half (start m f thr : Sys Ring ℕ Entry T).ring ((List.range m).map f) where
  len := by simpa using hm
  tail := by simp [start, Sys.observe]
  elem := by
    intro i x hi
    obtain ⟨hlt, rfl⟩ : i < m ∧ f i = x := by
      obtain ⟨hlen, hx⟩ := List.getElem?_eq_some_iff.mp hi
      exact ⟨by simpa using hlen, by simpa using hx⟩
    have hmod : i % (2 * half) = i := Nat.mod_eq_of_lt (by omega)
    simp [start, Sys.observe, hmod, hlt]
  free := by
    intro j hj hno
    have hjm : ¬ j < m := fun hlt =>
      hno j (by simpa using hlt) (by simp [start, Sys.observe, Nat.mod_eq_of_lt hj])
    simp [start, Sys.observe, hjm]
  old := by
    intro j hj
    by_cases hjm : j < m
    · simp [start, Sys.observe, hjm]
    · simp [start, Sys.observe, hjm]
  thr := hthr
  full := fun hne => hfull (Nat.pos_of_ne_zero fun h0 => hne (by simp [h0]))

end

end Scq
