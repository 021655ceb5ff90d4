/-
# `Lib.ScqInv` — why the scalable circular queue is safe

The invariant of `Lib.Scq` in five layers, each preserved by every move given
the ones before it.

* `Tickets`: every position between `head` and `tail` has been handed out, and
  to one party.
* `Slots`: an element that was stored and not taken is in its slot; a slot
  whose position was missed can not be filled for that position any more.
* `Waste`: the positions that enqueuers lost ahead of `head` are fewer than
  `half`, so `tail` stays less than a cycle ahead of `head`.
* `Budget`: while a completed element waits, the threshold covers the positions
  before it and the dequeuers on their way to decrement it.
* `Seen`: a dequeuer that may report emptiness has seen everything taken.

**Proved here.** `inv_step` (a step that does not overfill the ring keeps the
invariant), `take_value` (a returned element was stored at the position the
dequeuer holds), `empty_seen` (an empty answer is justified by an instant of the
call).
-/
import Librettos.Lib.Scq

namespace Scq

open Finset Option
open Function (update update_of_ne update_self)

variable {C E T : Type}

/-! ## Who holds which position -/

section Holds
variable {α β : Type} {hold : α → Option T} {tick : β → Option ℕ} {f : ℕ → α} {pc : T → β}

/-- The history of the positions and the points of the parties agree on who
holds what. -/
def Holds (hold : α → Option T) (tick : β → Option ℕ) (f : ℕ → α) (pc : T → β) : Prop :=
  ∀ k u, hold (f k) = some u ↔ tick (pc u) = some k

variable [DecidableEq T] {t : T} {k : ℕ} {p : β} {v : α}
variable {k x : ℕ}

section
variable (h : Holds hold tick f pc)
include h

theorem Holds.keep (hp : tick p = tick (pc t)) : Holds hold tick f (update pc t p) := by
  intro k u
  rcases eq_or_ne u t with rfl | hu
  · rw [update_self, hp]
    exact h k u
  · rw [update_of_ne hu]
    exact h k u

omit [DecidableEq T] in
theorem Holds.relabel (hv : hold v = hold (f k)) : Holds hold tick (update f k v) pc := by
  intro i u
  rcases eq_or_ne i k with rfl | hi
  · rw [update_self, hv]
    exact h i u
  · rw [update_of_ne hi]
    exact h i u

theorem Holds.issue (hk : hold (f k) = none)
    (ht : tick (pc t) = none) (hv : hold v = some t) (hp : tick p = some k) :
    Holds hold tick (update f k v) (update pc t p) := by
  intro i u
  rcases eq_or_ne i k with rfl | hi <;> rcases eq_or_ne u t with rfl | hu
  · simp [hv, hp]
  · have hn : tick (pc u) ≠ some i := fun hc => by
      have := (h i u).mpr hc
      simp [hk] at this
    rw [update_self, update_of_ne hu, hv]
    exact iff_of_false (fun hc => hu (some.inj hc).symm) hn
  · have hn : hold (f i) ≠ some u := fun hc => by
      have := (h i u).mp hc
      simp [ht] at this
    rw [update_of_ne hi, update_self, hp]
    exact iff_of_false hn (fun hc => hi (some.inj hc).symm)
  · rw [update_of_ne hi, update_of_ne hu]
    exact h i u

theorem Holds.release (ht : tick (pc t) = some k) (hv : hold v = none) (hp : tick p = none) :
    Holds hold tick (update f k v) (update pc t p) := by
  have hk : hold (f k) = some t := (h k t).mpr ht
  intro i u
  rcases eq_or_ne i k with rfl | hi <;> rcases eq_or_ne u t with rfl | hu
  · simp [hv, hp]
  · have hn : tick (pc u) ≠ some i := fun hc =>
      hu (some.inj (((h i u).mpr hc).symm.trans hk))
    rw [update_self, update_of_ne hu, hv]
    exact iff_of_false (by simp) hn
  · have hn : hold (f i) ≠ some u := fun hc =>
      hi (some.inj (((h i u).mp hc).symm.trans ht))
    rw [update_of_ne hi, update_self, hp]
    exact iff_of_false hn (by simp)
  · rw [update_of_ne hi, update_of_ne hu]
    exact h i u

end

end Holds

/-! ## Small facts about the history -/

@[simp] theorem Put.holder_complete (v : Put T) : v.complete.holder = v.holder := by
  cases v <;> rfl

@[simp] theorem Put.val_complete (v : Put T) : v.complete.val = v.val := by
  cases v <;> rfl

theorem Put.complete_eq_unissued {v : Put T} : v.complete = .unissued ↔ v = .unissued := by
  cases v <;> simp [Put.complete]

theorem Put.holder_eq_some {v : Put T} {t : T} : v.holder = some t ↔ v = .pending t := by
  cases v <;> simp [Put.holder]

theorem Get.holder_eq_some {v : Get T} {t : T} : v.holder = some t ↔ v = .pending t := by
  cases v <;> simp [Get.holder]

theorem Put.val_eq_some {v : Put T} : v.val = some x ↔ ∃ c, v = .filled x c := by
  cases v <;> simp [Put.val, eq_comm]

theorem LooksEnq.put {p : Pc ℕ Entry} (h : LooksEnq p x k) : p.put? = some k := by
  rcases h with rfl | ⟨e, rfl⟩ <;> rfl

theorem LooksEnq.get {p : Pc ℕ Entry} (h : LooksEnq p x k) : p.get? = none := by
  rcases h with rfl | ⟨e, rfl⟩ <;> rfl

theorem LooksDeq.put {p : Pc ℕ Entry} (h : LooksDeq p k) : p.put? = none := by
  rcases h with rfl | ⟨e, new, rfl⟩ <;> rfl

theorem LooksDeq.get {p : Pc ℕ Entry} (h : LooksDeq p k) : p.get? = some k := by
  rcases h with rfl | ⟨e, new, rfl⟩ <;> rfl

/-! ## Tickets -/

/-- What a party's point says about the counters and about the position it
filled. -/
def PointOk (head : ℕ) (f : ℕ → Put T) : Pc ℕ Entry → Prop
  | .enqThr k | .enqStore k => (f k).val ≠ none
  | .deqTail k => k < head
  | .catchCas k h => k ≤ h ∧ h ≤ head
  | .catchTail h => h ≤ head
  | _ => True

structure Tickets (r : Ring) (pc : T → Pc ℕ Entry) (f : ℕ → Put T) (g : ℕ → Get T) : Prop where
  puts : Holds Put.holder Pc.put? f pc
  gets : Holds Get.holder Pc.get? g pc
  put_lt : ∀ k, f k ≠ .unissued → k < r.tail
  issued : ∀ k, r.head ≤ k → k < r.tail → f k ≠ .unissued
  get_iff : ∀ k, g k ≠ .unissued ↔ k < r.head
  point : ∀ u, PointOk r.head f (pc u)

section
variable {half : ℕ} {t : T} {r r' : Ring} {pc : T → Pc ℕ Entry}
  {f f' : ℕ → Put T} {g g' : ℕ → Get T} {p' : Pc ℕ Entry} {k : ℕ}

/-- A point stays in order when `head` grows and filled positions stay filled. -/
theorem PointOk.mono {h h' : ℕ} (hh : h ≤ h') (hf : ∀ k, (f k).val ≠ none → (f' k).val ≠ none)
    {p : Pc ℕ Entry} (hp : PointOk h f p) : PointOk h' f' p := by
  cases p with
  | enqThr k | enqStore k => exact hf k hp
  | deqTail k => exact Nat.lt_of_lt_of_le hp hh
  | catchCas k h => exact ⟨hp.1, hp.2.trans hh⟩
  | catchTail h => exact Nat.le_trans hp hh
  | _ => trivial

/-- Filling or losing a pending position unfills none. -/
theorem val_update_of_none {v : Put T} (hk : (f k).val = none) (i : ℕ)
    (hi : (f i).val ≠ none) : (update f k v i).val ≠ none := by
  rcases eq_or_ne i k with rfl | h
  · exact absurd hk hi
  · rwa [update_of_ne h]

theorem forall_update_of [DecidableEq T] {P : Pc ℕ Entry → Prop} (h : ∀ u, P (pc u)) (hp : P p') (u : T) :
    P (update pc t p' u) :=
  (Function.forall_update_iff pc fun _ q => P q).mpr ⟨hp, fun u _ => h u⟩ u

section
variable (h : Tickets r pc f g)
include h

theorem Tickets.pending_put (hk : (pc t).put? = some k) : f k = .pending t :=
  Put.holder_eq_some.mp ((h.puts k t).mpr hk)

theorem Tickets.pending_get (hk : (pc t).get? = some k) : g k = .pending t :=
  Get.holder_eq_some.mp ((h.gets k t).mpr hk)

theorem Tickets.tail_unissued : f r.tail = .unissued := by
  by_contra hc
  exact lt_irrefl _ (h.put_lt _ hc)

theorem Tickets.head_unissued : g r.head = .unissued := by
  by_contra hc
  exact lt_irrefl _ ((h.get_iff _).mp hc)

variable [DecidableEq T]

theorem Tickets.still (hr : r'.head = r.head ∧ r'.tail = r.tail)
    (hput : p'.put? = (pc t).put?) (hget : p'.get? = (pc t).get?)
    (hpoint : PointOk r.head f p') : Tickets r' (update pc t p') f g where
  puts := h.puts.keep hput
  gets := h.gets.keep hget
  put_lt k hk := hr.2 ▸ h.put_lt k hk
  issued k h1 h2 := h.issued k (hr.1 ▸ h1) (hr.2 ▸ h2)
  get_iff k := hr.1 ▸ h.get_iff k
  point := forall_update_of (fun u => hr.1 ▸ h.point u) (hr.1 ▸ hpoint)

theorem Tickets.settle_put {v : Put T}
    (hr : r'.head = r.head ∧ r'.tail = r.tail) (hk : (pc t).put? = some k) (hv : v.holder = none)
    (hvu : v ≠ .unissued)
    (hput : p'.put? = none) (hget : p'.get? = (pc t).get?)
    (hpoint : PointOk r.head (update f k v) p') : Tickets r' (update pc t p') (update f k v) g := by
  have hfk : f k = .pending t := h.pending_put hk
  have hne : ∀ i, update f k v i ≠ .unissued ↔ f i ≠ .unissued := by
    intro i
    rcases eq_or_ne i k with rfl | hi
    · simp [hvu, hfk]
    · rw [update_of_ne hi]
  constructor
  case puts => exact h.puts.release hk hv hput
  case gets => exact h.gets.keep hget
  case put_lt => exact fun i hi => hr.2 ▸ h.put_lt i ((hne i).mp hi)
  case issued => exact fun i h1 h2 => (hne i).mpr (h.issued i (hr.1 ▸ h1) (hr.2 ▸ h2))
  case get_iff => exact fun i => hr.1 ▸ h.get_iff i
  case point =>
    refine forall_update_of (fun u => ?_) (hr.1 ▸ hpoint)
    exact (h.point u).mono hr.1.ge (val_update_of_none (by rw [hfk]; rfl))

theorem Tickets.settle_done
    (hr : r'.head = r.head ∧ r'.tail = r.tail) (hput : p'.put? = (pc t).put?) (hget : p'.get? = (pc t).get?)
    (hpoint : PointOk r.head f p') : Tickets r' (update pc t p') (update f k (f k).complete) g := by
  have hs := h.still hr hput hget hpoint
  have hval : ∀ i, (update f k (f k).complete i).val = (f i).val := by
    intro i
    rcases eq_or_ne i k with rfl | hi
    · simp
    · rw [update_of_ne hi]
  have hne : ∀ i, update f k (f k).complete i = .unissued ↔ f i = .unissued := by
    intro i
    rcases eq_or_ne i k with rfl | hi
    · simp [Put.complete_eq_unissued]
    · rw [update_of_ne hi]
  exact { hs with
    puts := hs.puts.relabel (by simp)
    put_lt := fun i hi => hs.put_lt i (fun hc => hi ((hne i).mpr hc))
    issued := fun i h1 h2 hc => hs.issued i h1 h2 ((hne i).mp hc)
    point := fun u => (hs.point u).mono le_rfl fun i hi => by rwa [hval i] }

theorem Tickets.settle_get {v : Get T}
    (hr : r'.head = r.head ∧ r'.tail = r.tail) (hk : (pc t).get? = some k) (hv : v.holder = none)
    (hvu : v ≠ .unissued)
    (hput : p'.put? = (pc t).put?) (hget : p'.get? = none) (hpoint : PointOk r.head f p') :
    Tickets r' (update pc t p') f (update g k v) := by
  have hgk : g k = .pending t := h.pending_get hk
  constructor
  case puts => exact h.puts.keep hput
  case gets => exact h.gets.release hk hv hget
  case put_lt => exact fun i hi => hr.2 ▸ h.put_lt i hi
  case issued => exact fun i h1 h2 => h.issued i (hr.1 ▸ h1) (hr.2 ▸ h2)
  case point => exact forall_update_of (fun u => hr.1 ▸ h.point u) (hr.1 ▸ hpoint)
  case get_iff =>
    intro i
    rw [hr.1, ← h.get_iff i]
    rcases eq_or_ne i k with rfl | hi
    · simp [hvu, hgk]
    · rw [update_of_ne hi]

theorem Tickets.move (hm : Move half t r f g (pc t) r' f' g' p') :
    Tickets r' (update pc t p') f' g' := by
  generalize hp : pc t = p at hm
  have hpt : PointOk r.head f p := hp ▸ h.point t
  cases hm with
  | issue x =>
    have hfree := h.tail_unissued
    constructor
    case puts => exact h.puts.issue (by rw [hfree]; rfl) (by rw [hp]; rfl) rfl rfl
    case gets => exact h.gets.keep (by rw [hp]; rfl)
    case get_iff => exact h.get_iff
    case put_lt =>
      intro i hi
      rcases eq_or_ne i r.tail with rfl | hne
      · exact Nat.lt_succ_self _
      · rw [update_of_ne hne] at hi
        exact Nat.lt_succ_of_lt (h.put_lt i hi)
    case issued =>
      intro i h1 h2
      rcases eq_or_ne i r.tail with rfl | hne
      · simp
      · rw [update_of_ne hne]
        exact h.issued i h1 (lt_of_le_of_ne (Nat.lt_succ_iff.mp h2) hne)
    case point =>
      refine forall_update_of (fun u => ?_) trivial
      exact (h.point u).mono le_rfl (val_update_of_none (by rw [hfree]; rfl))
  | useSafe hl | useUnsafe hl | found hl | mark hl =>
    exact h.still ⟨rfl, rfl⟩ (by rw [hp, hl.put]; rfl) (by rw [hp, hl.get]; rfl) trivial
  | lose hl =>
    exact h.settle_put ⟨rfl, rfl⟩ (by rw [hp, hl.put]) rfl (by simp) rfl
      (by rw [hp, hl.get]; rfl) trivial
  | headLate x k e =>
    exact h.settle_put ⟨rfl, rfl⟩ (by rw [hp]; rfl) rfl (by simp) rfl (by rw [hp]; rfl) trivial
  | fill x k =>
    exact h.settle_put ⟨rfl, rfl⟩ (by rw [hp]; rfl) rfl (by simp) rfl (by rw [hp]; rfl)
      (by simp [PointOk, Put.val])
  | thrOk | thrSet => exact h.settle_done ⟨rfl, rfl⟩ (by rw [hp]; rfl) (by rw [hp]; rfl) trivial
  | thrLow k => exact h.still ⟨rfl, rfl⟩ (by rw [hp]; rfl) (by rw [hp]; rfl) hpt
  | claim =>
    have hfree := h.head_unissued
    constructor
    case puts => exact h.puts.keep (by rw [hp]; rfl)
    case gets => exact h.gets.issue (by rw [hfree]; rfl) (by rw [hp]; rfl) rfl rfl
    case put_lt => exact h.put_lt
    case issued => exact fun i h1 h2 => h.issued i (Nat.le_of_succ_le h1) h2
    case get_iff =>
      intro i
      show _ ↔ i < r.head + 1
      rcases eq_or_ne i r.head with rfl | hne
      · simp
      · rw [update_of_ne hne, h.get_iff i]
        omega
    case point =>
      exact forall_update_of (fun u => (h.point u).mono (Nat.le_succ _) fun _ => id) trivial
  | @pass _ k hl =>
    have hk : (pc t).get? = some k := by rw [hp, hl.get]
    have hlt : k < r.head := (h.get_iff k).mp (by rw [h.pending_get hk]; simp)
    exact h.settle_get ⟨rfl, rfl⟩ hk rfl (by simp) (by rw [hp, hl.put]; rfl) rfl hlt
  | marked k new =>
    have hk : (pc t).get? = some k := by rw [hp]; rfl
    have hlt : k < r.head := (h.get_iff k).mp (by rw [h.pending_get hk]; simp)
    exact h.settle_get ⟨rfl, rfl⟩ hk rfl (by simp) (by rw [hp]; rfl) rfl hlt
  | take k e =>
    exact h.settle_get ⟨rfl, rfl⟩ (by rw [hp]; rfl) rfl (by simp) (by rw [hp]; rfl) rfl trivial
  | behind k hk => exact h.still ⟨rfl, rfl⟩ (by rw [hp]; rfl) (by rw [hp]; rfl) ⟨hk, hpt⟩
  | catchUp i =>
    -- the positions that are skipped lie below `head`
    obtain ⟨hle, hhd⟩ : r.tail ≤ i ∧ i ≤ r.head := hpt
    have hs : Tickets r (update pc t .deqSub) f g :=
      h.still ⟨rfl, rfl⟩ (by rw [hp]; rfl) (by rw [hp]; rfl) trivial
    exact { hs with
      put_lt := fun k hk => (hs.put_lt k hk).trans_le hle
      issued := fun k h1 h2 => absurd (h1.trans_lt h2) (not_lt.mpr hhd) }
  | catchHead => exact h.still ⟨rfl, rfl⟩ (by rw [hp]; rfl) (by rw [hp]; rfl) le_rfl
  | catchAgain i hi =>
    exact h.still ⟨rfl, rfl⟩ (by rw [hp]; rfl) (by rw [hp]; rfl) ⟨hi.le, hpt⟩
  | _ => exact h.still ⟨rfl, rfl⟩ (by rw [hp]; rfl) (by rw [hp]; rfl) trivial

theorem Tickets.taken_stays (hm : Move half t r f g (pc t) r' f' g' p') (hk : g k = .taken) :
    g' k = .taken := by
  have keep : ∀ {i v}, g i ≠ .taken → update g i v k = .taken := fun {i v} hi => by
    have hki : k ≠ i := fun hc => hi (hc ▸ hk)
    rw [update_of_ne hki]
    exact hk
  generalize hp : pc t = p at hm
  cases hm with
  | claim =>
    refine keep ?_
    rw [h.head_unissued]
    simp
  | pass hl => exact keep (by rw [h.pending_get (by rw [hp]; exact hl.get)]; simp)
  | marked | take => exact keep (by rw [h.pending_get (by rw [hp]; rfl)]; simp)
  | _ => exact hk

theorem Tickets.filled_stays (hm : Move half t r f g (pc t) r' f' g' p') {x : ℕ}
    (hk : (f k).val = some x) : (f' k).val = some x := by
  have keep : ∀ {i v}, (f i).val = none → (update f i v k).val = some x := fun {i v} hi => by
    have hki : k ≠ i := fun hc => by
      rw [hc, hi] at hk
      cases hk
    rw [update_of_ne hki]
    exact hk
  have complete : ∀ {i}, (update f i (f i).complete k).val = some x := fun {i} => by
    rcases eq_or_ne k i with rfl | hki
    · rw [update_self, Put.val_complete]
      exact hk
    · rw [update_of_ne hki]
      exact hk
  have pending : ∀ {i}, (pc t).put? = some i → (f i).val = none := fun {i} hi => by
    rw [h.pending_put hi]
    rfl
  generalize hp : pc t = p at hm pending
  cases hm with
  | issue y =>
    refine keep ?_
    rw [h.tail_unissued]
    rfl
  | lose hl => exact keep (pending hl.put)
  | headLate | fill => exact keep (pending rfl)
  | thrOk | thrSet => exact complete
  | _ => exact hk

end

end

/-! ## Slots -/

/-- What the slots hold, in terms of the history. -/
structure Slots (n : ℕ) (slot : ℕ → Entry) (f : ℕ → Put T) (g : ℕ → Get T) : Prop where
  residue : ∀ j < n, ∀ k, (slot j).stamp = k + 1 → k % n = j
  /-- an element stored and not taken is in its slot -/
  held : ∀ k x, (f k).val = some x → g k ≠ .taken →
    (slot (k % n)).stamp = k + 1 ∧ (slot (k % n)).idx = some x
  stored : ∀ j < n, ∀ x, (slot j).idx = some x →
    ∃ k, (slot j).stamp = k + 1 ∧ (f k).val = some x ∧ g k ≠ .taken
  vacated : ∀ j < n, ∀ k, (slot j).idx = none → (slot j).stamp = k + 1 →
    g k = .taken ∨ g k = .missed
  taken : ∀ k, g k = .taken → (f k).val ≠ none
  missed : ∀ k, g k = .missed → (f k).val = none
  /-- a slot keeps the mark of the dequeuer that missed its position -/
  barred : ∀ k, g k = .missed → k < (slot (k % n)).stamp ∨ (slot (k % n)).safe = false

/-- An entry an enqueuer read is still there or was replaced for good. -/
def Stale (now e : Entry) : Prop := now = e ∨ e.stamp < now.stamp

/-- What a party's point says about the slot it works on. -/
def PointSlot (n : ℕ) (slot : ℕ → Entry) (g : ℕ → Get T) : Pc ℕ Entry → Prop
  | .enqHead _ k e => e.idx = none ∧ e.stamp ≤ k ∧ Stale (slot (k % n)) e
  | .enqCas _ k e => (e.idx = none ∧ e.stamp ≤ k ∧ Stale (slot (k % n)) e) ∧
      (slot (k % n) = e → ∀ i, i % n = k % n → k ≤ i → g i ≠ .missed)
  | .deqOr k e => (slot (k % n)).stamp = k + 1 ∧ (slot (k % n)).idx = e.idx ∧ e.idx ≠ none
  | .deqCas k e new => e.stamp ≤ k ∧ Marks k e new
  | _ => True

/-- How a slot may change: it moves on to a later position, or loses its safe bit
or its index.  An entry without an index that is replaced never comes back. -/
def Grows (e e' : Entry) : Prop := e.stamp < e'.stamp ∨ (e.stamp = e'.stamp ∧ e.idx ≠ none)

section
variable {n : ℕ} {slot : ℕ → Entry} {f f' : ℕ → Put T} {g g' : ℕ → Get T} {p : Pc ℕ Entry}
  {e e' now : Entry} {j k : ℕ}

theorem Stale.lt_of_grows (h : Stale now e) (hg : Grows now e') (he : e.idx = none) :
    e.stamp < e'.stamp := by
  rcases h with rfl | h
  · rcases hg with hg | ⟨-, hi⟩
    · exact hg
    · exact absurd he hi
  · rcases hg with hg | ⟨hs, -⟩
    · exact h.trans hg
    · exact hs ▸ h

theorem Marks.grows (h : Marks k e e') (hs : e.stamp ≤ k) : Grows e e' := by
  rcases h with ⟨hi, rfl⟩ | ⟨-, rfl⟩
  · exact .inr ⟨rfl, hi⟩
  · exact .inl (Nat.lt_succ_of_le hs)

theorem Slots.congr (h : Slots n slot f g) (hf : ∀ k, (f' k).val = (f k).val)
    (ht : ∀ k, g' k = .taken ↔ g k = .taken) (hm : ∀ k, g' k = .missed ↔ g k = .missed) :
    Slots n slot f' g' where
  residue := h.residue
  held k x hx hk := h.held k x (hf k ▸ hx) fun hc => hk ((ht k).mpr hc)
  stored j hj x hx := by
    obtain ⟨k, h1, h2, h3⟩ := h.stored j hj x hx
    exact ⟨k, h1, (hf k).trans h2, fun hc => h3 ((ht k).mp hc)⟩
  vacated j hj k h1 h2 := by
    rw [ht, hm]
    exact h.vacated j hj k h1 h2
  taken k hk := hf k ▸ h.taken k ((ht k).mp hk)
  missed k hk := hf k ▸ h.missed k ((hm k).mp hk)
  barred k hk := h.barred k ((hm k).mp hk)

theorem PointSlot.mono (hp : PointSlot n slot g p) (hm : ∀ k, g' k = .missed → g k = .missed) :
    PointSlot n slot g' p := by
  cases p with
  | enqHead | deqOr | deqCas => exact hp
  | enqCas x k e => exact ⟨hp.1, fun hs i hi hk hc => hp.2 hs i hi hk (hm i hc)⟩
  | _ => trivial

/-- A slot changes under a party that is not about to empty it. -/
theorem PointSlot.write (hp : PointSlot n slot g p) (hg : Grows (slot j) e')
    (hor : ∀ k e, p = .deqOr k e → k % n = j → e'.stamp = (slot j).stamp ∧ e'.idx = (slot j).idx)
    (hm : ∀ i, g' i = .missed → g i = .missed ∨ i % n = j) :
    PointSlot n (update slot j e') g' p := by
  -- the entry an enqueuer read from the slot that changes is gone for good
  have gone : ∀ {k : ℕ} {e : Entry}, e.idx = none → Stale (slot (k % n)) e →
      Stale (update slot j e' (k % n)) e ∧
        (k % n = j → update slot j e' (k % n) ≠ e) := by
    intro k e he hs
    rcases eq_or_ne (k % n) j with hj | hj
    · have hlt : e.stamp < e'.stamp := Stale.lt_of_grows (hj ▸ hs) hg he
      rw [hj, update_self]
      exact ⟨.inr hlt, fun _ hc => absurd hlt (hc ▸ lt_irrefl _)⟩
    · rw [update_of_ne hj]
      exact ⟨hs, fun hc => absurd hc hj⟩
  cases p with
  | enqHead x k e => exact ⟨hp.1, hp.2.1, (gone hp.1 hp.2.2).1⟩
  | enqCas x k e =>
    obtain ⟨⟨h1, h2, h3⟩, h4⟩ := hp
    refine ⟨⟨h1, h2, (gone h1 h3).1⟩, fun hs i hi hk hc => ?_⟩
    have hj : k % n ≠ j := fun hj => (gone h1 h3).2 hj hs
    rw [update_of_ne hj] at hs
    rcases hm i hc with hc | hc
    · exact h4 hs i hi hk hc
    · exact hj (hi.symm.trans hc)
  | deqOr k e =>
    obtain ⟨h1, h2, h3⟩ := hp
    show (update slot j e' (k % n)).stamp = k + 1 ∧ _
    rcases eq_or_ne (k % n) j with hj | hj
    · obtain ⟨hs, hi⟩ := hor k e rfl hj
      rw [hj] at h1 h2 ⊢
      rw [update_self]
      exact ⟨hs.trans h1, hi.trans h2, h3⟩
    · rw [update_of_ne hj]
      exact ⟨h1, h2, h3⟩
  | deqCas k e new => exact hp
  | _ => trivial

/-- A position is missed at a slot that no enqueuer there can still use. -/
theorem PointSlot.pass (hp : PointSlot n slot g p)
    (hk : (slot (k % n)).idx ≠ none ∨ k < (slot (k % n)).stamp) :
    PointSlot n slot (update g k .missed) p := by
  cases p with
  | enqHead | deqOr | deqCas => exact hp
  | enqCas x i e =>
    refine ⟨hp.1, fun hs l hl hil hc => ?_⟩
    rcases eq_or_ne l k with rfl | hne
    · rw [hl, hs] at hk
      rcases hk with hk | hk
      · exact hk hp.1.1
      · exact absurd hp.1.2.1 (by omega)
    · rw [update_of_ne hne] at hc
      exact hp.2 hs l hl hil hc
  | _ => trivial

section
variable (h : Slots n slot f g)
include h

/-- **Writing the slot of a position.**  What is left to show concerns the new entry and this position. -/
theorem Slots.write (hf : ∀ i, i ≠ k → f' i = f i) (hg : ∀ i, i ≠ k → g' i = g i)
    (hstamp : e'.stamp = k + 1 ∨ e'.stamp = (slot (k % n)).stamp)
    (hother : (slot (k % n)).idx ≠ none → (slot (k % n)).stamp ≠ k + 1 →
      e'.stamp = (slot (k % n)).stamp ∧ e'.idx = (slot (k % n)).idx)
    (hheld : ∀ x, (f' k).val = some x → g' k ≠ .taken → e'.stamp = k + 1 ∧ e'.idx = some x)
    (hstored : k % n < n → ∀ x, e'.idx = some x →
      ∃ i, e'.stamp = i + 1 ∧ (f' i).val = some x ∧ g' i ≠ .taken)
    (hvacated : k % n < n → e'.idx = none → ∀ i, e'.stamp = i + 1 → g' i = .taken ∨ g' i = .missed)
    (htaken : g' k = .taken → (f' k).val ≠ none) (hmissed : g' k = .missed → (f' k).val = none)
    (hbarred : ∀ i, i % n = k % n → g' i = .missed → i < e'.stamp ∨ e'.safe = false) :
    Slots n (update slot (k % n) e') f' g' where
  residue := by
    intro j hj i hi
    rcases eq_or_ne j (k % n) with rfl | hne
    · rw [update_self] at hi
      rcases hstamp with hs | hs
      · rw [← Nat.succ.inj (hs.symm.trans hi)]
      · exact h.residue _ hj i (hs.symm.trans hi)
    · rw [update_of_ne hne] at hi
      exact h.residue j hj i hi
  held := by
    intro i x hx hti
    rcases eq_or_ne i k with rfl | hik
    · rw [update_self]
      exact hheld x hx hti
    · rw [hf i hik] at hx
      rw [hg i hik] at hti
      obtain ⟨h1, h2⟩ := h.held i x hx hti
      rcases eq_or_ne (i % n) (k % n) with hj | hj
      · rw [hj] at h1 h2 ⊢
        obtain ⟨hs, hidx⟩ := hother (by simp [h2]) (by omega)
        rw [update_self, hs, hidx]
        exact ⟨h1, h2⟩
      · rw [update_of_ne hj]
        exact ⟨h1, h2⟩
  stored := by
    intro j hj x hx
    rcases eq_or_ne j (k % n) with rfl | hne
    · rw [update_self] at hx ⊢
      exact hstored hj x hx
    · rw [update_of_ne hne] at hx ⊢
      obtain ⟨i, h1, h2, h3⟩ := h.stored j hj x hx
      have hik : i ≠ k := fun hc => hne (hc ▸ (h.residue j hj i h1).symm)
      exact ⟨i, h1, by rwa [hf i hik], by rwa [hg i hik]⟩
  vacated := by
    intro j hj i h1 h2
    rcases eq_or_ne j (k % n) with rfl | hne
    · rw [update_self] at h1 h2
      exact hvacated hj h1 i h2
    · rw [update_of_ne hne] at h1 h2
      have hik : i ≠ k := fun hc => hne (hc ▸ (h.residue j hj i h2).symm)
      rw [hg i hik]
      exact h.vacated j hj i h1 h2
  taken := by
    intro i hti
    rcases eq_or_ne i k with rfl | hik
    · exact htaken hti
    · rw [hf i hik]
      exact h.taken i (hg i hik ▸ hti)
  missed := by
    intro i hmi
    rcases eq_or_ne i k with rfl | hik
    · exact hmissed hmi
    · rw [hf i hik]
      exact h.missed i (hg i hik ▸ hmi)
  barred := by
    intro i hmi
    rcases eq_or_ne (i % n) (k % n) with hj | hj
    · rw [hj, update_self]
      exact hbarred i hj hmi
    · rw [update_of_ne hj]
      exact h.barred i (hg i (fun hc => hj (hc ▸ rfl)) ▸ hmi)

/-- **Filling.**  The slot was free and no dequeuer has missed the position, or
a later one of the slot. -/
theorem Slots.fill {x : ℕ} {t : T} (hk : f k = .pending t) (hi : (slot (k % n)).idx = none)
    (hm : ∀ i, i % n = k % n → k ≤ i → g i ≠ .missed) :
    Slots n (update slot (k % n) ⟨k + 1, true, some x⟩) (update f k (.filled x false)) g := by
  have hnt : g k ≠ .taken := fun hc => h.taken k hc (by rw [hk]; rfl)
  refine h.write (fun i hik => update_of_ne hik _ _) (fun _ _ => rfl) (.inl rfl)
    (fun hc => absurd hi hc) ?_ (fun _ y hy => ⟨k, rfl, ?_, hnt⟩) (by simp) (fun hc => absurd hc hnt)
    (fun hc => absurd hc (hm k rfl le_rfl)) fun i hj hmi => .inl ?_
  · rw [update_self]
    exact fun y hy _ => ⟨rfl, hy⟩
  · rw [update_self]
    exact hy
  · exact Nat.lt_succ_of_lt (not_le.mp fun hc => hm i hj hc hmi)

/-- **Missing.**  A dequeuer gives up a position that was never filled, at a slot
that keeps this in mind. -/
theorem Slots.miss {t : T} (hk : g k = .pending t)
    (hf : (f k).val = none) (hb : k < (slot (k % n)).stamp ∨ (slot (k % n)).safe = false) :
    Slots n slot f (update g k .missed) := by
  have hw : Slots n (update slot (k % n) (slot (k % n))) f (update g k .missed) := by
    refine h.write (fun _ _ => rfl) (fun i hik => update_of_ne hik _ _) (.inr rfl) (fun _ _ => ⟨rfl, rfl⟩)
      (by simp [hf]) (fun hn x hx => ?_) (fun hn hi i hs => ?_) (by simp) (fun _ => hf) fun i hj hmi => ?_
    · obtain ⟨i, h1, h2, h3⟩ := h.stored _ hn x hx
      have hik : i ≠ k := fun hc => by simp [hc, hf] at h2
      exact ⟨i, h1, h2, by rwa [update_of_ne hik]⟩
    · rcases eq_or_ne i k with rfl | hik
      · exact .inr (update_self ..)
      · rw [update_of_ne hik]
        exact h.vacated _ hn i hi hs
    · rcases eq_or_ne i k with rfl | hik
      · exact hb
      · rw [update_of_ne hik] at hmi
        exact hj ▸ h.barred i hmi
  rwa [Function.update_eq_self] at hw

/-- A position whose slot is still older was not filled. -/
theorem Slots.val_eq_none (hk : g k ≠ .taken)
    (hs : (slot (k % n)).stamp ≠ k + 1) : (f k).val = none := by
  by_contra hc
  obtain ⟨x, hx⟩ := ne_none_iff_exists'.mp hc
  exact hs (h.held k x hx hk).1

/-- **Marking.**  The dequeuer of an older slot marks it and gives up. -/
theorem Slots.mark {t : T} (hk : g k = .pending t)
    (hs : (slot (k % n)).stamp ≤ k) (hm : Marks k (slot (k % n)) e') :
    Slots n (update slot (k % n) e') f (update g k .missed) := by
  have hf : (f k).val = none := h.val_eq_none (by rw [hk]; simp) (by omega)
  rcases hm with ⟨hi, rfl⟩ | ⟨hi, rfl⟩
  · -- an index is made unsafe; the slot keeps stamp and index
    refine h.write (fun _ _ => rfl) (fun i hik => update_of_ne hik _ _) (.inr rfl) (fun _ _ => ⟨rfl, rfl⟩)
      (by simp [hf]) (fun hn x hx => ?_) (fun _ hc => absurd hc hi) (by simp) (fun _ => hf)
      fun _ _ _ => .inr rfl
    obtain ⟨i, h1, h2, h3⟩ := h.stored _ hn x hx
    have hik : i ≠ k := fun hc => by simp [hc, hf] at h2
    exact ⟨i, h1, h2, by rwa [update_of_ne hik]⟩
  · -- a free slot is moved on to the position that is given up
    refine h.write (fun _ _ => rfl) (fun i hik => update_of_ne hik _ _) (.inl rfl) (fun hc => absurd hi hc)
      (by simp [hf]) (by simp) (fun _ _ i h2 => .inr ?_) (by simp) (fun _ => hf) fun i hj hmi => ?_
    · rw [← Nat.succ.inj h2, update_self]
    · rcases eq_or_ne i k with rfl | hik
      · exact .inl (Nat.lt_succ_self _)
      · rw [update_of_ne hik] at hmi
        have hb := h.barred i hmi
        rw [hj] at hb
        exact hb.imp (fun hlt => hlt.trans (Nat.lt_succ_of_le hs)) id

/-- **Taking.**  The dequeuer of the position the slot is at removes the index. -/
theorem Slots.take (hn : 0 < n)
    (hs : (slot (k % n)).stamp = k + 1) (hi : (slot (k % n)).idx ≠ none) :
    Slots n (update slot (k % n) { slot (k % n) with idx := none }) f
      (update g k .taken) := by
  obtain ⟨x, hx⟩ := ne_none_iff_exists'.mp hi
  obtain ⟨k', hk1, hk2, -⟩ := h.stored (k % n) (Nat.mod_lt _ hn) x hx
  obtain rfl : k = k' := by omega
  refine h.write (fun _ _ => rfl) (fun i hik => update_of_ne hik _ _) (.inr rfl) (fun _ hc => absurd hs hc)
    (by simp) (by simp) (fun _ _ i h2 => .inl ?_) (fun _ => by rw [hk2]; simp) (by simp) fun i hj hmi => ?_
  · obtain rfl : k = i := Nat.succ.inj (hs.symm.trans h2)
    rw [update_self]
  · rcases eq_or_ne i k with rfl | hik
    · simp at hmi
    · rw [update_of_ne hik] at hmi
      exact hj ▸ h.barred i hmi

end

end

/-- The slots and the points agree with the history. -/
structure Contents (half : ℕ) (r : Ring) (pc : T → Pc ℕ Entry) (f : ℕ → Put T) (g : ℕ → Get T) :
    Prop where
  slots : Slots (2 * half) r.slot f g
  point : ∀ u, PointSlot (2 * half) r.slot g (pc u)

section
variable {half : ℕ} {t : T} {r r' : Ring} {pc : T → Pc ℕ Entry}
  {f f' : ℕ → Put T} {g g' : ℕ → Get T} {p' : Pc ℕ Entry}

theorem val_update_same {k : ℕ} {v : Put T} (hv : v.val = (f k).val) (i : ℕ) :
    (update f k v i).val = (f i).val := by
  rcases eq_or_ne i k with rfl | hi
  · rw [update_self, hv]
  · rw [update_of_ne hi]

section
variable (h : Contents half r pc f g)
include h

theorem Contents.not_or (ht : Tickets r pc f g) {k : ℕ}
    (hk : (pc t).get? = some k) (hs : (r.slot (k % (2 * half))).stamp = k + 1) {u : T}
    (hu : u ≠ t) (i : ℕ) (e : Entry) (hpu : pc u = .deqOr i e) : i % (2 * half) ≠ k % (2 * half) := by
  intro hj
  have hp := h.point u
  rw [hpu] at hp
  have hik : i = k := by
    have := hp.1
    rw [hj] at this
    omega
  subst hik
  have h1 := ht.pending_get hk
  have h2 := ht.pending_get (by rw [hpu]; rfl)
  rw [h1] at h2
  exact hu (Get.pending.inj h2).symm

theorem Contents.not_or_of_free {j : ℕ}
    (hj : (r.slot j).idx = none) (u : T) (i : ℕ) (e : Entry) (hpu : pc u = .deqOr i e) :
    i % (2 * half) ≠ j := by
  rintro rfl
  have hp := h.point u
  rw [hpu] at hp
  exact hp.2.2 (hp.2.1.symm.trans hj)

variable [DecidableEq T]

theorem Contents.still (hr : r'.slot = r.slot)
    (hf : ∀ k, (f' k).val = (f k).val) (ht : ∀ k, g' k = .taken ↔ g k = .taken)
    (hm : ∀ k, g' k = .missed ↔ g k = .missed) (hp : PointSlot (2 * half) r.slot g' p') :
    Contents half r' (update pc t p') f' g' where
  slots := hr ▸ h.slots.congr hf ht hm
  point := forall_update_of
    (fun u => hr ▸ (h.point u).mono fun k hk => (hm k).mp hk) (hr ▸ hp)

theorem Contents.quiet (hr : r'.slot = r.slot)
    (hp : PointSlot (2 * half) r.slot g p') : Contents half r' (update pc t p') f g :=
  h.still hr (fun _ => rfl) (fun _ => Iff.rfl) (fun _ => Iff.rfl) hp

section
variable (ht : Tickets r pc f g)
include ht

theorem Contents.fill {x k : ℕ} (hp : pc t = .enqCas x k (r.slot (k % (2 * half)))) :
    Contents half (r.write (k % (2 * half)) ⟨k + 1, true, some x⟩) (update pc t (.enqThr k))
      (update f k (.filled x false)) g := by
  have hpt := h.point t
  rw [hp] at hpt
  obtain ⟨⟨hi, hs, -⟩, hm⟩ := hpt
  constructor
  case slots => exact h.slots.fill (ht.pending_put (by rw [hp]; rfl)) hi (hm rfl)
  case point =>
    refine forall_update_of (fun u => ?_) trivial
    exact (h.point u).write (.inl (Nat.lt_succ_of_le hs))
      (fun i e hpu hj => absurd hj (h.not_or_of_free hi u i e hpu)) fun i hi => .inl hi

theorem Contents.marked {k : ℕ} {new : Entry}
    (hp : pc t = .deqCas k (r.slot (k % (2 * half))) new) :
    Contents half (r.write (k % (2 * half)) new) (update pc t (.deqTail k))
      f (update g k .missed) := by
  have hpt := h.point t
  rw [hp] at hpt
  obtain ⟨hs, hm⟩ := hpt
  constructor
  case slots => exact h.slots.mark (ht.pending_get (by rw [hp]; rfl)) hs hm
  case point =>
    refine forall_update_of (fun u => ?_) trivial
    refine (h.point u).write (hm.grows hs) (fun i e hpu hj => ?_) fun i hi => ?_
    · rcases hm with ⟨-, rfl⟩ | ⟨hfree, -⟩
      · exact ⟨rfl, rfl⟩
      · exact absurd hj (h.not_or_of_free hfree u i e hpu)
    · rcases eq_or_ne i k with rfl | hik
      · exact .inr rfl
      · exact .inl (by rwa [update_of_ne hik] at hi)

theorem Contents.take (hhalf : 0 < half) {k : ℕ} {e : Entry} {v : Ret} (hp : pc t = .deqOr k e) :
    Contents half (r.write (k % (2 * half)) { r.slot (k % (2 * half)) with idx := none })
      (update pc t (.idle v)) f (update g k .taken) := by
  have hpt := h.point t
  rw [hp] at hpt
  obtain ⟨hs, hi, hne⟩ := hpt
  have hi' : (r.slot (k % (2 * half))).idx ≠ none := hi ▸ hne
  constructor
  case slots => exact h.slots.take (by omega) hs hi'
  case point =>
    intro u
    rcases eq_or_ne u t with rfl | hu
    · rw [update_self]
      trivial
    · rw [update_of_ne hu]
      refine (h.point u).write (.inr ⟨rfl, hi'⟩) (fun i e' hpu hj => ?_) fun i him => ?_
      · exact absurd hj (h.not_or ht (by rw [hp]; rfl) hs hu i e' hpu)
      · rcases eq_or_ne i k with rfl | hik
        · exact .inr rfl
        · exact .inl (by rwa [update_of_ne hik] at him)

theorem Contents.move (hhalf : 0 < half)
    (hm : Move half t r f g (pc t) r' f' g' p') : Contents half r' (update pc t p') f' g' := by
  generalize hp : pc t = p at hm
  have hpt : PointSlot (2 * half) r.slot g p := hp ▸ h.point t
  cases hm with
  | issue x =>
    exact h.still rfl (val_update_same (by rw [ht.tail_unissued]; rfl)) (fun _ => Iff.rfl)
      (fun _ => Iff.rfl) trivial
  | useSafe hl hs hi hsafe =>
    refine h.quiet rfl ⟨⟨hi, hs, .inl rfl⟩, fun _ i hij hki hmi => ?_⟩
    have hb := h.slots.barred i hmi
    rw [hij] at hb
    rcases hb with hb | hb
    · omega
    · simp [hsafe] at hb
  | useUnsafe hl hs hi => exact h.quiet rfl ⟨hi, hs, .inl rfl⟩
  | @lose _ x k hl =>
    have hk : f k = .pending t := ht.pending_put (by rw [hp]; exact hl.put)
    exact h.still rfl (val_update_same (by rw [hk]; rfl)) (fun _ => Iff.rfl) (fun _ => Iff.rfl)
      trivial
  | headOk x k e hk =>
    -- no position from `head` on has been given up
    refine h.quiet rfl ⟨hpt, fun _ i _ hki hmi => ?_⟩
    have := (ht.get_iff i).mp (by rw [hmi]; simp)
    omega
  | headLate x k e =>
    have hk : f k = .pending t := ht.pending_put (by rw [hp]; rfl)
    exact h.still rfl (val_update_same (by rw [hk]; rfl)) (fun _ => Iff.rfl) (fun _ => Iff.rfl)
      trivial
  | fill x k => exact h.fill ht hp
  | thrOk | thrSet =>
    exact h.still rfl (val_update_same (by simp)) (fun _ => Iff.rfl) (fun _ => Iff.rfl) trivial
  | claim =>
    have hfree := ht.head_unissued
    refine h.still rfl (fun _ => rfl) (fun k => ?_) (fun k => ?_) trivial <;>
      rcases eq_or_ne k r.head with rfl | hk
    · simp [hfree]
    · rw [update_of_ne hk]
    · simp [hfree]
    · rw [update_of_ne hk]
  | @found _ k hl hs =>
    refine h.quiet rfl ⟨hs, rfl, fun hc => ?_⟩
    have hk := ht.pending_get (by rw [hp]; exact hl.get)
    have hv := h.slots.vacated _ (Nat.mod_lt _ (by omega)) k hc hs
    simp [hk] at hv
  | mark hl hs hm => exact h.quiet rfl ⟨hs, hm⟩
  | @pass _ k hl hs hn =>
    have hk := ht.pending_get (by rw [hp]; exact hl.get)
    constructor
    case slots =>
      exact h.slots.miss hk (h.slots.val_eq_none (by rw [hk]; simp) hs)
        (hn.symm.imp id And.right)
    case point =>
      exact forall_update_of (fun u => (h.point u).pass (hn.imp And.left id)) trivial
  | marked k new => exact h.marked ht hp
  | take k e => exact h.take ht hhalf hp
  | _ => exact h.quiet rfl trivial

end

end

end

/-! ## Wasted positions

An enqueuer loses a position at or ahead of `head` only to an element that is
still in the slot from the cycle before.  All the elements that can do so were
in the ring, or in the hands of an enqueuer, when the first of these positions
was lost, next to the element of the enqueuer that lost it: so fewer than `half`
positions are wasted.  The snapshot taken at each loss carries the argument. -/

/-- The elements in the ring. -/
def stored (half : ℕ) (r : Ring) : ℕ :=
  ((Finset.range (2 * half)).filter fun j => (r.slot j).idx ≠ none).card

/-- An element in the hands of a running enqueue. -/
def inHand : Pc C E → ℕ
  | .enq _ | .enqLoad _ _ | .enqHead _ _ _ | .enqCas _ _ _ => 1
  | _ => 0

/-- An enqueue between two positions. -/
def between : Pc C E → ℕ
  | .enq _ => 1
  | _ => 0

/-- A position that holds an element or will be filled. -/
def Occupied (f : ℕ → Put T) (g : ℕ → Get T) (k : ℕ) : Prop :=
  (f k).holder ≠ none ∨ ((f k).val ≠ none ∧ g k ≠ .taken)

open Classical in
/-- The occupied positions. -/
noncomputable def occupied (r : Ring) (f : ℕ → Put T) (g : ℕ → Get T) : Finset ℕ :=
  (Finset.range r.tail).filter (Occupied f g)

open Classical in
/-- The positions lost at or ahead of `head`. -/
noncomputable def wasted (r : Ring) (f : ℕ → Put T) : Finset ℕ :=
  (Finset.range r.tail).filter fun k => f k = .lost ∧ r.head ≤ k

/-- A lost position remembers the positions occupied when it was lost; those lost
later were lost to elements among them. -/
def Waste (half : ℕ) (r : Ring) (f : ℕ → Put T) (g : ℕ → Get T) : Prop :=
  ∃ (rank : ℕ → ℕ) (snap : ℕ → Finset ℕ), ∀ k, f k = .lost → r.head ≤ k →
    (snap k).card < half ∧ (∀ i ≤ k, Occupied f g i → i ∈ snap k) ∧
    ∀ k', f k' = .lost → r.head ≤ k' → rank k ≤ rank k' →
      ∃ i ∈ snap k, i % (2 * half) = k' % (2 * half)

theorem add_le_of_mod_eq {n a b : ℕ} (h : a % n = b % n) (hlt : a < b) : a + n ≤ b := by
  have hd : n ∣ b - a := (Nat.modEq_iff_dvd' hlt.le).mp h
  have := Nat.le_of_dvd (by omega) hd
  omega

section
variable {half : ℕ} {t : T} {r r' : Ring} {pc : T → Pc ℕ Entry}
  {f f' : ℕ → Put T} {g g' : ℕ → Get T}
variable {k : ℕ}

theorem Occupied.issued (h : Occupied f g k) : f k ≠ .unissued := by
  intro hc
  simp [Occupied, hc, Put.holder, Put.val] at h

theorem card_filled (h : Contents half r pc f g) (hhalf : 0 < half) (s : Finset ℕ)
    (hs : ∀ k ∈ s, (f k).val ≠ none ∧ g k ≠ .taken) : s.card ≤ stored half r := by
  have key : ∀ k ∈ s, (r.slot (k % (2 * half))).stamp = k + 1 ∧
      (r.slot (k % (2 * half))).idx ≠ none := by
    intro k hk
    obtain ⟨h1, h2⟩ := hs k hk
    obtain ⟨x, hx⟩ := ne_none_iff_exists'.mp h1
    obtain ⟨h3, h4⟩ := h.slots.held k x hx h2
    exact ⟨h3, by rw [h4]; simp⟩
  refine card_le_card_of_injOn (· % (2 * half)) (fun k hk => ?_) fun k hk i hi hki => ?_
  · simp only [coe_filter, mem_range, Set.mem_ofPred_eq]
    exact ⟨Nat.mod_lt _ (by omega), (key k hk).2⟩
  · have h1 := (key k hk).1
    have h2 := (key i hi).1
    simp only at hki
    rw [hki] at h1
    omega

section
variable (ht : Tickets r pc f g)
include ht

theorem mem_occupied : k ∈ occupied r f g ↔ Occupied f g k := by
  simp only [occupied, mem_filter, mem_range]
  exact ⟨And.right, fun h => ⟨ht.put_lt k h.issued, h⟩⟩

theorem mem_wasted : k ∈ wasted r f ↔ f k = .lost ∧ r.head ≤ k := by
  simp only [wasted, mem_filter, mem_range]
  exact ⟨And.right, fun h => ⟨ht.put_lt k (by rw [h.1]; simp), h⟩⟩

/-- **Few positions are wasted**, as long as the window is no more than a cycle. -/
theorem Waste.card_lt (h : Waste half r f g) (hhalf : 0 < half)
    (hw : r.tail ≤ r.head + 2 * half) : (wasted r f).card < half := by
  obtain ⟨rank, snap, hlog⟩ := h
  rcases (wasted r f).eq_empty_or_nonempty with he | hne
  · rw [he]
    simpa using hhalf
  · obtain ⟨k, hk, hmin⟩ := exists_min_image _ rank hne
    obtain ⟨hkl, hkh⟩ := (mem_wasted ht).mp hk
    obtain ⟨hcard, -, hlater⟩ := hlog k hkl hkh
    have hinj : Set.InjOn (· % (2 * half)) (wasted r f : Set ℕ) := by
      -- two positions of one slot are a whole cycle apart
      intro a ha b hb hab
      obtain ⟨hal, hah⟩ := (mem_wasted ht).mp ha
      obtain ⟨hbl, hbh⟩ := (mem_wasted ht).mp hb
      have hat := ht.put_lt a (by rw [hal]; simp)
      have hbt := ht.put_lt b (by rw [hbl]; simp)
      rcases lt_trichotomy a b with hlt | heq | hlt
      · have := add_le_of_mod_eq hab hlt
        omega
      · exact heq
      · have := add_le_of_mod_eq hab.symm hlt
        omega
    have hsub : (wasted r f).image (· % (2 * half)) ⊆ (snap k).image (· % (2 * half)) := by
      intro j hj
      obtain ⟨i, hi, rfl⟩ := mem_image.mp hj
      obtain ⟨hil, hih⟩ := (mem_wasted ht).mp hi
      obtain ⟨q, hq, hqi⟩ := hlater i hil hih (hmin i hi)
      exact mem_image.mpr ⟨q, hq, hqi⟩
    calc (wasted r f).card = ((wasted r f).image (· % (2 * half))).card :=
          (card_image_of_injOn hinj).symm
      _ ≤ ((snap k).image (· % (2 * half))).card := card_le_card hsub
      _ ≤ (snap k).card := card_image_le
      _ < half := hcard

/-- The log of the losses stays good while `head` grows, no position ahead of it
is lost and only positions from `tail` on become occupied. -/
theorem Waste.mono (h : Waste half r f g) (hh : r.head ≤ r'.head)
    (hl : ∀ k, f' k = .lost → r'.head ≤ k → f k = .lost)
    (ho : ∀ k, Occupied f' g' k → Occupied f g k ∨ r.tail ≤ k) : Waste half r' f' g' := by
  obtain ⟨rank, snap, hlog⟩ := h
  refine ⟨rank, snap, fun k hk hkh => ?_⟩
  have hk' := hl k hk hkh
  obtain ⟨h1, h2, h3⟩ := hlog k hk' (hh.trans hkh)
  refine ⟨h1, fun i hik hi => ?_, fun i hi hih hr => h3 i (hl i hi hih) (hh.trans hih) hr⟩
  have hkt := ht.put_lt k (by rw [hk']; simp)
  rcases ho i hi with hi | hi
  · exact h2 i hik hi
  · omega

/-- The element an enqueuer at or ahead of `head` loses its position to. -/
theorem Contents.blocker (hc : Contents half r pc f g) (hhalf : 0 < half)
    (hnear : r.tail < r.head + 2 * half) (hk : f k = .pending t) (hkh : r.head ≤ k)
    (hn : ¬ ((r.slot (k % (2 * half))).stamp ≤ k ∧ (r.slot (k % (2 * half))).idx = none)) :
    ∃ i, i < r.head ∧ i % (2 * half) = k % (2 * half) ∧ (f i).val ≠ none ∧ g i ≠ .taken := by
  have hmod : k % (2 * half) < 2 * half := Nat.mod_lt _ (by omega)
  have hkt := ht.put_lt k (by rw [hk]; simp)
  cases hi : (r.slot (k % (2 * half))).idx with
  | none =>
    -- a free slot was moved on by a dequeuer, and none has come this far
    have hs : k < (r.slot (k % (2 * half))).stamp := not_le.mp fun hs => hn ⟨hs, hi⟩
    obtain ⟨q, hq⟩ : ∃ q, (r.slot (k % (2 * half))).stamp = q + 1 :=
      ⟨_, (Nat.succ_pred_eq_of_pos (by omega)).symm⟩
    have hgq : g q ≠ .unissued := by
      rcases hc.slots.vacated _ hmod q hi hq with hgq | hgq <;> rw [hgq] <;> simp
    have := (ht.get_iff q).mp hgq
    omega
  | some x =>
    obtain ⟨q, hq, hv, hgq⟩ := hc.slots.stored _ hmod x hi
    have hres := hc.slots.residue _ hmod q hq
    have hv' : (f q).val ≠ none := by rw [hv]; simp
    have hqt := ht.put_lt q fun hu => by simp [hu, Put.val] at hv
    refine ⟨q, ?_, hres, hv', hgq⟩
    rcases lt_trichotomy q k with hlt | rfl | hlt
    · have := add_le_of_mod_eq hres hlt
      omega
    · simp [hk, Put.val] at hv
    · have := add_le_of_mod_eq hres.symm hlt
      omega

theorem Waste.lose (h : Waste half r f g) (hc : Contents half r pc f g)
    (hhalf : 0 < half) (hnear : r.tail < r.head + 2 * half) (hk : f k = .pending t)
    (hn : ¬ ((r.slot (k % (2 * half))).stamp ≤ k ∧ (r.slot (k % (2 * half))).idx = none))
    {pc' : T → Pc ℕ Entry} (ht' : Tickets r pc' (update f k .lost) g)
    (hcard : (occupied r (update f k .lost) g).card < half) :
    Waste half r (update f k .lost) g := by
  have hocc : ∀ i, Occupied (update f k .lost) g i → Occupied f g i := by
    intro i hi
    rcases eq_or_ne i k with rfl | hik
    · simp [Occupied, Put.holder, Put.val] at hi
    · simpa only [Occupied, update_of_ne hik] using hi
  have hlost : ∀ i, i ≠ k → update f k .lost i = .lost → f i = .lost := fun i hi h1 => by
    rwa [update_of_ne hi] at h1
  rcases lt_or_ge k r.head with hkh | hkh
  · exact h.mono ht le_rfl (fun i hi hih => hlost i (by omega) hi) fun i hi => .inl (hocc i hi)
  obtain ⟨q, hqh, hqk, hqv, hqg⟩ := hc.blocker ht hhalf hnear hk hkh hn
  obtain ⟨rank, snap, hlog⟩ := h
  -- the new loss comes after all the others
  obtain ⟨last, hlast⟩ : ∃ last, ∀ i ∈ wasted r f, rank i < last :=
    ⟨(wasted r f).sup rank + 1, fun i hi => Nat.lt_succ_of_le (le_sup hi)⟩
  refine ⟨update rank k last,
    update snap k (occupied r (update f k .lost) g), fun i hi hih => ?_⟩
  rcases eq_or_ne i k with rfl | hik
  · rw [update_self]
    refine ⟨hcard, fun j _ hj => (mem_occupied ht').mpr hj, fun j hj hjh hr => ?_⟩
    rcases eq_or_ne j i with rfl | hji
    · refine ⟨q, (mem_occupied ht').mpr (.inr ⟨?_, hqg⟩), hqk⟩
      rwa [update_of_ne (by omega)]
    · rw [update_self, update_of_ne hji] at hr
      exact absurd (hlast j ((mem_wasted ht).mpr ⟨hlost j hji hj, hjh⟩)) (not_lt.mpr hr)
  · rw [update_of_ne hik]
    obtain ⟨h1, h2, h3⟩ := hlog i (hlost i hik hi) hih
    refine ⟨h1, fun j hji hj => h2 j hji (hocc j hj), fun j hj hjh hr => ?_⟩
    rcases eq_or_ne j k with rfl | hjk
    · exact ⟨q, h2 q (by omega) (.inr ⟨hqv, hqg⟩), hqk⟩
    · rw [update_of_ne hik, update_of_ne hjk] at hr
      exact h3 j (hlost j hjk hj) hjh hr

/-- An enqueuer goes on with its position, and loses none ahead of `head`. -/
theorem Waste.put (h : Waste half r f g) {v : Put T} (hr : r'.head = r.head)
    (hl : v = .lost → f k = .lost ∨ k < r.head)
    (ho : Occupied (update f k v) g k → Occupied f g k ∨ r.tail ≤ k) :
    Waste half r' (update f k v) g := by
  refine h.mono ht hr.ge (fun i hi hih => ?_) fun i hi => ?_ <;>
    rcases eq_or_ne i k with rfl | hne
  · rw [update_self] at hi
    exact (hl hi).resolve_right (not_lt.mpr (hr ▸ hih))
  · rwa [update_of_ne hne] at hi
  · exact ho hi
  · exact .inl (by simpa only [Occupied, update_of_ne hne] using hi)

theorem Waste.complete (h : Waste half r f g)
    (hr : r'.head = r.head) : Waste half r' (update f k (f k).complete) g := by
  refine h.put ht hr (fun hv => .inl ?_) fun hi => .inl (by simpa [Occupied] using hi)
  cases hf : f k <;> simp_all [Put.complete]

theorem Waste.settle (h : Waste half r f g) {v : Get T}
    (hr : r'.head = r.head) (hk : (pc t).get? = some k) : Waste half r' f (update g k v) := by
  refine h.mono ht hr.ge (fun i hi _ => hi) fun i hi => .inl (hi.imp id fun hi => ⟨hi.1, ?_⟩)
  rcases eq_or_ne i k with rfl | hne
  · rw [ht.pending_get hk]
    simp
  · have := hi.2
    rwa [update_of_ne hne] at this

variable [Fintype T]

theorem card_pending (s : Finset ℕ) (hs : ∀ k ∈ s, (f k).holder ≠ none) :
    s.card ≤ (univ.filter fun u => (pc u).put? ≠ none).card := by
  have hsub : s ⊆ (univ.filter fun u => (pc u).put? ≠ none).image
      fun u => ((pc u).put?).getD 0 := by
    intro k hk
    obtain ⟨u, hu⟩ := ne_none_iff_exists'.mp (hs k hk)
    have hp : (pc u).put? = some k := (ht.puts k u).mp hu
    refine mem_image.mpr ⟨u, ?_, by rw [hp]; rfl⟩
    simp [hp]
  exact (card_le_card hsub).trans card_image_le

theorem card_occupied (h : Contents half r pc f g) (hhalf : 0 < half) :
    (occupied r f g).card + Count.wsum between pc ≤ stored half r + Count.wsum inHand pc := by
  classical
  have hsplit : occupied r f g ⊆ (occupied r f g).filter (fun k => (f k).val ≠ none ∧ g k ≠ .taken) ∪
      (occupied r f g).filter fun k => (f k).holder ≠ none := by
    intro k hk
    have hk' := (mem_occupied ht).mp hk
    simp only [mem_union, mem_filter]
    exact hk'.elim (fun h1 => .inr ⟨hk, h1⟩) fun h1 => .inl ⟨hk, h1⟩
  have h1 := card_filled h hhalf
    ((occupied r f g).filter (fun k => (f k).val ≠ none ∧ g k ≠ .taken)) fun k hk =>
      (mem_filter.mp hk).2
  have h2 := card_pending ht ((occupied r f g).filter fun k => (f k).holder ≠ none) fun k hk =>
      (mem_filter.mp hk).2
  have h3 : Count.wsum inHand pc = (univ.filter fun u => (pc u).put? ≠ none).card +
      Count.wsum between pc := by
    rw [← Count.wsum_eq_card (fun p : Pc ℕ Entry => p.put? ≠ none), ← Count.wsum_add]
    congr 1
    funext p
    cases p <;> rfl
  have h4 := (card_le_card hsplit).trans (card_union_le _ _)
  omega

/-- **The tail stays less than a cycle ahead**, in a ring that is not overfilled. -/
theorem Waste.near (h : Waste half r f g) (hc : Contents half r pc f g)
    (hhalf : 0 < half) (hw : r.tail ≤ r.head + 2 * half)
    (hfit : stored half r + Count.wsum inHand pc ≤ half) : r.tail < r.head + 2 * half := by
  have hsub : Finset.Ico r.head r.tail ⊆ wasted r f ∪ occupied r f g := by
    intro k hk
    obtain ⟨h1, h2⟩ := mem_Ico.mp hk
    rw [mem_union, mem_wasted ht, mem_occupied ht]
    have hg : g k ≠ .taken := fun hg =>
      absurd ((ht.get_iff k).mp (by rw [hg]; simp)) (not_lt.mpr h1)
    cases hf : f k with
    | unissued => exact absurd hf (ht.issued k h1 h2)
    | pending u => exact .inr (.inl (by rw [hf]; simp [Put.holder]))
    | lost => exact .inl ⟨rfl, h1⟩
    | filled x c => exact .inr (.inr ⟨by rw [hf]; simp [Put.val], hg⟩)
  have h1 := h.card_lt ht hhalf hw
  have h2 := card_occupied ht hc hhalf
  have h3 := (card_le_card hsub).trans (card_union_le _ _)
  rw [Nat.card_Ico] at h3
  omega

variable [DecidableEq T] {p' : Pc ℕ Entry}

/-- **Every move keeps the log of the losses**, in a ring that is not overfilled. -/
theorem Waste.move (h : Waste half r f g) (hc : Contents half r pc f g)
    (hhalf : 0 < half) (hnear : r.tail < r.head + 2 * half)
    (hm : Move half t r f g (pc t) r' f' g' p')
    (hfit : stored half r' + Count.wsum inHand (update pc t p') ≤ half) : Waste half r' f' g' := by
  have ht' := ht.move hm
  have hc' := hc.move ht hhalf hm
  generalize hp : pc t = p at hm
  cases hm with
  | issue x => exact h.put ht rfl (by simp) fun _ => .inr le_rfl
  | @lose _ x k hl hn =>
    have hk : f k = .pending t := ht.pending_put (by rw [hp]; exact hl.put)
    refine h.lose ht hc hhalf hnear hk hn ht' ?_
    have h1 := card_occupied ht' hc' hhalf
    have h2 := Count.le_wsum between (update pc t (.enq x)) t
    rw [update_self] at h2
    have h3 : between (.enq x : Pc ℕ Entry) = 1 := rfl
    omega
  | headLate x k e hk =>
    exact h.put ht rfl (fun _ => .inr hk) (by simp [Occupied, Put.holder, Put.val])
  | fill x k =>
    have hfk : f k = .pending t := ht.pending_put (by rw [hp]; rfl)
    exact h.put ht rfl (by simp) fun _ => .inl (.inl (by rw [hfk]; simp [Put.holder]))
  | thrOk | thrSet => exact h.complete ht rfl
  | claim =>
    refine h.mono ht (Nat.le_succ _) (fun i hi _ => hi) fun i hi => .inl ?_
    refine hi.imp id fun hi => ⟨hi.1, fun hg => ?_⟩
    have := (ht.get_iff i).mp (by rw [hg]; simp)
    exact hi.2 (by rwa [update_of_ne (by omega)])
  | pass hl => exact h.settle ht rfl (hp ▸ hl.get)
  | marked | take => exact h.settle ht rfl (by rw [hp]; rfl)
  | _ => exact h.mono ht le_rfl (fun i hi _ => hi) fun i hi => .inl hi

end

end

/-! ## The threshold -/

/-- A dequeuer that has claimed a position and may still decrement the threshold
for it. -/
def owes : Pc C E → ℕ
  | .deqLoad _ | .deqOr _ _ | .deqCas _ _ _ | .deqTail _ | .catchCas _ _ | .catchHead
  | .catchTail _ | .deqSub | .deqLoop => 1
  | _ => 0

/-- A dequeuer in its loop. -/
def loops : Pc C E → ℕ
  | .deqAdd => 1
  | p => owes p

theorem owes_le_one (p : Pc C E) : owes p ≤ 1 := by
  cases p <;> simp [owes]

theorem loops_le_one (p : Pc C E) : loops p ≤ 1 := by
  cases p <;> simp [loops, owes]

theorem LooksDeq.owes {p : Pc ℕ Entry} (h : LooksDeq p k) : Scq.owes p = 1 := by
  rcases h with rfl | ⟨e, new, rfl⟩ <;> rfl

theorem LooksDeq.loops {p : Pc ℕ Entry} (h : LooksDeq p k) : Scq.loops p = 1 := by
  rcases h with rfl | ⟨e, new, rfl⟩ <;> rfl

/-- While a completed element waits, the threshold covers every position that
dequeuers still have to go through to reach it. -/
structure Budget [Fintype T] (half : ℕ) (r : Ring) (pc : T → Pc ℕ Entry) (f : ℕ → Put T) :
    Prop where
  waiting : ∀ k x, f k = .filled x true → r.head ≤ k →
    (k : ℤ) + Count.wsum owes pc ≤ r.thr + r.head
  upper : r.thr ≤ top half
  lower : (Count.wsum loops pc : ℤ) ≤ r.thr + Fintype.card T + 1

section
variable [Fintype T] [DecidableEq T] {half : ℕ} {t : T} {r r' : Ring} {pc : T → Pc ℕ Entry}
  {f f' : ℕ → Put T} {g g' : ℕ → Get T} {p' : Pc ℕ Entry}

theorem Budget.still (h : Budget half r pc f) (hr : r'.thr = r.thr ∧ r'.head = r.head)
    (hf : ∀ k x, f' k = .filled x true → f k = .filled x true) (ho : owes p' ≤ owes (pc t))
    (hl : loops p' ≤ loops (pc t)) : Budget half r' (update pc t p') f' := by
  have h1 := Count.wsum_update owes pc t p'
  have h2 := Count.wsum_update loops pc t p'
  constructor
  case waiting =>
    intro k x hk hh
    have := h.waiting k x (hf k x hk) (hr.2 ▸ hh)
    omega
  case upper => exact hr.1 ▸ h.upper
  case lower =>
    have := h.lower
    omega

omit [Fintype T] [DecidableEq T] in
theorem filled_of_update {k : ℕ} {v : Put T} (hv : ∀ x, v ≠ .filled x true) (i x : ℕ)
    (hi : update f k v i = .filled x true) : f i = .filled x true := by
  rcases eq_or_ne i k with rfl | hik
  · rw [update_self] at hi
    exact absurd hi (hv x)
  · rwa [update_of_ne hik] at hi

/-- The threshold at its top covers every element, whatever the dequeuers do. -/
theorem Budget.full (ht : Tickets r pc f g) (hnear : r.tail < r.head + 2 * half)
    (hcard : Fintype.card T ≤ half) (ho : owes (pc t) = 0) {k : ℕ} (hk : f k ≠ .unissued)
    (hp : owes p' = 0) : (k : ℤ) + Count.wsum owes (update pc t p') ≤ top half + r.head := by
  have h1 := Count.wsum_update owes pc t p'
  have h2 := Count.wsum_update owes pc t .deqSub
  have h3 := Count.wsum_le_card owes_le_one (update pc t (.deqSub : Pc ℕ Entry))
  have h5 := ht.put_lt k hk
  unfold top
  omega

/-- A dequeuer decrements the threshold for its position; it goes on only if the
threshold was positive. -/
theorem Budget.spend (h : Budget half r pc f) (ho : owes (pc t) = 1) (hp : owes p' = 0)
    (hl : loops (pc t) = 1) (hend : loops p' = 0 ∨ 0 < r.thr) :
    Budget half { r with thr := r.thr - 1 } (update pc t p') f := by
  have h1 := Count.wsum_update owes pc t p'
  have h2 := Count.wsum_update loops pc t p'
  have h3 := Count.wsum_le_card loops_le_one (update pc t p')
  have hlow := h.lower
  have hup := h.upper
  constructor
  case waiting =>
    intro i x hi hih
    have := h.waiting i x hi hih
    show _ ≤ r.thr - 1 + (r.head : ℤ)
    omega
  case upper =>
    show r.thr - 1 ≤ _
    omega
  case lower =>
    show _ ≤ r.thr - 1 + (Fintype.card T : ℤ) + 1
    omega

theorem Budget.move (h : Budget half r pc f) (ht : Tickets r pc f g)
    (hnear : r.tail < r.head + 2 * half) (hcard : Fintype.card T ≤ half)
    (hm : Move half t r f g (pc t) r' f' g' p') : Budget half r' (update pc t p') f' := by
  have h1 := Count.wsum_update owes pc t p'
  have h2 := Count.wsum_update loops pc t p'
  have h3 := Count.wsum_le_card loops_le_one (update pc t p')
  have hlow := h.lower
  have hup := h.upper
  generalize hp : pc t = p at hm h1 h2
  have issued_complete : ∀ {i k x}, update f i (f i).complete k = .filled x true →
      f k ≠ .unissued := by
    intro i k x hk hu
    rcases eq_or_ne k i with rfl | hki
    · simp [hu, Put.complete] at hk
    · simp [update_of_ne hki, hu] at hk
  cases hm with
  | issue | lose | headLate | fill =>
    exact h.still ⟨rfl, rfl⟩ (filled_of_update (by simp)) (by simp [owes]) (by simp [loops, owes])
  | useSafe | useUnsafe | headOk | thrLow | giveUp | take =>
    exact h.still ⟨rfl, rfl⟩ (fun _ _ => id) (by simp [owes]) (by simp [loops, owes])
  | thrOk k hthr =>
    have ho : owes (pc t) = 0 := by rw [hp]; rfl
    refine ⟨fun i x hi hih => ?_, hup, ?_⟩
    · rw [hthr]
      exact Budget.full ht hnear hcard ho (issued_complete hi) rfl
    · simp only [loops, owes] at h2
      omega
  | thrSet k =>
    have ho : owes (pc t) = 0 := by rw [hp]; rfl
    refine ⟨fun i x hi hih => ?_, le_rfl, ?_⟩
    · exact Budget.full ht hnear hcard ho (issued_complete hi) rfl
    · have : (0 : ℤ) ≤ top half := by
        unfold top
        have := Fintype.card_pos_iff.mpr ⟨t⟩
        omega
      show _ ≤ top half + (Fintype.card T : ℤ) + 1
      omega
  | enter hthr =>
    simp only [owes] at h1
    refine ⟨fun i x hi hih => ?_, hup, by omega⟩
    have := h.waiting i x hi hih
    omega
  | claim =>
    simp only [loops, owes] at h1 h2
    refine ⟨fun i x hi hih => ?_, hup, ?_⟩
    · have := h.waiting i x hi (Nat.le_of_succ_le hih)
      push_cast
      omega
    · show _ ≤ r.thr + (Fintype.card T : ℤ) + 1
      omega
  | found hl | mark hl | pass hl =>
    refine h.still ⟨rfl, rfl⟩ (fun _ _ => id) ?_ ?_
    · rw [hp, hl.owes]; rfl
    · rw [hp, hl.loops]; rfl
  | lastSub | loopEnd => exact h.spend (by rw [hp]; rfl) rfl (by rw [hp]; rfl) (.inl rfl)
  | loopOn hthr => exact h.spend (by rw [hp]; rfl) rfl (by rw [hp]; rfl) (.inr hthr)
  | _ => exact h.still ⟨rfl, rfl⟩ (fun _ _ => id) (by rw [hp]; rfl) (by rw [hp]; rfl)
end

/-! ## The invariant of the system -/

/-- A dequeuer that has found the ring empty. -/
def Late : Pc C E → Prop
  | .catchCas _ _ | .catchHead | .catchTail _ | .deqSub => True
  | _ => False

section
variable [Fintype T] {half : ℕ}

/-- At most `half` elements are in the ring or in the hands of running enqueues. -/
def Fits (half : ℕ) (s : Sys Ring ℕ Entry T) : Prop :=
  stored half s.ring + Count.wsum inHand s.pc ≤ half

structure Inv (half : ℕ) (s : Sys Ring ℕ Entry T) : Prop where
  tickets : Tickets s.ring s.pc s.putAt s.getAt
  contents : Contents half s.ring s.pc s.putAt s.getAt
  waste : Waste half s.ring s.putAt s.getAt
  near : s.ring.tail < s.ring.head + 2 * half
  budget : Budget half s.ring s.pc s.putAt
  instant : ∀ u, AllTaken s.putAt s.getAt → s.seen u
  late : ∀ u, Late (s.pc u) → s.seen u

variable {s s' : Sys Ring ℕ Entry T} {t : T}

theorem Inv.taken_of_lt (h : Inv half s) {k x : ℕ} {c : Bool} (hk : s.putAt k = .filled x c)
    (hlt : k < s.ring.head) : (∃ u, s.getAt k = .pending u) ∨ s.getAt k = .taken := by
  cases hg : s.getAt k with
  | unissued => exact absurd hg ((h.tickets.get_iff k).mpr hlt)
  | pending u => exact .inl ⟨u, rfl⟩
  | missed =>
    have := h.contents.slots.missed k hg
    simp [hk, Put.val] at this
  | taken => exact .inr rfl

theorem Inv.allTaken (h : Inv half s)
    (hk : ∀ k x, s.putAt k = .filled x true → k < s.ring.head) : AllTaken s.putAt s.getAt :=
  fun k x hkx => h.taken_of_lt hkx (hk k x hkx)

/-- A threshold that has run out means that no completed element waits. -/
theorem Inv.allTaken_of_thr (h : Inv half s)
    (hthr : s.ring.thr < Count.wsum owes s.pc) : AllTaken s.putAt s.getAt := by
  refine h.allTaken fun k x hk => not_le.mp fun hh => ?_
  have := h.budget.waiting k x hk hh
  omega

variable [DecidableEq T]
variable {p' p : Pc ℕ Entry} {r' : Ring}

section
variable (h : Inv half s)
include h

theorem Inv.near_move {f' : ℕ → Put T} {g' : ℕ → Get T}
    (hm : Move half t s.ring s.putAt s.getAt (s.pc t) r' f' g' p') :
    r'.tail ≤ r'.head + 2 * half := by
  have hn := h.near
  have hpt := h.tickets.point t
  generalize s.pc t = p at hm hpt
  cases hm with
  | catchUp i =>
    have : i ≤ s.ring.head := hpt.2
    show i ≤ s.ring.head + 2 * half
    omega
  | claim =>
    show s.ring.tail ≤ s.ring.head + 1 + 2 * half
    omega
  | issue x => exact hn
  | _ => exact hn.le

/-- Why a move that brings a dequeuer to an empty answer, or on the way to one,
is justified. -/
theorem Inv.seen_move {f' : ℕ → Put T} {g' : ℕ → Get T}
    (hm : Move half t s.ring s.putAt s.getAt (s.pc t) r' f' g' p')
    (hp' : Late p' ∨ p' = .idle .empty) : s.seen t := by
  have hpt := h.tickets.point t
  have hlate := h.late t
  have howes := Count.le_wsum owes s.pc t
  generalize s.pc t = p at hm hpt hlate howes
  cases hm with
  | giveUp hthr => exact h.instant t (h.allTaken_of_thr (by omega))
  | behind k hk =>
    have hlt : k < s.ring.head := hpt
    refine h.instant t (h.allTaken fun i x hi => ?_)
    have := h.tickets.put_lt i (by rw [hi]; simp)
    omega
  | loopEnd hthr =>
    have : owes (.deqLoop : Pc ℕ Entry) = 1 := rfl
    exact h.instant t (h.allTaken_of_thr (by omega))
  | catchUp | catchMiss | catchHead | caught | catchAgain | lastSub => exact hlate trivial
  | _ => simp [Late] at hp'

theorem inv_move (hhalf : 0 < half) (hcard : Fintype.card T ≤ half) {fail : Bool}
    (hgo : go half s.ring fail (s.pc t) = some (r', p')) (hfit : Fits half (s.moved id t r' p')) :
    Inv half (s.moved id t r' p') := by
  have hm := go_move (t := t) (f := s.putAt) (g := s.getAt) hgo
  have ht' := h.tickets.move hm
  have hc' := h.contents.move h.tickets hhalf hm
  have hw' := h.waste.move h.tickets h.contents hhalf h.near hm hfit
  constructor
  case tickets => exact ht'
  case contents => exact hc'
  case waste => exact hw'
  case near => exact hw'.near ht' hc' hhalf (h.near_move hm) hfit
  case budget => exact h.budget.move h.tickets h.near hcard hm
  case instant => exact fun u hu => .inr hu
  case late =>
    intro u hu
    refine .inl ?_
    rcases eq_or_ne u t with rfl | hne
    · refine h.seen_move hm (.inl ?_)
      simpa only [Sys.moved, Sys.observe, update_self] using hu
    · refine h.late u ?_
      simpa only [Sys.moved, Sys.observe, update_of_ne hne] using hu

theorem inv_call (hp : (∃ x, p = .enq x) ∨ p = .deq) (hs : s.call t p = some s') : Inv half s' := by
  unfold Sys.call at hs
  split at hs
  next v hpt =>
    cases hs
    have hput : p.put? = (s.pc t).put? := by rw [hpt]; rcases hp with ⟨x, rfl⟩ | rfl <;> rfl
    have hget : p.get? = (s.pc t).get? := by rw [hpt]; rcases hp with ⟨x, rfl⟩ | rfl <;> rfl
    have howes : owes p ≤ owes (s.pc t) := by rw [hpt]; rcases hp with ⟨x, rfl⟩ | rfl <;> rfl
    have hloops : loops p ≤ loops (s.pc t) := by rw [hpt]; rcases hp with ⟨x, rfl⟩ | rfl <;> rfl
    constructor
    case tickets =>
      exact h.tickets.still ⟨rfl, rfl⟩ hput hget (by rcases hp with ⟨x, rfl⟩ | rfl <;> trivial)
    case contents => exact h.contents.quiet rfl (by rcases hp with ⟨x, rfl⟩ | rfl <;> trivial)
    case waste => exact h.waste
    case near => exact h.near
    case budget => exact h.budget.still ⟨rfl, rfl⟩ (fun _ _ => id) howes hloops
    case instant => exact fun u hu => .inr hu
    case late =>
      intro u hu
      rcases eq_or_ne u t with rfl | hne
      · simp only [Sys.observe, update_self] at hu
        rcases hp with ⟨x, rfl⟩ | rfl <;> exact hu.elim
      · simp only [Sys.observe, update_of_ne hne] at hu ⊢
        exact .inl (h.late u hu)
  next => cases hs

/-- **Every step that does not overfill the ring keeps the invariant.** -/
theorem inv_step (hhalf : 0 < half) (hcard : Fintype.card T ≤ half) {a : Act T}
    (hs : step id (go half) s a = some s') (hfit : Fits half s') : Inv half s' := by
  cases a with
  | enq t x => exact inv_call h (.inl ⟨x, rfl⟩) hs
  | deq t => exact inv_call h (.inr rfl) hs
  | go t fail =>
    obtain ⟨⟨r', p'⟩, hgo, rfl⟩ := map_eq_some_iff.mp hs
    exact inv_move h hhalf hcard hgo hfit

end

/-- A ring that starts with `m` elements, and parties that have not called yet. -/
def start (m : ℕ) (x : ℕ → ℕ) (thr : ℤ) : Sys Ring ℕ Entry T :=
  Sys.observe {
    ring := ⟨0, m, thr, fun j => if j < m then ⟨j + 1, false, some (x j)⟩ else ⟨0, true, none⟩⟩
    pc := fun _ => .idle .fresh
    putAt := fun k => if k < m then .filled (x k) true else .unissued
    getAt := fun _ => .unissued
    seen := fun _ => False }

omit [DecidableEq T] in
/-- **The invariant holds at the start**, whether the ring is empty or not. -/
theorem inv_start {m : ℕ} {x : ℕ → ℕ} {thr : ℤ} (hm : m ≤ half) (hhalf : 0 < half)
    (hthr : -1 ≤ thr ∧ thr ≤ top half) (hfull : 0 < m → thr = top half) :
    Inv half (start m x thr : Sys Ring ℕ Entry T) := by
  have hval : ∀ k y, ((start m x thr : Sys Ring ℕ Entry T).putAt k).val = some y →
      k < m ∧ x k = y := by
    intro k y hk
    simp only [start, Sys.observe] at hk
    split at hk
    next h => exact ⟨h, some.inj hk⟩
    next => cases hk
  have hzero : ∀ f : Pc ℕ Entry → ℕ, f (.idle .fresh) = 0 →
      Count.wsum f (start m x thr : Sys Ring ℕ Entry T).pc = 0 := fun f hf =>
    (Count.wsum_eq_zero_iff _ _).mpr fun _ => hf
  constructor
  case tickets =>
    constructor
    case puts =>
      intro k u
      refine iff_of_false ?_ (by simp [start, Sys.observe, Pc.put?])
      simp only [start, Sys.observe]
      split <;> simp [Put.holder]
    case gets =>
      intro k u
      exact iff_of_false (by simp [start, Sys.observe, Get.holder])
        (by simp [start, Sys.observe, Pc.get?])
    case put_lt =>
      intro k hk
      by_contra hc
      exact hk (if_neg hc)
    case issued =>
      intro k _ hk
      have : (start m x thr : Sys Ring ℕ Entry T).putAt k = .filled (x k) true := if_pos hk
      rw [this]
      simp
    case get_iff => exact fun k => iff_of_false (by simp [start, Sys.observe]) (Nat.not_lt_zero k)
    case point => exact fun u => trivial
  case contents =>
    refine ⟨?_, fun u => trivial⟩
    constructor
    case residue =>
      intro j hj k hk
      simp only [start, Sys.observe] at hk
      split at hk
      next => exact (Nat.succ.inj hk) ▸ Nat.mod_eq_of_lt hj
      next => cases hk
    case held =>
      intro k y hk _
      obtain ⟨hlt, rfl⟩ := hval k y hk
      have hmod : k % (2 * half) = k := Nat.mod_eq_of_lt (by omega)
      rw [hmod]
      simp [start, Sys.observe, hlt]
    case stored =>
      intro j hj y hy
      simp only [start, Sys.observe] at hy ⊢
      split at hy
      next h => exact ⟨j, by simp [h], by simpa [h, Put.val] using hy, by simp⟩
      next => cases hy
    case vacated =>
      intro j hj k h1 h2
      simp only [start, Sys.observe] at h1 h2
      split at h1
      next => cases h1
      next h => exact absurd h2 (by simp [h])
    case taken => exact fun k hk => absurd hk (by simp [start, Sys.observe])
    case missed => exact fun k hk => absurd hk (by simp [start, Sys.observe])
    case barred => exact fun k hk => absurd hk (by simp [start, Sys.observe])
  case waste =>
    refine ⟨fun _ => 0, fun _ => ∅, fun k hk => ?_⟩
    simp only [start, Sys.observe] at hk
    split at hk <;> cases hk
  case near =>
    show m < 0 + 2 * half
    omega
  case budget =>
    constructor
    case waiting =>
      intro k y hk _
      obtain ⟨hlt, -⟩ := hval k y (by rw [hk]; rfl)
      rw [hzero owes rfl]
      have := hfull (by omega)
      show (k : ℤ) + 0 ≤ thr + 0
      unfold top at this
      omega
    case upper => exact hthr.2
    case lower =>
      rw [hzero loops rfl]
      show (0 : ℤ) ≤ thr + Fintype.card T + 1
      omega
  case instant => exact fun u hu => .inr hu
  case late => exact fun u hu => hu.elim

/-- **A returned element was stored at the position its dequeuer holds.** -/
theorem take_value (h : Inv half s) (hhalf : 0 < half) {fail : Bool} {v : ℕ}
    (hgo : go half s.ring fail (s.pc t) = some (r', .idle (.value v))) :
    ∃ k c, s.putAt k = .filled v c ∧ s.getAt k = .pending t ∧
      (s.moved id t r' (.idle (.value v))).getAt k = .taken := by
  have hm := go_move (t := t) (f := s.putAt) (g := s.getAt) hgo
  have hpt := h.contents.point t
  show ∃ k c, _ ∧ _ ∧ noteDeq id t (s.pc t) (.idle (.value v)) s.getAt k = .taken
  generalize noteDeq id t (s.pc t) (.idle (.value v)) s.getAt = g' at hm
  generalize noteEnq id t (s.pc t) (.idle (.value v)) s.putAt = f' at hm
  generalize hp : s.pc t = p at hm hpt
  generalize hv : (Pc.idle (.value v) : Pc ℕ Entry) = q at hm
  cases hm with
  | take k e =>
    obtain ⟨hs, hi, hne⟩ := hpt
    obtain ⟨x, hx⟩ := ne_none_iff_exists'.mp hne
    obtain ⟨k', hk', hval, -⟩ :=
      h.contents.slots.stored _ (Nat.mod_lt _ (by omega)) x (hi.trans hx)
    obtain rfl : k = k' := by omega
    obtain ⟨c, hc⟩ := Put.val_eq_some.mp hval
    obtain rfl : v = x := by simpa [hx] using hv
    exact ⟨k, c, hc, h.tickets.pending_get (by rw [hp]; rfl), update_self ..⟩
  | _ => cases hv

/-- **An empty answer is justified**: since the call began there was an instant at
which everything was taken. -/
theorem empty_seen (h : Inv half s) {fail : Bool}
    (hgo : go half s.ring fail (s.pc t) = some (r', .idle .empty)) : s.seen t :=
  h.seen_move (go_move hgo) (.inr rfl)

omit [Fintype T] in
theorem call_history (hs : s.call t p = some s') : s'.putAt = s.putAt ∧ s'.getAt = s.getAt := by
  unfold Sys.call at hs
  split at hs
  · cases hs
    exact ⟨rfl, rfl⟩
  · cases hs

/-- **Nothing that was stored or taken is forgotten.** -/
theorem step_history (h : Inv half s) {a : Act T} (hs : step id (go half) s a = some s') :
    (∀ k x, (s.putAt k).val = some x → (s'.putAt k).val = some x) ∧
      ∀ k, s.getAt k = .taken → s'.getAt k = .taken := by
  cases a with
  | enq | deq =>
    obtain ⟨h1, h2⟩ := call_history hs
    rw [h1, h2]
    exact ⟨fun _ _ => id, fun _ => id⟩
  | go t fail =>
    obtain ⟨⟨r', p'⟩, hgo, rfl⟩ := map_eq_some_iff.mp hs
    have hm := go_move (t := t) (f := s.putAt) (g := s.getAt) hgo
    exact ⟨fun k x hk => h.tickets.filled_stays hm hk, fun k hk => h.tickets.taken_stays hm hk⟩

end

end Scq
