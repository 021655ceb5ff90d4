/-
# `Core.LfqueueStep` — every step keeps the block queue's invariant

The steps that write shared memory, one after the other: the link of the node to
be enqueued, `tail`, the count at the end of a queue, the link that appends a
waiter, the `head` that takes one, and what `bmk_block_queue_wake` does with the
old sentinel.  For each of them the memory stays in shape (`Shape`) and the others
may rely on what it does (`Rely`).
-/
import Librettos.Core.LfqueueInv

namespace Librettos.Lfqueue

open Ghost List
open Function (update update_of_ne update_self)

section
variable {Q N T C : Type} {c : C} {m m' : Mem Q N T} {g g' : Ghost Q N T C} {pc : C → Pc Q N T}
  {q : Q} {t x : T} {n n' tv : N} {h ts nt k : ℕ}
variable {sp : Spot N C}

section
variable (hS : Shape m g)
include hS

theorem Shape.ne_of_hand (hn : g.place n = .hand c) {q : Q} {n' : N}
    (hm : n' ∈ g.chain q) : n' ≠ n := by
  rintro rfl
  rw [hS.place q n' hm] at hn
  cases hn

theorem Shape.ends_at (hm : tv ∈ g.chain q) (hk : (m.next tv).2 = .cnt k) :
    k = g.count q ∧ ∃ l, g.chain q = l ++ [tv] :=
  (hS.linked q).end_of_cnt hm hk

theorem Shape.chain_unique {q q' : Q} (hm : n ∈ g.chain q) (hm' : n ∈ g.chain q') : q' = q := by
  have h1 := hS.place q n hm
  rw [hS.place q' n hm'] at h1
  exact Place.chain.inj h1

/-! ### The link of the node to be enqueued -/

theorem Shape.setNext_own [DecidableEq N] (hn : g.place n = .hand c) (w : ℕ × Link N) :
    Shape (m.setNext n w) g := { hS with
  linked q := (hS.linked q).congr fun n' hm => by
    simp [update_of_ne (hS.ne_of_hand hn hm)] }

theorem Rely.setNext_own [DecidableEq N] (hn : g.place n = .hand c) {w : ℕ × Link N}
    (hw : (m.next n).1 ≤ w.1) : Rely c m (m.setNext n w) g g := { Rely.refl c m g with
  stamp n' := by
    by_cases hne : n' = n
    · subst hne
      simpa using hw
    · simp [update_of_ne hne]
  link q n' hm := .inl (by simp [update_of_ne (hS.ne_of_hand hn hm)])
  hold c' n' hc hn' := by
    refine ⟨?_, rfl, hn'⟩
    have hne : n' ≠ n := by
      rintro rfl
      rw [hn] at hn'
      exact hc (Place.hand.inj hn').symm
    simp [update_of_ne hne] }

/-! ### `tail` moves on -/

theorem Shape.setTail [DecidableEq Q] (hn : n ∈ g.chain q) (ts : ℕ) :
    Shape (m.setTail q (ts, n)) g := { hS with
  tail q' := by
    by_cases hq : q' = q
    · subst hq
      simpa using hn
    · simpa [update_of_ne hq] using hS.tail q' }

theorem Shape.ne_head (hn : n ∈ (g.chain q).tail) : n ≠ (m.head q).2 := by
  obtain ⟨l, hl⟩ := hS.head q
  have hd := hS.nodup q
  rw [hl] at hn hd
  rintro rfl
  exact (nodup_cons.mp hd).1 hn

theorem Rely.setTail [DecidableEq Q] (hn : n ∈ (g.chain q).tail)
    (hts : (m.tail q).1 < ts) : Rely c m (m.setTail q (ts, n)) g g := { Rely.refl c m g with
  tail q' := by
    by_cases hq : q' = q
    · subst hq
      exact .inr (by simpa using hts)
    · exact .inl (by simp [update_of_ne hq])
  ahead q' _ ht := by
    by_cases hq : q' = q
    · subst hq
      rw [Mem.setTail_tail, update_self] at ht
      exact absurd ht (hS.ne_head hn)
    · simp [update_of_ne hq] }

/-! ### The link at the end of a queue changes -/

/-- What the others see of it, whatever the new link is. -/
theorem Rely.setNext_end [DecidableEq N] (hm : tv ∈ g.chain q)
    (hk : (m.next tv).2 = .cnt k) {w : ℕ × Link N} (hw : (m.next tv).1 < w.1)
    (hchain : ∀ q n, n ∈ g.chain q → n ∈ g'.chain q)
    (hplace : ∀ c' n, c' ≠ c → g.place n = .hand c' → g'.place n = .hand c')
    (hspot : ∀ c' t, c' ≠ c → (g'.spot t = .hand c' ↔ g.spot t = .hand c')) :
    Rely c m (m.setNext tv w) g g' := { Rely.refl c m g with
  stamp n' := by
    by_cases hne : n' = tv
    · subst hne
      simpa using hw.le
    · simp [update_of_ne hne]
  link q' n' _ := by
    by_cases hne : n' = tv
    · subst hne
      exact .inr ⟨by simpa using hw, k, hk⟩
    · exact .inl (by simp [update_of_ne hne])
  last q' n' _ hn' _ := hchain q' n' hn'
  hold c' n' hc hn' := by
    have hne : n' ≠ tv := (hS.ne_of_hand hn' hm).symm
    exact ⟨by simp [update_of_ne hne], rfl, hplace c' n' hc hn'⟩
  spot := hspot }

/-- The ghost with another count at the end of `q`. -/
def Ghost.setCount [DecidableEq Q] (g : Ghost Q N T C) (q : Q) (k : ℕ) : Ghost Q N T C :=
  { g with count := update g.count q k }

theorem Shape.setCount [DecidableEq Q] [DecidableEq N] (hm : tv ∈ g.chain q)
    (hk : (m.next tv).2 = .cnt k) (hnil : (g.chain q).tail = []) (s j : ℕ) :
    Shape (m.setNext tv (s, .cnt j)) (g.setCount q j) := { hS with
  linked q' := by
    obtain ⟨_, l, hl⟩ := hS.ends_at hm hk
    by_cases hq : q' = q
    · subst hq
      have hlink := hS.linked q'
      have hd := hS.nodup q'
      rw [hl] at hlink hd
      simp only [setCount, update_self, hl]
      refine hlink.set_end (fun n' hn' => ?_) (by simp)
      have hne : n' ≠ tv := by
        rintro rfl
        exact (disjoint_of_nodup_append hd) hn' (by simp)
      simp [update_of_ne hne]
    · simp only [Ghost.setCount, update_of_ne hq]
      refine (hS.linked q').congr fun n' hn' => ?_
      have hne : n' ≠ tv := by
        rintro rfl
        exact hq (hS.chain_unique hm hn')
      simp [update_of_ne hne]
  excl q' hne := by
    by_cases hq : q' = q
    · subst hq
      exact absurd hnil hne
    · simpa [Ghost.setCount, update_of_ne hq] using hS.excl q' hne }

end

/-! ### A node and a thread change hands -/

/-- The ghost with the node `n` and the thread `t` moved. -/
def Ghost.move [DecidableEq N] [DecidableEq T] (g : Ghost Q N T C) (n : N) (pl : Place Q T C)
    (t : T) (sp : Spot N C) : Ghost Q N T C :=
  { g with
    place := update g.place n pl
    spot := update g.spot t sp }

/-- The node was in the hands of `c`, so that others do not mind. -/
theorem move_place [DecidableEq N] [DecidableEq T] (pl : Place Q T C) (t : T) (sp : Spot N C)
    (hn : g.place n = .hand c) (c' : C) (n' : N) (hc : c' ≠ c) (hn' : g.place n' = .hand c') :
    (g.move n pl t sp).place n' = .hand c' := by
  have hne : n' ≠ n := by
    rintro rfl
    rw [hn] at hn'
    exact hc (Place.hand.inj hn').symm
  simpa [move, update_of_ne hne] using hn'

theorem move_spot [DecidableEq N] [DecidableEq T] (n : N) (pl : Place Q T C)
    (ht : ∀ c', c' ≠ c → g.spot t ≠ .hand c') (hsp : ∀ c', c' ≠ c → sp ≠ .hand c') (c' : C)
    (t' : T) (hc : c' ≠ c) : (g.move n pl t sp).spot t' = .hand c' ↔ g.spot t' = .hand c' := by
  by_cases hne : t' = t
  · subst hne
    simp [move, hsp c' hc, ht c' hc]
  · simp [move, update_of_ne hne]

theorem move_thread [DecidableEq T] {o o' : Option T}
    (hold : ∀ t', o = some t' ↔ g.spot t' = .hand c) (ho : o = some t ∨ o = none)
    (ho' : o' = some t ∧ sp = .hand c ∨ o' = none ∧ sp ≠ .hand c) (t' : T) :
    o' = some t' ↔ update g.spot t sp t' = .hand c := by
  by_cases hne : t' = t
  · subst hne
    rcases ho' with ⟨rfl, rfl⟩ | ⟨rfl, hsp⟩
    · simp
    · simp [hsp]
  · have hnot : g.spot t' ≠ .hand c := fun h => by
      have := (hold t').mpr h
      rcases ho with rfl | rfl <;> simp [Ne.symm hne] at this
    rcases ho' with ⟨rfl, -⟩ | ⟨rfl, -⟩ <;> simp [update_of_ne hne, hnot, Ne.symm hne]

theorem spot_ne_hand (h : sp = .hand c) (c' : C) (hc : c' ≠ c) : sp ≠ .hand c' := by
  rw [h]
  rintro ⟨⟩
  exact hc rfl

section
variable (hS : Shape m g)
include hS

theorem Shape.waits_ne (ht : ∀ n, g.spot t ≠ .waits n) {n' : N}
    (hn' : n' ∈ (g.chain q).tail) : m.object n' ≠ t := by
  rintro rfl
  exact ht n' (hS.waits q n' hn')

theorem Shape.own_ne (hn : ∀ t, g.place n ≠ .own t) (ht : g.spot t = .free) : m.node t ≠ n := by
  rintro rfl
  exact hn t (hS.own t ht).1

theorem Shape.move_own [DecidableEq N] [DecidableEq T] {pl : Place Q T C}
    (hn : ∀ t', t' ≠ t → g.place n ≠ .own t')
    (hsp : sp = .free → pl = .own t ∧ m.node t = n ∧ m.object n = t) (t' : T)
    (hf : (g.move n pl t sp).spot t' = .free) :
    (g.move n pl t sp).place (m.node t') = .own t' ∧ m.object (m.node t') = t' := by
  by_cases hne : t' = t
  · subst hne
    obtain ⟨rfl, rfl, ho⟩ := hsp (by simpa [move] using hf)
    simp [move, ho]
  · have hown := hS.own t' (by simpa [move, update_of_ne hne] using hf)
    have hnn : m.node t' ≠ n := by
      rintro rfl
      exact hn t' hne hown.1
    simpa [move, update_of_ne hnn] using hown

theorem Shape.move_waiting [DecidableEq T]
    (hsp : ∀ n', sp ≠ .waits n') (t' : T) (n' : N) (hw : update g.spot t sp t' = .waits n') :
    t' ≠ t ∧ ∃ q, n' ∈ (g.chain q).tail ∧ m.object n' = t' := by
  have hne : t' ≠ t := by
    rintro rfl
    exact hsp n' (by simpa using hw)
  exact ⟨hne, hS.waiting t' n' (by simpa [update_of_ne hne] using hw)⟩

theorem Shape.move_free [DecidableEq T] {b : Bool} (hb : b = true ↔ sp = .free) (t' : T) :
    update m.free t b t' = true ↔ update g.spot t sp t' = .free := by
  by_cases hne : t' = t
  · subst hne
    simpa using hb
  · simpa [update_of_ne hne] using hS.free t'

theorem Shape.release [DecidableEq N] [DecidableEq T]
    (hn : g.place n = .hand c) (ht : g.spot t = .hand c) (ho : m.object n = t)
    (hnode : m.node t = n) : Shape (m.setFree t true) (g.move n (.own t) t .free) := { hS with
  place q n' hm := by
    simpa [move, update_of_ne (hS.ne_of_hand hn hm)] using hS.place q n' hm
  waits q n' hm := by
    have hne : m.object n' ≠ t := hS.waits_ne (by simp [ht]) hm
    simpa [move, update_of_ne hne] using hS.waits q n' hm
  waiting t' n' hw := (hS.move_waiting (by simp) t' n' hw).2
  own := hS.move_own (by simp [hn]) fun _ => ⟨rfl, hnode, ho⟩
  free := hS.move_free (by simp) }

theorem Shape.take [DecidableEq N] [DecidableEq T] (ht : g.spot t = .free) :
    Shape (m.setFree t false) (g.move (m.node t) (.hand c) t (.hand c)) := { hS with
  place q n' hm := by
    have hne : n' ≠ m.node t := by
      rintro rfl
      have h1 := (hS.own t ht).1
      rw [hS.place q _ hm] at h1
      cases h1
    simpa [move, update_of_ne hne] using hS.place q n' hm
  waits q n' hm := by
    have hne : m.object n' ≠ t := hS.waits_ne (by simp [ht]) hm
    simpa [move, update_of_ne hne] using hS.waits q n' hm
  waiting t' n' hw := (hS.move_waiting (by simp) t' n' hw).2
  own := hS.move_own (fun t' hne => by simp [(hS.own t ht).1, Ne.symm hne]) (by simp)
  free := hS.move_free (by simp) }

end

theorem Rely.setFree [DecidableEq T] (b : Bool) (hchain : g'.chain = g.chain)
    (hplace : ∀ c' n, c' ≠ c → g.place n = .hand c' → g'.place n = .hand c')
    (hspot : ∀ c' t, c' ≠ c → (g'.spot t = .hand c' ↔ g.spot t = .hand c')) :
    Rely c m (m.setFree t b) g g' := { Rely.refl c m g with
  last _ _ _ hm _ := hchain ▸ hm
  hold c' n' hc hn' := ⟨rfl, rfl, hplace c' n' hc hn'⟩
  spot := hspot }

/-! ### The released thread gets the old sentinel -/

theorem Shape.setObject [DecidableEq N] (hS : Shape m g) (hn : g.place n = .hand c) (x : T) :
    Shape (m.setObject n x) g := { hS with
  waits q n' hm := by
    have hne : n' ≠ n := hS.ne_of_hand hn (mem_of_mem_tail hm)
    simpa [update_of_ne hne] using hS.waits q n' hm
  waiting t' n' hw := by
    obtain ⟨q, hm, ho⟩ := hS.waiting t' n' hw
    have hne : n' ≠ n := hS.ne_of_hand hn (mem_of_mem_tail hm)
    exact ⟨q, hm, by simpa [update_of_ne hne] using ho⟩
  own t' hf := by
    have hne : m.node t' ≠ n := hS.own_ne (by simp [hn]) hf
    simpa [update_of_ne hne] using hS.own t' hf }

theorem Rely.setObject [DecidableEq N] (hS : Shape m g) (hn : g.place n = .hand c) (x : T) :
    Rely c m (m.setObject n x) g g := { Rely.refl c m g with
  object q n' hm := by simp [update_of_ne (hS.ne_of_hand hn hm)]
  hold c' n' hc hn' := by
    refine ⟨rfl, ?_, hn'⟩
    have hne : n' ≠ n := by
      rintro rfl
      rw [hn] at hn'
      exact hc (Place.hand.inj hn').symm
    simp [update_of_ne hne] }

theorem Shape.setNode [DecidableEq T] (hS : Shape m g) (hx : g.spot x = .hand c) (n : N) :
    Shape (m.setNode x n) g := { hS with
  own t' hf := by
    have hne : t' ≠ x := by
      rintro rfl
      rw [hf] at hx
      cases hx
    simpa [update_of_ne hne] using hS.own t' hf }

theorem Rely.setNode [DecidableEq T] (hx : g.spot x = .hand c) (n : N) :
    Rely c m (m.setNode x n) g g := { Rely.refl c m g with
  holdThread c' t' hc ht' := by
    have hne : t' ≠ x := by
      rintro rfl
      rw [hx] at ht'
      exact hc (Spot.hand.inj ht').symm
    simp [update_of_ne hne] }

/-! ### A node is linked to the end -/

/-- The ghost after the thread `t` was appended with the node `n`. -/
def Ghost.link [DecidableEq Q] [DecidableEq N] [DecidableEq T] (g : Ghost Q N T C) (q : Q) (n : N)
    (t : T) : Ghost Q N T C :=
  { g.move n (.chain q) t (.waits n) with
    chain := update g.chain q (g.chain q ++ [n]) }

theorem Shape.tail_snoc (hS : Shape m g) (q : Q) (n : N) :
    (g.chain q ++ [n]).tail = (g.chain q).tail ++ [n] := by
  obtain ⟨l, hl⟩ := hS.head q
  rw [hl]
  rfl

theorem mem_link_chain [DecidableEq Q] [DecidableEq N] [DecidableEq T] {q' : Q}
    (hm : n' ∈ (g.link q n t).chain q') : n' ∈ g.chain q' ∨ q' = q ∧ n' = n := by
  by_cases hq : q' = q
  · subst hq
    simpa [link] using hm
  · exact .inl (by simpa [link, update_of_ne hq] using hm)

section
variable (hS : Shape m g)
include hS

theorem Shape.mem_link_tail [DecidableEq Q] [DecidableEq N] [DecidableEq T]
    {q' : Q} (hm : n' ∈ ((g.link q n t).chain q').tail) :
    n' ∈ (g.chain q').tail ∨ q' = q ∧ n' = n := by
  by_cases hq : q' = q
  · subst hq
    simpa [link, hS.tail_snoc] using hm
  · exact .inl (by simpa [link, update_of_ne hq] using hm)

theorem Shape.link [DecidableEq Q] [DecidableEq N] [DecidableEq T]
    (hm : tv ∈ g.chain q) (hk : (m.next tv).2 = .cnt 0) (hn : g.place n = .hand c)
    (ht : g.spot t = .hand c) (ho : Own m t n) (s : ℕ) :
    Shape (m.setNext tv (s, .ptr n)) (g.link q n t) where
  head q' := by
    obtain ⟨l, hl⟩ := hS.head q'
    by_cases hq : q' = q
    · subst hq
      exact ⟨l ++ [n], by simp [link, hl]⟩
    · exact ⟨l, by simp [Ghost.link, update_of_ne hq, hl]⟩
  linked q' := by
    obtain ⟨hcount, l, hl⟩ := hS.ends_at hm hk
    by_cases hq : q' = q
    · subst hq
      have hlink := hS.linked q'
      have hd := hS.nodup q'
      have hntv : n ≠ tv := (hS.ne_of_hand hn hm).symm
      rw [hl] at hlink hd
      simp only [link, move, update_self, hl, ← hcount]
      refine hlink.snoc (fun n' hn' => ?_) (by simp) (by simp [update_of_ne hntv, ho.blank])
      have hne : n' ≠ tv := by
        rintro rfl
        exact (disjoint_of_nodup_append hd) hn' (by simp)
      simp [update_of_ne hne]
    · simp only [Ghost.link, Ghost.move, update_of_ne hq]
      refine (hS.linked q').congr fun n' hn' => ?_
      have hne : n' ≠ tv := by
        rintro rfl
        exact hq (hS.chain_unique hm hn')
      simp [update_of_ne hne]
  excl q' hne := by
    by_cases hq : q' = q
    · subst hq
      exact (hS.ends_at hm hk).1.symm
    · exact hS.excl q' (by simpa [Ghost.link, update_of_ne hq] using hne)
  nodup q' := by
    by_cases hq : q' = q
    · subst hq
      have hnew : n ∉ g.chain q' := fun hin => hS.ne_of_hand hn hin rfl
      simp only [link, update_self, nodup_append, hS.nodup q', true_and,
        nodup_singleton, mem_singleton, forall_eq]
      exact fun a ha heq => hnew (heq ▸ ha)
    · simpa [Ghost.link, update_of_ne hq] using hS.nodup q'
  tail q' := by
    by_cases hq : q' = q
    · subst hq
      simpa [link] using Or.inl (hS.tail q')
    · simpa [Ghost.link, update_of_ne hq] using hS.tail q'
  place q' n' hm' := by
    rcases mem_link_chain hm' with hin | ⟨rfl, rfl⟩
    · simpa [Ghost.link, Ghost.move, update_of_ne (hS.ne_of_hand hn hin)]
        using hS.place q' n' hin
    · simp [link, move]
  waits q' n' hm' := by
    rcases hS.mem_link_tail hm' with hin | ⟨rfl, rfl⟩
    · have hne : m.object n' ≠ t := hS.waits_ne (by simp [ht]) hin
      simpa [Ghost.link, Ghost.move, update_of_ne hne] using hS.waits q' n' hin
    · simp [link, move, ho.object]
  waiting t' n' hw := by
    by_cases hne : t' = t
    · subst hne
      obtain rfl : n = n' := by simpa [link, move] using hw
      exact ⟨q, by simp [link, hS.tail_snoc], ho.object⟩
    · obtain ⟨q', hin, hobj⟩ := hS.waiting t' n'
        (by simpa [Ghost.link, Ghost.move, update_of_ne hne] using hw)
      refine ⟨q', ?_, hobj⟩
      by_cases hq : q' = q
      · subst hq
        simp [link, hS.tail_snoc, hin]
      · simpa [Ghost.link, update_of_ne hq] using hin
  own := hS.move_own (by simp [hn]) (by simp)
  free t' := by
    have hb : m.free t = true ↔ Spot.waits (C := C) n = .free := by simp [hS.free, ht]
    simpa [Ghost.link, Ghost.move] using hS.move_free (t := t) hb t'

/-! ### The sentinel is taken off -/

/-- The ghost after the first waiter `x` was taken; the old sentinel `n` is in
the hands of `c`. -/
def Ghost.pop [DecidableEq Q] [DecidableEq N] [DecidableEq T] (g : Ghost Q N T C) (c : C) (q : Q)
    (n : N) (x : T) : Ghost Q N T C :=
  { g.move n (.hand c) x (.hand c) with
    chain := update g.chain q (g.chain q).tail }

section
variable (hn : (m.head q).2 = n) (hp : (m.next n).2 = .ptr n')
include hn hp

theorem Shape.two : ∃ l, g.chain q = n :: n' :: l := by
  obtain ⟨l, hl⟩ := hS.head q
  have hlink := hS.linked q
  rw [hl, hn] at hlink
  obtain ⟨l', rfl⟩ := hlink.cons_of_ptr hp
  exact ⟨l', by rw [hl, hn]⟩

theorem Shape.spot_next (hx : m.object n' = x) : g.spot x = .waits n' := by
  obtain ⟨l, hl⟩ := hS.two hn hp
  exact hx ▸ hS.waits q n' (by simp [hl])

theorem Shape.pop [DecidableEq Q] [DecidableEq N] [DecidableEq T] (htail : (m.tail q).2 ≠ n)
    (hx : m.object n' = x) (s : ℕ) : Shape (m.setHead q (s, n')) (g.pop c q n x) where
  head q' := by
    by_cases hq : q' = q
    · subst hq
      obtain ⟨l, hl⟩ := hS.two hn hp
      exact ⟨l, by simp [pop, hl]⟩
    · simpa [Ghost.pop, update_of_ne hq] using hS.head q'
  linked q' := by
    by_cases hq : q' = q
    · subst hq
      obtain ⟨l, hl⟩ := hS.two hn hp
      have hlink := hS.linked q'
      rw [hl] at hlink
      simpa [pop, move, hl] using hlink.tail
    · simpa [Ghost.pop, Ghost.move, update_of_ne hq] using hS.linked q'
  excl q' hne := by
    by_cases hq : q' = q
    · subst hq
      obtain ⟨l, hl⟩ := hS.two hn hp
      exact hS.excl q' (by simp [hl])
    · exact hS.excl q' (by simpa [Ghost.pop, update_of_ne hq] using hne)
  nodup q' := by
    by_cases hq : q' = q
    · subst hq
      simpa [pop] using (hS.nodup q').tail
    · simpa [Ghost.pop, update_of_ne hq] using hS.nodup q'
  tail q' := by
    by_cases hq : q' = q
    · subst hq
      obtain ⟨l, hl⟩ := hS.two hn hp
      have hin := hS.tail q'
      rw [hl] at hin
      simpa [pop, hl] using (mem_cons.mp hin).resolve_left htail
    · simpa [Ghost.pop, update_of_ne hq] using hS.tail q'
  place q' a hm := by
    have hin : a ∈ g.chain q' ∧ a ≠ n := by
      by_cases hq : q' = q
      · subst hq
        have hmem : a ∈ (g.chain q').tail := by simpa [pop] using hm
        exact ⟨mem_of_mem_tail hmem, hn ▸ hS.ne_head hmem⟩
      · have hmem : a ∈ g.chain q' := by simpa [Ghost.pop, update_of_ne hq] using hm
        refine ⟨hmem, ?_⟩
        rintro rfl
        exact hq (hS.chain_unique (hn ▸ hS.head_mem q) hmem)
    simpa [Ghost.pop, Ghost.move, update_of_ne hin.2] using hS.place q' a hin.1
  waits q' a hm := by
    obtain ⟨l, hl⟩ := hS.two hn hp
    have hin : a ∈ (g.chain q').tail ∧ a ≠ n' := by
      by_cases hq : q' = q
      · subst hq
        have hmem : a ∈ l := by simpa [pop, hl] using hm
        have hd := hS.nodup q'
        rw [hl] at hd
        refine ⟨by simp [hl, hmem], ?_⟩
        rintro rfl
        exact (nodup_cons.mp (nodup_cons.mp hd).2).1 hmem
      · have hmem : a ∈ (g.chain q').tail := by
          simpa [Ghost.pop, update_of_ne hq] using hm
        refine ⟨hmem, ?_⟩
        rintro rfl
        exact hq (hS.chain_unique (by simp [hl] : a ∈ g.chain q) (mem_of_mem_tail hmem))
    have hne : m.object a ≠ x := by
      intro heq
      have h1 := hS.waits q' a hin.1
      rw [heq, hS.spot_next hn hp hx] at h1
      exact hin.2 (Spot.waits.inj h1).symm
    simpa [Ghost.pop, Ghost.move, update_of_ne hne] using hS.waits q' a hin.1
  waiting t' a hw := by
    obtain ⟨l, hl⟩ := hS.two hn hp
    obtain ⟨hne, q', hin, hobj⟩ := hS.move_waiting (by simp) t' a hw
    refine ⟨q', ?_, hobj⟩
    by_cases hq : q' = q
    · subst hq
      rw [hl] at hin
      rcases mem_cons.mp hin with rfl | hin
      · exact absurd (hobj.symm.trans hx) hne
      · simpa [pop, hl] using hin
    · simpa [Ghost.pop, update_of_ne hq] using hin
  own := hS.move_own (by simp [hS.place q n (hn ▸ hS.head_mem q)]) (by simp)
  free t' := by
    have hb : m.free x = true ↔ Spot.hand (N := N) c = .free := by
      simp [hS.free, hS.spot_next hn hp hx]
    simpa [Ghost.pop, Ghost.move] using hS.move_free (t := x) hb t'

theorem Rely.pop [DecidableEq Q] [DecidableEq N] [DecidableEq T] (hx : m.object n' = x) {s : ℕ}
    (hs : (m.head q).1 < s) : Rely c m (m.setHead q (s, n')) g (g.pop c q n x) := { Rely.refl c m g with
  head q' := by
    by_cases hq : q' = q
    · subst hq
      exact .inr (by simpa using hs)
    · exact .inl (by simp [update_of_ne hq])
  ahead _ _ _ := rfl
  last q' a k hm hk := by
    by_cases hq : q' = q
    · subst hq
      obtain ⟨l, hl⟩ := hS.two hn hp
      rw [hl] at hm
      rcases mem_cons.mp hm with rfl | hm
      · rw [hp] at hk
        cases hk
      · simpa [pop, hl] using hm
    · simpa [Ghost.pop, update_of_ne hq] using hm
  first q' k hk := by
    by_cases hq : q' = q
    · subst hq
      rw [hn, hp] at hk
      cases hk
    · simp [update_of_ne hq]
  hold c' a hc ha := by
    refine ⟨rfl, rfl, ?_⟩
    have hne : a ≠ n := by
      rintro rfl
      rw [hS.place q a (hn ▸ hS.head_mem q)] at ha
      cases ha
    simpa [Ghost.pop, Ghost.move, update_of_ne hne] using ha
  spot := move_spot n (.hand c) (by simp [hS.spot_next hn hp hx]) (spot_ne_hand rfl) }

end

end

end

/-! ## What the clients see -/

section
variable {Q N T C : Type} [DecidableEq Q] {m : Mem Q N T} {g : Ghost Q N T C} {q : Q} {t x : T}
  {n n' tv : N} {k : ℕ} {a : Q → BlockQueue T}

/-- The block queues that a memory stands for. -/
def Shows (m : Mem Q N T) (g : Ghost Q N T C) (a : Q → BlockQueue T) : Prop :=
  ∀ q, (a q).waiters = (g.chain q).tail.map m.object ∧ (a q).pending = g.count q

/-- The block queues before and after a step. -/
def Next [DecidableEq T] (a : Q → BlockQueue T) : Option (Ev Q T) → (Q → BlockQueue T) → Prop
  | none, a' => a' = a
  | some e, a' => replayOne a e = some a'

omit [DecidableEq Q] in
theorem Shows.setObject [DecidableEq N] {c : C} (ha : Shows m g a) (hS : Shape m g)
    (hn : g.place n = .hand c) (x : T) : Shows (m.setObject n x) g a := by
  intro q
  obtain ⟨h1, h2⟩ := ha q
  refine ⟨h1.trans (map_congr_left fun n' hm => ?_), h2⟩
  have hne : n' ≠ n := hS.ne_of_hand hn (mem_of_mem_tail hm)
  simp [update_of_ne hne]

variable [DecidableEq N] [DecidableEq T]

theorem Shows.passes (ha : Shows m g a) (hS : Shape m g) (hm : tv ∈ g.chain q)
    (hk : (m.next tv).2 = .cnt k) (hk0 : k ≠ 0) (s : ℕ) (t : T) :
    ∃ a', Shows (m.setNext tv (s, .cnt (k - 1))) (g.setCount q (k - 1)) a' ∧
      Next a (some (.passes q t)) a' := by
  obtain ⟨hw, hpend⟩ := ha q
  rw [← (hS.ends_at hm hk).1] at hpend
  rcases (a q).block_cases t with ⟨h0, _⟩ | ⟨_, h2, hnil, h3, h4⟩
  · exact absurd (hpend.symm.trans h0) hk0
  refine ⟨update a q ((a q).block t).1, fun q' => ?_, by simp [Next, replayOne, h2]⟩
  by_cases hq : q' = q
  · subst hq
    simp only [update_self, setCount, h3, Mem.setNext_object]
    exact ⟨hnil.symm.trans hw, by omega⟩
  · simpa [update_of_ne hq, setCount] using ha q'

theorem Shows.banks (ha : Shows m g a) (hS : Shape m g) (hm : tv ∈ g.chain q)
    (hk : (m.next tv).2 = .cnt k) (hnil : (g.chain q).tail = []) (s : ℕ) :
    ∃ a', Shows (m.setNext tv (s, .cnt (k + 1))) (g.setCount q (k + 1)) a' ∧
      Next a (some (.banks q)) a' := by
  obtain ⟨hw, hpend⟩ := ha q
  rw [← (hS.ends_at hm hk).1] at hpend
  rw [hnil, map_nil] at hw
  rcases (a q).wake_cases with ⟨_, h2, h3, h4⟩ | ⟨t, l, h1, _⟩
  · refine ⟨update a q (a q).wake.1, fun q' => ?_, by simp [Next, replayOne, h2]⟩
    by_cases hq : q' = q
    · subst hq
      simp [setCount, h3, h4, hnil, hpend]
    · simpa [update_of_ne hq, setCount] using ha q'
  · rw [hw] at h1
    cases h1

theorem Shows.waits (ha : Shows m g a) (hS : Shape m g) (hm : tv ∈ g.chain q)
    (hk : (m.next tv).2 = .cnt 0) (ho : m.object n = t) (s : ℕ) :
    ∃ a', Shows (m.setNext tv (s, .ptr n)) (g.link q n t) a' ∧ Next a (some (.waits q t)) a' := by
  obtain ⟨hw, hpend⟩ := ha q
  have h0 := (hS.ends_at hm hk).1
  rcases (a q).block_cases t with ⟨_, h2, h3, h4⟩ | ⟨h1, _⟩
  · refine ⟨update a q ((a q).block t).1, fun q' => ?_, by simp [Next, replayOne, h2]⟩
    by_cases hq : q' = q
    · subst hq
      simp [link, move, h3, h4, hS.tail_snoc, hw, ho, ← h0]
    · simpa [update_of_ne hq, link, move] using ha q'
  · omega

theorem Shows.releases {c : C} (ha : Shows m g a) (hS : Shape m g) (hn : (m.head q).2 = n)
    (hp : (m.next n).2 = .ptr n') (hx : m.object n' = x) (s : ℕ) :
    ∃ a', Shows (m.setHead q (s, n')) (g.pop c q n x) a' ∧ Next a (some (.releases q x)) a' := by
  obtain ⟨hw, _⟩ := ha q
  obtain ⟨l, hl⟩ := hS.two hn hp
  rw [hl, tail_cons, map_cons, hx] at hw
  rcases (a q).wake_cases with ⟨h1, _⟩ | ⟨t, l', h1, h2, h3, h4, _⟩
  · rw [hw] at h1
    cases h1
  · rw [hw] at h1
    obtain ⟨rfl, rfl⟩ := cons.inj h1
    refine ⟨update a q (a q).wake.1, fun q' => ?_, by simp [Next, replayOne, h2]⟩
    by_cases hq : q' = q
    · subst hq
      have hcount : g.count q' = 0 := hS.excl q' (by simp [hl])
      simp [pop, move, h3, h4, hl, hcount]
    · simpa [update_of_ne hq, pop, move] using ha q'

end

/-! ## One step -/

section
variable {Q N T C : Type} [DecidableEq Q] [DecidableEq N] [DecidableEq T] [DecidableEq C]
  {c : C} {m : Mem Q N T} {g : Ghost Q N T C} {pc : C → Pc Q N T} {o : Outcome Q N T}
variable {p p' : Pc Q N T}

/-- After the step there is a ghost again, and the block queues have changed by
the step's effect. -/
def Explained (m : Mem Q N T) (pc : C → Pc Q N T) (g : Ghost Q N T C) (c : C)
    (o : Outcome Q N T) : Prop :=
  ∃ g', Inv o.1 (update pc c o.2.1) g' ∧
    ∀ a, Shows m g a → ∃ a', Shows o.1 g' a' ∧ Next a o.2.2 a'

section
variable (hI : Inv m pc g)
include hI

omit [DecidableEq N] in
theorem explained_read (hp : pc c = p)
    (hnode : p'.node? = p.node?) (hthread : p'.thread? m.object = p.thread? m.object)
    (hat : At m g.chain p') : Explained m pc g c (m, p', none) :=
  ⟨g, hI.writes (Rely.refl c m g) hI.shape hp rfl rfl hnode hthread hat, fun a ha => ⟨a, ha, rfl⟩⟩

omit [DecidableEq N] in
theorem explained_setTail (hroom : Roomy m) {q : Q} {ts : ℕ}
    {tv n : N} (hp : pc c = p) (htail : m.tail q = (ts, tv)) (hptr : (m.next tv).2 = .ptr n)
    (hnode : p'.node? = p.node?) (hthread : p'.thread? m.object = p.thread? m.object)
    (hat : At (m.setTail q (bump ts, n)) g.chain p') :
    Explained m pc g c (m.setTail q (bump ts, n), p', none) := by
  have htv : tv ∈ g.chain q := by
    have := hI.shape.tail q
    rw [htail] at this
    exact this
  have hn : n ∈ (g.chain q).tail := (hI.shape.linked q).mem_tail_of_ptr htv hptr
  exact ⟨g, hI.writes (.setTail hI.shape hn (lt_bump (hroom.tail q) htail))
    (hI.shape.setTail (mem_of_mem_tail hn) _) hp rfl rfl hnode hthread hat,
    fun a ha => ⟨a, ha, rfl⟩⟩

theorem explained_release {t : T} {n : N} (hp : pc c = p)
    (hnode : p.node? = some n) (hthread : p.thread? m.object = some t)
    (hat : m.object n = t ∧ m.node t = n) : Explained m pc g c (m.setFree t true, .idle, none) := by
  have hn : g.place n = .hand c := hI.hands.node c n (by rw [hp]; exact hnode)
  have ht : g.spot t = .hand c := (hI.hands.thread c t).mp (by rw [hp]; exact hthread)
  refine ⟨g.move n (.own t) t .free, ?_, fun a ha => ⟨a, ha, rfl⟩⟩
  have hR : Rely c m (m.setFree t true) g (g.move n (.own t) t .free) :=
    .setFree true rfl (move_place _ _ _ hn) (move_spot n _ (spot_ne_hand ht) (by simp))
  exact hI.moved hR (hI.shape.release hn ht hat.1 hat.2) (by simp [Pc.node?])
    (move_thread (hI.hands.thread c) (.inl (hp ▸ hthread)) (.inr ⟨rfl, by simp⟩)) trivial

omit [DecidableEq N] in
theorem explained_inner {t : T} {q : Q} {n tv : N} {ts nt : ℕ}
    {v : Link N} (hp : pc c = p) (hnode : p.node? = some n)
    (hthread : p.thread? m.object = some t) (ho : Own m t n) (hs : Saw (m.tail q) ts tv)
    (hv : (m.tail q).1 = ts → Saw (m.next tv) nt v ∧ (m.next tv).2 = v) :
    Explained m pc g c (m, inner t q n ts tv nt v, none) := by
  cases v with
  | cnt k =>
    exact explained_read hI hp (hnode.symm ▸ rfl) (hthread.symm ▸ rfl)
      ⟨ho, hs, fun h => (hv h).1⟩
  | ptr n' =>
    exact explained_read hI hp (hnode.symm ▸ rfl) (hthread.symm ▸ rfl)
      ⟨ho, hs, fun h => (hv h).2⟩

section
variable (hroom : Roomy m)
include hroom

theorem explained_passes {t : T} {q : Q} {n tv : N}
    {ts nt k : ℕ} (hp : pc c = .casNext t q n ts tv nt k) (ho : Own m t n)
    (hnext : m.next tv = (nt, .cnt k)) (htv : tv ∈ g.chain q) (hk0 : k ≠ 0) : Explained m pc g c
      (m.setNext tv (bump nt, .cnt (k - 1)), .goOn t n, some (.passes q t)) := by
  have hk : (m.next tv).2 = .cnt k := by rw [hnext]
  have hnil : (g.chain q).tail = [] := by
    by_contra hne
    exact hk0 ((hI.shape.ends_at htv hk).1.trans (hI.shape.excl q hne))
  have hR : Rely c m (m.setNext tv (bump nt, .cnt (k - 1))) g (g.setCount q (k - 1)) :=
    .setNext_end hI.shape htv hk (lt_bump (hroom.next tv) hnext) (fun _ _ h => h)
      (fun _ _ _ h => h) (fun _ _ _ => Iff.rfl)
  exact ⟨_, hI.writes hR (hI.shape.setCount htv hk hnil _ _) hp rfl rfl rfl rfl
    ⟨ho.object, ho.node⟩, fun a ha => ha.passes hI.shape htv hk hk0 _ t⟩

theorem explained_waits {t : T} {q : Q} {n tv : N}
    {ts nt : ℕ} (hp : pc c = .casNext t q n ts tv nt 0) (ho : Own m t n)
    (hs : Saw (m.tail q) ts tv) (hnext : m.next tv = (nt, .cnt 0)) (htv : tv ∈ g.chain q) :
    Explained m pc g c (m.setNext tv (bump nt, .ptr n), .casTail q n ts tv, some (.waits q t)) := by
  have hk : (m.next tv).2 = .cnt 0 := by rw [hnext]
  have hn : g.place n = .hand c := hI.hands.node c n (by rw [hp]; rfl)
  have ht : g.spot t = .hand c := (hI.hands.thread c t).mp (by rw [hp]; rfl)
  have hR : Rely c m (m.setNext tv (bump nt, .ptr n)) g (g.link q n t) := by
    refine .setNext_end hI.shape htv hk (lt_bump (hroom.next tv) hnext) (fun q' n' hm => ?_)
      (move_place (.chain q) t (.waits n) hn)
      (move_spot n (.chain q) (spot_ne_hand ht) (by simp))
    by_cases hq : q' = q
    · subst hq
      simp [link, hm]
    · simpa [link, update_of_ne hq] using hm
  exact ⟨_, hI.moved hR (hI.shape.link htv hk hn ht ho _) (by simp [Pc.node?])
    (move_thread (hI.hands.thread c) (.inl (by rw [hp]; rfl)) (.inr ⟨rfl, by simp⟩))
    ⟨hs, fun _ => by simp⟩, fun a ha => ha.waits hI.shape htv hk ho.object _⟩

theorem explained_banks {q : Q} {n tv : N} {h ts nt k : ℕ}
    (hp : pc c = .bank q h n ts tv nt k) (hnext : m.next n = (nt, .cnt k)) (hn : (m.head q).2 = n) :
    Explained m pc g c (m.setNext n (bump nt, .cnt (oneMore k)), .idle, some (.banks q)) := by
  have hk : (m.next n).2 = .cnt k := by rw [hnext]
  have hm : n ∈ g.chain q := hn ▸ hI.shape.head_mem q
  have hnil : (g.chain q).tail = [] := by
    obtain ⟨l, hl⟩ := hI.shape.head q
    have hlink := hI.shape.linked q
    rw [hl, hn] at hlink
    rw [hl, tail_cons]
    cases l with
    | nil => rfl
    | cons b l =>
      have hb := hlink.1
      simp only [hk] at hb
      cases hb
  rw [oneMore_eq (hroom.count n k hk)]
  have hR : Rely c m (m.setNext n (bump nt, .cnt (k + 1))) g (g.setCount q (k + 1)) :=
    .setNext_end hI.shape hm hk (lt_bump (hroom.next n) hnext) (fun _ _ h => h)
      (fun _ _ _ h => h) (fun _ _ _ => Iff.rfl)
  exact ⟨_, hI.writes hR (hI.shape.setCount hm hk hnil _ _) hp rfl rfl rfl rfl trivial,
    fun a ha => ha.banks hI.shape hm hk hnil _⟩

theorem explained_releases {q : Q} {n n' : N} {h : ℕ} {x : T}
    (hp : pc c = .casHead q h n n' x) (hhead : m.head q = (h, n))
    (hptr : (m.next n).2 = .ptr n') (htail : (m.tail q).2 ≠ n) (hx : m.object n' = x) :
    Explained m pc g c (m.setHead q (bump h, n'), .setObject n x, some (.releases q x)) := by
  have hn : (m.head q).2 = n := by rw [hhead]
  refine ⟨g.pop c q n x, hI.moved (.pop hI.shape hn hptr hx (lt_bump (hroom.head q) hhead))
    (hI.shape.pop hn hptr htail hx _) (fun a ha => ?_)
    (move_thread (hI.hands.thread c) (.inr (by rw [hp]; rfl)) (.inl ⟨rfl, rfl⟩)) trivial,
    fun a ha => ha.releases hI.shape hn hptr hx _⟩
  obtain rfl : n = a := Option.some.inj ha
  simp [pop, move]

/-- **Every step of a context is explained.** -/
theorem go_explained (hgo : go true m (pc c) = some o) : Explained m pc g c o := by
  have hat := hI.point c
  have hplace := hI.hands.node c
  have hspot := hI.hands.thread c
  generalize hp : pc c = p at hgo hat hplace hspot
  cases p with
  | idle => cases hgo
  | storeStamp t q n =>
    cases hgo
    have hn := hplace n rfl
    have hle : (m.next n).1 ≤ bump (m.next n).1 := by
      rw [bump_eq (hroom.next n)]
      exact Nat.le_succ _
    exact ⟨g, hI.writes (.setNext_own hI.shape hn hle) (hI.shape.setNext_own hn _) hp rfl rfl rfl
      rfl hat, fun a ha => ⟨a, ha, rfl⟩⟩
  | storeValue t q n =>
    cases hgo
    have hn := hplace n rfl
    have hown : Own (m.setNext n ((m.next n).1, .cnt 0)) t n := ⟨hat.1, hat.2, by simp⟩
    have hR : Rely c m (m.setNext n ((m.next n).1, .cnt 0)) g g :=
      .setNext_own hI.shape hn le_rfl
    exact ⟨g, hI.writes hR (hI.shape.setNext_own hn _) hp rfl rfl rfl rfl hown,
      fun a ha => ⟨a, ha, rfl⟩⟩
  | tailStamp t q n =>
    cases hgo
    exact explained_read hI hp rfl rfl ⟨hat, le_rfl⟩
  | tailValue t q n ts =>
    cases hgo
    exact explained_read hI hp rfl rfl ⟨hat.1, .read hat.2⟩
  | nextStamp t q n ts tv =>
    cases hgo
    exact explained_read hI hp rfl rfl ⟨hat.1, hat.2, fun _ => le_rfl⟩
  | nextValue t q n ts tv nt =>
    cases hgo
    obtain ⟨ho, hs, hle⟩ := hat
    exact explained_inner hI hp rfl rfl ho hs fun h => ⟨.read (hle h), rfl⟩
  | helpTail t q n ts tv n' =>
    obtain ⟨ho, hs, hptr⟩ := hat
    simp only [go] at hgo
    split at hgo
    next htail =>
      cases hgo
      refine explained_setTail hI hroom hp htail (hptr (by rw [htail])) rfl rfl ⟨?_, ?_⟩
      · exact { ho with }
      · exact ⟨by simp, by simp⟩
    next =>
      cases hgo
      exact explained_read hI hp rfl rfl ⟨ho, .now _⟩
  | reloadTail t q n ts tv nt k =>
    obtain ⟨ho, hs, hsaw⟩ := hat
    simp only [go] at hgo
    split at hgo
    next hts =>
      cases hgo
      have htv : tv ∈ g.chain q := hs.2 hts ▸ hI.shape.tail q
      exact explained_read hI hp rfl rfl
        ⟨ho, hs, (hsaw hts).1, fun h => ⟨(hsaw hts).2 h, htv⟩⟩
    next =>
      cases hgo
      exact explained_read hI hp rfl rfl ⟨ho, le_rfl⟩
  | casNext t q n ts tv nt k =>
    obtain ⟨ho, hs, hle, hlive⟩ := hat
    simp only [go] at hgo
    split at hgo
    next hnext =>
      obtain ⟨-, htv⟩ := hlive (by rw [hnext])
      split at hgo
      next hmark =>
        cases hgo
        exact explained_passes hI hroom hp ho hnext htv hmark.2
      next hmark =>
        cases hgo
        obtain rfl : k = 0 := by simpa using hmark
        exact explained_waits hI hroom hp ho hs hnext htv
    next =>
      cases hgo
      exact explained_inner hI hp rfl rfl ho hs fun _ => ⟨.now _, rfl⟩
  | casTail q n ts tv =>
    obtain ⟨hs, hptr⟩ := hat
    simp only [go] at hgo
    split at hgo
    next htail =>
      cases hgo
      exact explained_setTail hI hroom hp htail (hptr (by rw [htail])) rfl rfl trivial
    next =>
      cases hgo
      exact explained_read hI hp rfl rfl trivial
  | goOn | ready =>
    cases hgo
    exact explained_release hI hp rfl rfl hat
  | headStamp q =>
    cases hgo
    exact explained_read hI hp rfl rfl (le_rfl : _ ≤ (m.head q).1)
  | headValue q h =>
    cases hgo
    exact explained_read hI hp rfl rfl (.read hat : Saw (m.head q) h _)
  | endStamp q h n =>
    cases hgo
    exact explained_read hI hp rfl rfl ⟨hat, le_rfl, fun _ _ => rfl⟩
  | endValue q h n ts =>
    cases hgo
    obtain ⟨hh, hle, hlag⟩ := hat
    have hends : Ends m q h n ts (m.tail q).2 := ⟨hh, .read hle, fun h1 h2 => ⟨hlag h1 h2, h2⟩⟩
    exact explained_read hI hp rfl rfl hends
  | linkStamp q h n ts tv =>
    cases hgo
    exact explained_read hI hp rfl rfl ⟨hat, fun _ => le_rfl⟩
  | linkValue q h n ts tv nt =>
    cases hgo
    obtain ⟨he, hle⟩ := hat
    exact explained_read hI hp rfl rfl
      ⟨he, fun h1 => .read (hle h1), fun _ _ => ⟨fun _ => rfl, fun _ _ => rfl⟩⟩
  | reloadHead q h n ts tv nt v =>
    obtain ⟨he, hsaw, hptr⟩ := hat
    simp only [go] at hgo
    split at hgo
    next hh =>
      cases v with
      | cnt k =>
        cases hgo
        exact explained_read hI hp rfl rfl
          ⟨he, (hsaw hh).1, fun h1 => ⟨(hsaw hh).2 h1, he.head.2 hh⟩⟩
      | ptr n' =>
        cases hgo
        obtain ⟨h1, h2⟩ := hptr n' rfl
        by_cases hn : n = tv
        · subst hn
          simp only [if_pos]
          exact explained_read hI hp rfl rfl ⟨he, h1, fun h3 => h2 h3 rfl⟩
        · rw [if_neg hn]
          refine explained_read hI hp rfl rfl ⟨he.head, fun h3 => ⟨h1 h3, fun ht => ?_⟩⟩
          exact hn (he.lag h3 ht).2.symm
    next =>
      cases hgo
      exact explained_read hI hp rfl rfl (le_rfl : _ ≤ (m.head q).1)
  | bank q h n ts tv nt k =>
    obtain ⟨he, hle, hlive⟩ := hat
    simp only [go] at hgo
    split at hgo
    next hnext =>
      cases hgo
      exact explained_banks hI hroom hp hnext (hlive (by rw [hnext])).2
    next =>
      cases hgo
      exact explained_read hI hp rfl rfl
        ⟨he, fun _ => .now _, fun _ _ => ⟨fun _ => rfl, fun _ _ => rfl⟩⟩
  | casEnd q h n ts n' =>
    obtain ⟨he, h1, h2⟩ := hat
    simp only [go] at hgo
    split at hgo
    next htail =>
      cases hgo
      have hn' : n' ∈ (g.chain q).tail := by
        have hin := hI.shape.tail q
        rw [htail] at hin
        exact (hI.shape.linked q).mem_tail_of_ptr hin (h2 (by rw [htail]))
      refine explained_setTail hI hroom hp htail (h2 (by rw [htail])) rfl rfl
        ⟨he.head, fun h3 => ⟨h1 h3, ?_⟩⟩
      rw [← he.head.2 h3]
      simpa using hI.shape.ne_head hn'
    next hne =>
      cases hgo
      refine explained_read hI hp rfl rfl ⟨he.head, fun h3 => ⟨h1 h3, fun ht => hne ?_⟩⟩
      exact Prod.ext (he.lag h3 ht).1 ht
  | readObject q h n n' =>
    cases hgo
    exact explained_read hI hp rfl rfl ⟨hat.1, fun h1 => ⟨(hat.2 h1).1, (hat.2 h1).2, rfl⟩⟩
  | casHead q h n n' x =>
    obtain ⟨hs, hptr⟩ := hat
    simp only [go] at hgo
    split at hgo
    next hhead =>
      cases hgo
      obtain ⟨h1, h2, hx⟩ := hptr (by rw [hhead])
      exact explained_releases hI hroom hp hhead h1 h2 hx
    next =>
      cases hgo
      exact explained_read hI hp rfl rfl (.now _ : Saw (m.head q) _ _)
  | setObject n x =>
    cases hgo
    have hn := hplace n rfl
    exact ⟨g, hI.writes (.setObject hI.shape hn x) (hI.shape.setObject hn x) hp rfl rfl rfl
      (by simp [Pc.thread?]) trivial, fun a ha => ⟨a, ha.setObject hI.shape hn x, rfl⟩⟩
  | getObject n =>
    cases hgo
    exact explained_read hI hp rfl rfl (rfl : m.object n = _)
  | setNode x n =>
    cases hgo
    have hx := (hspot x).mp rfl
    exact ⟨g, hI.writes (.setNode hx n) (hI.shape.setNode hx n) hp rfl rfl rfl rfl
      ⟨hat, by simp⟩, fun a ha => ⟨a, ha, rfl⟩⟩

end

end

end

end Librettos.Lfqueue
