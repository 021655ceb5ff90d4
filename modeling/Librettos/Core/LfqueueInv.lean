/-
# `Core.LfqueueInv` — the block queue's invariant

A state of the system is explained by a *ghost*: for every queue the chain of its
nodes from the sentinel on and the count at its end, for every node where it
belongs, for every thread where it is.

The invariant has three parts.

* `Shape`: memory is as the ghost says.  `tail` points somewhere into the chain,
  it may lag.
* `Hands`: a context that works with a node or a thread that is in no queue has
  it for itself.
* `At`: what a context knows at its control point about the words it has read.
  Everything it knows is conditional on the stamps it has read still being there.

That the knowledge of one context survives the steps of another is proved once
for all steps: `Rely` says what a step may do to the memory others look at,
`At.stable` that every `At` survives it, and each step that writes is shown to be
such a step.
-/
import Librettos.Core.Lfqueue

namespace Librettos.Lfqueue

open Function (update update_of_ne update_self)
/-- Where a node belongs. -/
inductive Place (Q T C : Type)
  | chain (q : Q)
  | own (t : T)
  | hand (c : C)
  | spare

/-- Where a thread is. -/
inductive Spot (N C : Type)
  | free
  | hand (c : C)
  | waits (n : N)

structure Ghost (Q N T C : Type) where
  chain : Q → List N
  count : Q → ℕ
  place : N → Place Q T C
  spot : T → Spot N C

/-! ## What contexts hold -/

section
variable {Q N T : Type}

/-- The node a context has in its hands. -/
def Pc.node? : Pc Q N T → Option N
  | .storeStamp _ _ m => some m
  | .storeValue _ _ m => some m
  | .tailStamp _ _ m => some m
  | .tailValue _ _ m _ => some m
  | .nextStamp _ _ m _ _ => some m
  | .nextValue _ _ m _ _ _ => some m
  | .helpTail _ _ m _ _ _ => some m
  | .reloadTail _ _ m _ _ _ _ => some m
  | .casNext _ _ m _ _ _ _ => some m
  | .goOn _ m => some m
  | .setObject n _ => some n
  | .getObject n => some n
  | .setNode _ n => some n
  | .ready _ n => some n
  | _ => none

/-- The thread a context has in its hands. -/
def Pc.thread? (object : N → T) : Pc Q N T → Option T
  | .storeStamp t _ _ => some t
  | .storeValue t _ _ => some t
  | .tailStamp t _ _ => some t
  | .tailValue t _ _ _ => some t
  | .nextStamp t _ _ _ _ => some t
  | .nextValue t _ _ _ _ _ => some t
  | .helpTail t _ _ _ _ _ => some t
  | .reloadTail t _ _ _ _ _ _ => some t
  | .casNext t _ _ _ _ _ _ => some t
  | .goOn t _ => some t
  | .setObject _ x => some x
  | .getObject n => some (object n)
  | .setNode x _ => some x
  | .ready x _ => some x
  | _ => none

/-! ## What contexts know -/

/-- The thread's own node, before it is linked. -/
structure Own (m : Mem Q N T) (t : T) (n : N) : Prop where
  object : m.object n = t
  node : m.node t = n
  blank : (m.next n).2 = .cnt 0

/-- What a dequeue knows of `head` and `tail`: as long as `head` is in place,
`tail` stands at the sentinel only if it did so when it was read. -/
structure Ends (m : Mem Q N T) (q : Q) (h : ℕ) (n : N) (ts : ℕ) (tv : N) : Prop where
  head : Saw (m.head q) h n
  tail : Saw (m.tail q) ts tv
  lag : (m.head q).1 = h → (m.tail q).2 = n → (m.tail q).1 = ts ∧ tv = n

/-- What is known at a control point. -/
def At (m : Mem Q N T) (chain : Q → List N) : Pc Q N T → Prop
  | .idle => True
  | .storeStamp t _ n => m.object n = t ∧ m.node t = n
  | .storeValue t _ n => m.object n = t ∧ m.node t = n
  | .tailStamp t _ n => Own m t n
  | .tailValue t q n ts => Own m t n ∧ ts ≤ (m.tail q).1
  | .nextStamp t q n ts tv => Own m t n ∧ Saw (m.tail q) ts tv
  | .nextValue t q n ts tv nt =>
    Own m t n ∧ Saw (m.tail q) ts tv ∧ ((m.tail q).1 = ts → nt ≤ (m.next tv).1)
  | .helpTail t q n ts tv n' =>
    Own m t n ∧ Saw (m.tail q) ts tv ∧ ((m.tail q).1 = ts → (m.next tv).2 = .ptr n')
  | .reloadTail t q n ts tv nt k =>
    Own m t n ∧ Saw (m.tail q) ts tv ∧ ((m.tail q).1 = ts → Saw (m.next tv) nt (.cnt k))
  -- from here on the link's own stamp guards: `tail` may move on
  | .casNext t q n ts tv nt k =>
    Own m t n ∧ Saw (m.tail q) ts tv ∧ nt ≤ (m.next tv).1 ∧
      ((m.next tv).1 = nt → (m.next tv).2 = .cnt k ∧ tv ∈ chain q)
  | .casTail q n ts tv => Saw (m.tail q) ts tv ∧ ((m.tail q).1 = ts → (m.next tv).2 = .ptr n)
  | .goOn t n => m.object n = t ∧ m.node t = n
  | .headStamp _ => True
  | .headValue q h => h ≤ (m.head q).1
  | .endStamp q h n => Saw (m.head q) h n
  | .endValue q h n ts =>
    Saw (m.head q) h n ∧ ts ≤ (m.tail q).1 ∧
      ((m.head q).1 = h → (m.tail q).2 = n → (m.tail q).1 = ts)
  | .linkStamp q h n ts tv => Ends m q h n ts tv
  | .linkValue q h n ts tv nt => Ends m q h n ts tv ∧ ((m.head q).1 = h → nt ≤ (m.next n).1)
  | .reloadHead q h n ts tv nt v =>
    Ends m q h n ts tv ∧ ((m.head q).1 = h → Saw (m.next n) nt v) ∧
      ∀ n', v = .ptr n' → ((m.head q).1 = h → (m.next n).2 = v) ∧
        ((m.tail q).1 = ts → tv = n → (m.next n).2 = v)
  | .bank q h n ts tv nt k =>
    Ends m q h n ts tv ∧ nt ≤ (m.next n).1 ∧
      ((m.next n).1 = nt → (m.next n).2 = .cnt k ∧ (m.head q).2 = n)
  | .casEnd q h n ts n' =>
    Ends m q h n ts n ∧ ((m.head q).1 = h → (m.next n).2 = .ptr n') ∧
      ((m.tail q).1 = ts → (m.next n).2 = .ptr n')
  | .readObject q h n n' =>
    Saw (m.head q) h n ∧ ((m.head q).1 = h → (m.next n).2 = .ptr n' ∧ (m.tail q).2 ≠ n)
  | .casHead q h n n' x =>
    Saw (m.head q) h n ∧
      ((m.head q).1 = h → (m.next n).2 = .ptr n' ∧ (m.tail q).2 ≠ n ∧ m.object n' = x)
  | .setObject _ _ => True
  | .getObject _ => True
  | .setNode x n => m.object n = x
  | .ready x n => m.object n = x ∧ m.node x = n

end

/-! ## The invariant -/

section
variable {Q N T C : Type}

/-- The memory is as the ghost says. -/
structure Shape (m : Mem Q N T) (g : Ghost Q N T C) : Prop where
  head : ∀ q, ∃ l, g.chain q = (m.head q).2 :: l
  linked : ∀ q, Linked (fun n => (m.next n).2) (g.chain q) (g.count q)
  excl : ∀ q, (g.chain q).tail ≠ [] → g.count q = 0
  nodup : ∀ q, (g.chain q).Nodup
  tail : ∀ q, (m.tail q).2 ∈ g.chain q
  place : ∀ q n, n ∈ g.chain q → g.place n = .chain q
  waits : ∀ q n, n ∈ (g.chain q).tail → g.spot (m.object n) = .waits n
  waiting : ∀ t n, g.spot t = .waits n → ∃ q, n ∈ (g.chain q).tail ∧ m.object n = t
  own : ∀ t, g.spot t = .free → g.place (m.node t) = .own t ∧ m.object (m.node t) = t
  free : ∀ t, m.free t = true ↔ g.spot t = .free

/-- Contexts have what they work with for themselves. -/
structure Hands (m : Mem Q N T) (pc : C → Pc Q N T) (g : Ghost Q N T C) : Prop where
  node : ∀ c n, (pc c).node? = some n → g.place n = .hand c
  thread : ∀ c t, (pc c).thread? m.object = some t ↔ g.spot t = .hand c

structure Inv (m : Mem Q N T) (pc : C → Pc Q N T) (g : Ghost Q N T C) : Prop where
  shape : Shape m g
  hands : Hands m pc g
  point : ∀ c, At m g.chain (pc c)

/-! ## What a step does to others -/

/-- What a step of `c` may do to the memory that others look at. -/
structure Rely (c : C) (m m' : Mem Q N T) (g g' : Ghost Q N T C) : Prop where
  head : ∀ q, m'.head q = m.head q ∨ (m.head q).1 < (m'.head q).1
  tail : ∀ q, m'.tail q = m.tail q ∨ (m.tail q).1 < (m'.tail q).1
  -- `tail` moves away from the sentinel, never to it
  ahead : ∀ q, m'.head q = m.head q → (m'.tail q).2 = (m.head q).2 → m'.tail q = m.tail q
  stamp : ∀ n, (m.next n).1 ≤ (m'.next n).1
  -- of the links in the queues only counts change
  link : ∀ q n, n ∈ g.chain q → m'.next n = m.next n ∨
    ((m.next n).1 < (m'.next n).1 ∧ ∃ k, (m.next n).2 = .cnt k)
  last : ∀ q n k, n ∈ g.chain q → (m.next n).2 = .cnt k → n ∈ g'.chain q
  first : ∀ q k, (m.next (m.head q).2).2 = .cnt k → m'.head q = m.head q
  object : ∀ q n, n ∈ g.chain q → m'.object n = m.object n
  hold : ∀ c' n, c' ≠ c → g.place n = .hand c' →
    m'.next n = m.next n ∧ m'.object n = m.object n ∧ g'.place n = .hand c'
  holdThread : ∀ c' t, c' ≠ c → g.spot t = .hand c' → m'.node t = m.node t
  spot : ∀ c' t, c' ≠ c → (g'.spot t = .hand c' ↔ g.spot t = .hand c')

end

/-! ## Knowledge survives the steps of others -/

section
variable {Q N T C : Type} {c c' : C} {m m' : Mem Q N T} {g g' : Ghost Q N T C}
  {q : Q} {t x : T} {n n' tv : N} {h ts nt k : ℕ} {v : Link N} {A B : Prop}

theorem Shape.head_mem (hS : Shape m g) (q : Q) : (m.head q).2 ∈ g.chain q := by
  obtain ⟨l, hl⟩ := hS.head q
  rw [hl]
  exact List.mem_cons_self

namespace Rely

section
variable (hR : Rely c m m' g g')
include hR

theorem sawHead (hs : Saw (m.head q) h n) : Saw (m'.head q) h n :=
  hs.mono (hR.head q)

theorem sawTail (hs : Saw (m.tail q) ts n) : Saw (m'.tail q) ts n :=
  hs.mono (hR.tail q)

theorem head_le (hs : h ≤ (m.head q).1) : h ≤ (m'.head q).1 := by
  rcases hR.head q with he | hlt
  · exact he ▸ hs
  · exact hs.trans hlt.le

theorem tail_le (hs : ts ≤ (m.tail q).1) : ts ≤ (m'.tail q).1 := by
  rcases hR.tail q with he | hlt
  · exact he ▸ hs
  · exact hs.trans hlt.le

/-- What holds while `tail` is in place: its node is then in the chain. -/
theorem whileTail (hS : Shape m g) (hs : Saw (m.tail q) ts tv)
    (hAB : tv ∈ g.chain q → A → B) (hA : (m.tail q).1 = ts → A) : (m'.tail q).1 = ts → B := by
  intro hts
  have hsame : m'.tail q = m.tail q := Saw.unchanged hs.1 (hR.tail q) hts
  rw [hsame] at hts
  exact hAB (hs.2 hts ▸ hS.tail q) (hA hts)

theorem whileHead (hS : Shape m g) (hs : Saw (m.head q) h n)
    (hAB : n ∈ g.chain q → m'.head q = m.head q → (m.head q).2 = n → A → B)
    (hA : (m.head q).1 = h → A) : (m'.head q).1 = h → B := by
  intro hh
  have hsame : m'.head q = m.head q := Saw.unchanged hs.1 (hR.head q) hh
  rw [hsame] at hh
  exact hAB (hs.2 hh ▸ hS.head_mem q) hsame (hs.2 hh) (hA hh)

theorem sawNext (hn : n ∈ g.chain q) (hs : Saw (m.next n) nt v) : Saw (m'.next n) nt v :=
  hs.mono ((hR.link q n hn).imp_right And.left)

theorem ptr (hn : n ∈ g.chain q) (hp : (m.next n).2 = .ptr n') : (m'.next n).2 = .ptr n' := by
  rcases hR.link q n hn with he | ⟨_, k, hk⟩
  · rw [he]
    exact hp
  · rw [hp] at hk
    exact absurd hk (by simp)

theorem link_eq (hn : n ∈ g.chain q) (hs : nt ≤ (m.next n).1)
    (he : (m'.next n).1 = nt) : m'.next n = m.next n :=
  Saw.unchanged hs ((hR.link q n hn).imp_right And.left) he

/-- A link outside the queues can only be compared by its stamp. -/
theorem stamp_eq (hs : nt ≤ (m.next n).1) (he : (m'.next n).1 = nt) : (m.next n).1 = nt :=
  le_antisymm ((hR.stamp n).trans he.le) hs

theorem own (hc : c' ≠ c) (hn : g.place n = .hand c')
    (ht : g.spot t = .hand c') (ho : Own m t n) : Own m' t n := by
  obtain ⟨h1, h2, _⟩ := hR.hold c' n hc hn
  exact ⟨h2.trans ho.object, (hR.holdThread c' t hc ht).trans ho.node, by rw [h1]; exact ho.blank⟩

theorem ends (hS : Shape m g) (he : Ends m q h n ts tv) : Ends m' q h n ts tv where
  head := hR.sawHead he.head
  tail := hR.sawTail he.tail
  lag := by
    refine hR.whileHead hS he.head (fun _ hh hn hlag ht => ?_) he.lag
    have hsame : m'.tail q = m.tail q := hR.ahead q hh (ht.trans hn.symm)
    rw [hsame] at ht ⊢
    exact hlag ht

end

end Rely

/-- **What a context knows survives the steps of the others.** -/
theorem At.stable (hR : Rely c m m' g g') (hS : Shape m g) (hc : c' ≠ c) {p : Pc Q N T}
    (hnode : ∀ n, p.node? = some n → g.place n = .hand c')
    (hthread : ∀ t, p.thread? m.object = some t → g.spot t = .hand c')
    (hp : At m g.chain p) : At m' g'.chain p := by
  have hobj : ∀ n, p.node? = some n → m'.object n = m.object n :=
    fun n hn => (hR.hold c' n hc (hnode n hn)).2.1
  have hnd : ∀ t, p.thread? m.object = some t → m'.node t = m.node t :=
    fun t ht => hR.holdThread c' t hc (hthread t ht)
  have hown : ∀ t n, p.thread? m.object = some t → p.node? = some n → Own m t n → Own m' t n :=
    fun t n ht hn => hR.own hc (hnode n hn) (hthread t ht)
  cases p with
  | idle | headStamp | setObject | getObject => trivial
  | storeStamp t _ n | storeValue t _ n | goOn t n =>
    exact ⟨(hobj n rfl).trans hp.1, (hnd t rfl).trans hp.2⟩
  | tailStamp t q n => exact hown t n rfl rfl hp
  | tailValue t q n ts => exact ⟨hown t n rfl rfl hp.1, hR.tail_le hp.2⟩
  | nextStamp t q n ts tv => exact ⟨hown t n rfl rfl hp.1, hR.sawTail hp.2⟩
  | nextValue t q n ts tv nt =>
    obtain ⟨ho, hs, hle⟩ := hp
    exact ⟨hown t n rfl rfl ho, hR.sawTail hs,
      hR.whileTail hS hs (fun _ h1 => h1.trans (hR.stamp tv)) hle⟩
  | helpTail t q n ts tv n' =>
    obtain ⟨ho, hs, hptr⟩ := hp
    exact ⟨hown t n rfl rfl ho, hR.sawTail hs, hR.whileTail hS hs (fun hm => hR.ptr hm) hptr⟩
  | reloadTail t q n ts tv nt k =>
    obtain ⟨ho, hs, hsaw⟩ := hp
    exact ⟨hown t n rfl rfl ho, hR.sawTail hs, hR.whileTail hS hs (fun hm => hR.sawNext hm) hsaw⟩
  | casNext t q n ts tv nt k =>
    obtain ⟨ho, hs, hle, hlive⟩ := hp
    refine ⟨hown t n rfl rfl ho, hR.sawTail hs, hle.trans (hR.stamp tv), fun he => ?_⟩
    obtain ⟨hk, hm⟩ := hlive (hR.stamp_eq hle he)
    exact ⟨by rw [hR.link_eq hm hle he]; exact hk, hR.last q tv k hm hk⟩
  | casTail q n ts tv =>
    exact ⟨hR.sawTail hp.1, hR.whileTail hS hp.1 (fun hm => hR.ptr hm) hp.2⟩
  | headValue q h => exact hR.head_le hp
  | endStamp q h n => exact hR.sawHead hp
  | endValue q h n ts =>
    obtain ⟨hh, hle, hlag⟩ := hp
    refine ⟨hR.sawHead hh, hR.tail_le hle, hR.whileHead hS hh (fun _ hh hn hlag ht => ?_) hlag⟩
    have hsame : m'.tail q = m.tail q := hR.ahead q hh (ht.trans hn.symm)
    rw [hsame] at ht ⊢
    exact hlag ht
  | linkStamp q h n ts tv => exact hR.ends hS hp
  | linkValue q h n ts tv nt =>
    exact ⟨hR.ends hS hp.1,
      hR.whileHead hS hp.1.head (fun _ _ _ h1 => h1.trans (hR.stamp n)) hp.2⟩
  | reloadHead q h n ts tv nt v =>
    obtain ⟨he, hsaw, hptr⟩ := hp
    refine ⟨hR.ends hS he, hR.whileHead hS he.head (fun hm _ _ => hR.sawNext hm) hsaw, ?_⟩
    rintro n' rfl
    obtain ⟨h1, h2⟩ := hptr n' rfl
    refine ⟨hR.whileHead hS he.head (fun hm _ _ => hR.ptr hm) h1, ?_⟩
    exact hR.whileTail hS he.tail
      (fun hm h3 htv => hR.ptr (htv ▸ hm : n ∈ g.chain q) (h3 htv)) h2
  | bank q h n ts tv nt k =>
    obtain ⟨he, hle, hlive⟩ := hp
    refine ⟨hR.ends hS he, hle.trans (hR.stamp n), fun hs => ?_⟩
    obtain ⟨hk, hn⟩ := hlive (hR.stamp_eq hle hs)
    have hm : n ∈ g.chain q := hn ▸ hS.head_mem q
    refine ⟨by rw [hR.link_eq hm hle hs]; exact hk, ?_⟩
    rw [hR.first q k (by rw [hn]; exact hk)]
    exact hn
  | casEnd q h n ts n' =>
    obtain ⟨he, h1, h2⟩ := hp
    exact ⟨hR.ends hS he, hR.whileHead hS he.head (fun hm _ _ => hR.ptr hm) h1,
      hR.whileTail hS he.tail (fun hm => hR.ptr hm) h2⟩
  | readObject q h n n' =>
    obtain ⟨hh, hptr⟩ := hp
    refine ⟨hR.sawHead hh, hR.whileHead hS hh (fun hm hsame hn h1 => ?_) hptr⟩
    refine ⟨hR.ptr hm h1.1, fun ht => h1.2 ?_⟩
    rw [← hR.ahead q hsame (ht.trans hn.symm)]
    exact ht
  | casHead q h n n' x =>
    obtain ⟨hh, hptr⟩ := hp
    refine ⟨hR.sawHead hh, hR.whileHead hS hh (fun hm hsame hn h1 => ?_) hptr⟩
    refine ⟨hR.ptr hm h1.1, fun ht => h1.2.1 ?_, ?_⟩
    · rw [← hR.ahead q hsame (ht.trans hn.symm)]
      exact ht
    · have hmem : n' ∈ (g.chain q).tail := (hS.linked q).mem_tail_of_ptr hm h1.1
      exact (hR.object q n' (List.mem_of_mem_tail hmem)).trans h1.2.2
  | setNode x n => exact (hobj n rfl).trans hp
  | ready x n => exact ⟨(hobj n rfl).trans hp.1, (hnd x rfl).trans hp.2⟩

end

/-! ## Steps -/

section
variable {Q N T C : Type} {c : C} {m m' : Mem Q N T} {g g' : Ghost Q N T C} {pc : C → Pc Q N T}
  {q : Q} {t x : T} {n n' tv : N} {h ts nt k : ℕ}

theorem Rely.refl (c : C) (m : Mem Q N T) (g : Ghost Q N T C) : Rely c m m g g where
  head _ := .inl rfl
  tail _ := .inl rfl
  ahead _ _ _ := rfl
  stamp _ := le_rfl
  link _ _ _ := .inl rfl
  last _ _ _ hn _ := hn
  first _ _ _ := rfl
  object _ _ _ := rfl
  hold _ _ _ hn := ⟨rfl, rfl, hn⟩
  holdThread _ _ _ _ := rfl
  spot _ _ _ := Iff.rfl

/-- **A step of `c` keeps the invariant** if it is one the others can rely on,
leaves the memory in shape, and `c` has what it needs at its new point. -/
theorem Inv.moved [DecidableEq C] (hI : Inv m pc g) (hR : Rely c m m' g g') (hS : Shape m' g')
    {p : Pc Q N T} (hnode : ∀ n, p.node? = some n → g'.place n = .hand c)
    (hthread : ∀ t, p.thread? m'.object = some t ↔ g'.spot t = .hand c)
    (hat : At m' g'.chain p) : Inv m' (update pc c p) g' := by
  -- the thread in another context's hands is found through memory at one point only
  have hsame : ∀ c', c' ≠ c → (pc c').thread? m'.object = (pc c').thread? m.object := by
    intro c' hc
    have hn := hI.hands.node c'
    revert hn
    generalize pc c' = p'
    intro hn
    cases p' with
    | getObject n => exact congrArg some (hR.hold c' n hc (hn n rfl)).2.1
    | _ => rfl
  refine ⟨hS, ⟨fun c' n hn => ?_, fun c' t => ?_⟩, fun c' => ?_⟩
  · by_cases hc : c' = c
    · subst hc
      rw [update_self] at hn
      exact hnode n hn
    · rw [update_of_ne hc] at hn
      exact (hR.hold c' n hc (hI.hands.node c' n hn)).2.2
  · by_cases hc : c' = c
    · subst hc
      rw [update_self]
      exact hthread t
    · rw [update_of_ne hc, hsame c' hc, hR.spot c' t hc]
      exact hI.hands.thread c' t
  · by_cases hc : c' = c
    · subst hc
      rw [update_self]
      exact hat
    · rw [update_of_ne hc]
      exact At.stable hR hI.shape hc (hI.hands.node c') (fun t => (hI.hands.thread c' t).mp)
        (hI.point c')

theorem Inv.writes [DecidableEq C] (hI : Inv m pc g) (hR : Rely c m m' g g') (hS : Shape m' g')
    {p p' : Pc Q N T} (hp : pc c = p) (hplace : g'.place = g.place) (hspot : g'.spot = g.spot)
    (hnode : p'.node? = p.node?) (hthread : p'.thread? m'.object = p.thread? m.object)
    (hat : At m' g'.chain p') : Inv m' (update pc c p') g' := by
  refine hI.moved hR hS (fun n hn => ?_) (fun t => ?_) hat
  · rw [hplace]
    exact hI.hands.node c n (by rw [hp, ← hnode]; exact hn)
  · rw [hspot, hthread, ← hp]
    exact hI.hands.thread c t

end

end Librettos.Lfqueue
