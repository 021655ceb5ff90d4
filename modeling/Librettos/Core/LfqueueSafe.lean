/-
# `Core.LfqueueSafe` — the markable queue is a block queue

The history of effects of every run is one of a FIFO of waiters with a counter of
pending wakes (`Core.BlockQueue`), as long as no stamp and no count wraps around.
A call has exactly one effect, between its begin and its return, so the order of
the effects explains what every call did: a wake released the oldest waiter or was
counted, and a block attempt used up a counted wake or waits.

**Proved here.**
* `block_queue_linearizable` — the history is legal, memory holds the queues it
  leads to, a thread waits at most once, every thread is somewhere, and no node is
  in two places.
* `wakes_wrap` — the condition is needed: `2 ^ 63` wakes that find nobody waiting
  leave the count at zero, and the next block attempt waits.
-/
import Librettos.Core.LfqueueStep

namespace Librettos.Lfqueue

open List Trans
open Function (update update_idem update_of_ne update_self)

/-! ## Calls and effects -/

section
variable {Q N T C : Type}

/-- The call a context is in, until the call has had its effect. -/
def Pc.call : Pc Q N T → Option (Call Q T)
  | .storeStamp t q _ => some (.block q t)
  | .storeValue t q _ => some (.block q t)
  | .tailStamp t q _ => some (.block q t)
  | .tailValue t q _ _ => some (.block q t)
  | .nextStamp t q _ _ _ => some (.block q t)
  | .nextValue t q _ _ _ _ => some (.block q t)
  | .helpTail t q _ _ _ _ => some (.block q t)
  | .reloadTail t q _ _ _ _ _ => some (.block q t)
  | .casNext t q _ _ _ _ _ => some (.block q t)
  | .headStamp q => some (.wake q)
  | .headValue q _ => some (.wake q)
  | .endStamp q _ _ => some (.wake q)
  | .endValue q _ _ _ => some (.wake q)
  | .linkStamp q _ _ _ _ => some (.wake q)
  | .linkValue q _ _ _ _ _ => some (.wake q)
  | .reloadHead q _ _ _ _ _ _ => some (.wake q)
  | .bank q _ _ _ _ _ _ => some (.wake q)
  | .casEnd q _ _ _ _ => some (.wake q)
  | .readObject q _ _ _ => some (.wake q)
  | .casHead q _ _ _ _ => some (.wake q)
  | _ => none

/-- A call has no effect before its point, and one that answers it after. -/
def Duty (p : Pc Q N T) (asked : Option (Call Q T)) (did : Option (Ev Q T)) : Prop :=
  match p.call with
  | some f => asked = some f ∧ did = none
  | none => asked = did.map Ev.call

variable [DecidableEq Q] [DecidableEq N] [DecidableEq T] {m : Mem Q N T} {o : Outcome Q N T}

omit [DecidableEq Q] [DecidableEq N] [DecidableEq T] in
theorem inner_call (t : T) (q : Q) (n : N) (ts : ℕ) (tv : N) (nt : ℕ) (v : Link N) :
    (inner t q n ts tv nt v).call = some (.block q t) := by
  cases v <;> rfl

/-- A step has an effect exactly when it takes the call over its point. -/
theorem go_call {p : Pc Q N T} (hgo : go true m p = some o) :
    (o.2.2 = none ∧ o.2.1.call = p.call) ∨
    ∃ e, o.2.2 = some e ∧ p.call = some e.call ∧ o.2.1.call = none := by
  cases p with
  | idle => cases hgo
  | nextValue t q n ts tv nt =>
    cases hgo
    exact .inl ⟨rfl, inner_call ..⟩
  | helpTail | reloadTail | casTail | casEnd =>
    simp only [go] at hgo
    split at hgo <;> cases hgo <;> exact .inl ⟨rfl, rfl⟩
  | casNext t q n ts tv nt k =>
    simp only [go] at hgo
    split at hgo
    next =>
      split at hgo
      next =>
        cases hgo
        exact .inr ⟨.passes q t, rfl, rfl, rfl⟩
      next =>
        cases hgo
        exact .inr ⟨.waits q t, rfl, rfl, rfl⟩
    next =>
      cases hgo
      exact .inl ⟨rfl, inner_call ..⟩
  | reloadHead q h n ts tv nt v =>
    simp only [go] at hgo
    split at hgo
    next =>
      cases v with
      | cnt k =>
        cases hgo
        exact .inl ⟨rfl, rfl⟩
      | ptr n' =>
        cases hgo
        refine .inl ⟨rfl, ?_⟩
        by_cases hn : n = tv
        · simp [hn, Pc.call]
        · simp [hn, Pc.call]
    next =>
      cases hgo
      exact .inl ⟨rfl, rfl⟩
  | bank q h n ts tv nt k =>
    simp only [go] at hgo
    split at hgo
    next =>
      cases hgo
      exact .inr ⟨.banks q, rfl, rfl, rfl⟩
    next =>
      cases hgo
      exact .inl ⟨rfl, rfl⟩
  | casHead q h n n' x =>
    simp only [go] at hgo
    split at hgo
    next =>
      cases hgo
      exact .inr ⟨.releases q x, rfl, rfl, rfl⟩
    next =>
      cases hgo
      exact .inl ⟨rfl, rfl⟩
  | _ =>
    cases hgo
    exact .inl ⟨rfl, rfl⟩

end

/-! ## Runs -/

section
variable {Q N T C : Type} [DecidableEq Q] [DecidableEq N] [DecidableEq T] [DecidableEq C]
  {s s' : Sys Q N T C}
variable {g : Ghost Q N T C} {a : Q → BlockQueue T}

/-- A state together with what explains it. -/
structure Good (s : Sys Q N T C) (g : Ghost Q N T C) (a : Q → BlockQueue T) : Prop where
  inv : Inv s.mem s.pc g
  shown : Shows s.mem g a
  hist : replay s.hist = some a
  duty : ∀ c, Duty (s.pc c) (s.asked c) (s.did c)

omit [DecidableEq N] [DecidableEq C] in
theorem good_start (hs : Init s) : ∃ g, Good s g fun _ => .empty := by
  classical
  let place : N → Place Q T C := fun n =>
    if h : ∃ q, (s.mem.head q).2 = n then .chain h.choose
    else if h : ∃ t, s.mem.node t = n then .own h.choose
    else .spare
  let g : Ghost Q N T C := ⟨fun q => [(s.mem.head q).2], fun _ => 0, place, fun _ => .free⟩
  have hchain : ∀ q, place (s.mem.head q).2 = .chain q := by
    intro q
    have hex : ∃ q', (s.mem.head q').2 = (s.mem.head q).2 := ⟨q, rfl⟩
    simp only [place, dif_pos hex]
    exact congrArg _ (hs.apart _ _ hex.choose_spec)
  have hown : ∀ t, place (s.mem.node t) = .own t := by
    intro t
    have hno : ¬ ∃ q, (s.mem.head q).2 = s.mem.node t := fun ⟨q, hq⟩ => hs.owned q t hq
    have hex : ∃ t', s.mem.node t' = s.mem.node t := ⟨t, rfl⟩
    simp only [place, dif_neg hno, dif_pos hex]
    exact congrArg _ (hs.node _ _ hex.choose_spec)
  refine ⟨g, ⟨?_, ?_, ?_⟩, fun q => by simp [g, BlockQueue.empty], ?_, fun c => ?_⟩
  · constructor
    case head => exact fun q => ⟨[], rfl⟩
    case linked =>
      intro q
      obtain ⟨n, h1, _, h3⟩ := hs.queue q
      change (s.mem.next (s.mem.head q).2).2 = .cnt 0
      rw [h1, h3]
    case excl => exact fun q h => absurd rfl h
    case nodup => exact fun q => nodup_singleton _
    case tail =>
      intro q
      obtain ⟨n, h1, h2, _⟩ := hs.queue q
      simp [g, h1, h2]
    case place =>
      intro q n hn
      obtain rfl : n = (s.mem.head q).2 := by simpa [g] using hn
      exact hchain q
    case waits => exact fun q n hn => absurd hn (by simp [g])
    case waiting => exact fun t n h => absurd h (by simp [g])
    case own => exact fun t _ => ⟨hown t, hs.object t⟩
    case free => exact fun t => by simp [g, hs.free t]
  · constructor
    case node => exact fun c n h => absurd h (by simp [hs.pc c, Pc.node?])
    case thread => exact fun c t => by simp [hs.pc c, Pc.thread?, g]
  · intro c
    rw [hs.pc c]
    trivial
  · rw [hs.hist]
    rfl
  · rw [hs.pc c, hs.asked c, hs.did c]
    rfl

theorem Duty.after {c : C} {o : Outcome Q N T} (hgo : go true s.mem (s.pc c) = some o)
    (hd : ∀ c, Duty (s.pc c) (s.asked c) (s.did c)) (c' : C) :
    Duty ((s.after c o).pc c') ((s.after c o).asked c') ((s.after c o).did c') := by
  have hc' := hd c'
  by_cases hc : c' = c
  · subst hc
    rcases go_call hgo with ⟨h1, h2⟩ | ⟨e, h1, h2, h3⟩
    · simp only [Sys.after, h1, update_self]
      rw [Duty, h2]
      exact hc'
    · simp only [Sys.after, h1, update_self]
      rw [Duty, h2] at hc'
      rw [Duty, h3]
      exact hc'.1
  · simp only [Sys.after, update_of_ne hc]
    cases h : o.2.2 with
    | none => exact hc'
    | some e => simpa only [update_of_ne hc] using hc'

theorem Good.moved (h : Good s g a)
    (hroom : Roomy s.mem) {c : C} {o : Outcome Q N T} (hgo : go true s.mem (s.pc c) = some o) :
    ∃ g' a', Good (s.after c o) g' a' := by
  obtain ⟨g', hinv, hshow⟩ := go_explained h.inv hroom hgo
  obtain ⟨a', ha', hnext⟩ := hshow a h.shown
  refine ⟨g', a', hinv, ha', ?_, Duty.after hgo h.duty⟩
  simp only [Sys.after, replay, exec_append]
  have hist := h.hist
  rw [replay] at hist
  rw [hist]
  cases he : o.2.2 with
  | none =>
    rw [he] at hnext
    simp [exec, show a' = a from hnext]
  | some e =>
    rw [he] at hnext
    simp [exec, show replayOne a e = some a' from hnext]

theorem Good.called (h : Good s g a) {c : C}
    {f : Call Q T} (hb : begin s c f = some s') : ∃ g', Good s' g' a := by
  have hduty : ∀ (p : Pc Q N T) (c' : C), p.call = some f →
      Duty (update s.pc c p c') (update s.asked c (some f) c')
        (update s.did c none c') := by
    intro p c' hp
    by_cases hc : c' = c
    · subst hc
      simp only [update_self]
      rw [Duty, hp]
      exact ⟨rfl, rfl⟩
    · simpa only [update_of_ne hc] using h.duty c'
  cases f with
  | wake q =>
    simp only [begin] at hb
    split at hb
    next hidle =>
      cases hb
      exact ⟨g, h.inv.writes (Rely.refl c _ g) h.inv.shape hidle rfl rfl rfl rfl trivial,
        h.shown, h.hist, fun c' => hduty (.headStamp q) c' rfl⟩
    next => cases hb
  | block q t =>
    simp only [begin] at hb
    split at hb
    next hidle =>
      cases hb
      have hfree : g.spot t = .free := (h.inv.shape.free t).mp hidle.2
      obtain ⟨hown, hobj⟩ := h.inv.shape.own t hfree
      let g' := g.move (s.mem.node t) (.hand c) t (.hand c)
      have hplace : ∀ c' n, c' ≠ c → g.place n = .hand c' → g'.place n = .hand c' := by
        intro c' n _ hn
        have hne : n ≠ s.mem.node t := by
          rintro rfl
          rw [hown] at hn
          cases hn
        simpa [g', Ghost.move, update_of_ne hne] using hn
      have hR : Rely c s.mem (s.mem.setFree t false) g g' :=
        .setFree false rfl hplace (move_spot _ _ (by simp [hfree]) (spot_ne_hand rfl))
      refine ⟨g', h.inv.moved hR (h.inv.shape.take hfree) (fun n hn => ?_)
        (move_thread (h.inv.hands.thread c) (.inr (by rw [hidle.1]; rfl)) (.inl ⟨rfl, rfl⟩))
        ⟨hobj, rfl⟩, h.shown, h.hist, fun c' => hduty (.storeStamp t q _) c' rfl⟩
      obtain rfl : s.mem.node t = n := Option.some.inj hn
      simp [g', Ghost.move]
    next => cases hb

theorem good_reach (hs : Reach (step true) (fun s _ => Roomy s.mem) Init s) :
    ∃ g a, Good s g a := by
  refine Reach.inv (I := fun s => ∃ g a, Good s g a) (fun s h0 => ?_)
    (fun s act s' h hroom hstep => ?_) hs
  · obtain ⟨g, hg⟩ := good_start h0
    exact ⟨g, _, hg⟩
  · obtain ⟨g, a, hg⟩ := h
    cases act with
    | call c f =>
      obtain ⟨g', hg'⟩ := hg.called hstep
      exact ⟨g', a, hg'⟩
    | go c =>
      obtain ⟨o, hgo, rfl⟩ := Option.map_eq_some_iff.mp hstep
      exact hg.moved hroom hgo

/-! ## The result -/

/-- A thread waits at most once, and only one that does not run and is in nobody's
hands; and every thread is somewhere. -/
structure ThreadsOnce (s : Sys Q N T C) (a : Q → BlockQueue T) : Prop where
  nodup : ∀ q, (a q).waiters.Nodup
  one : ∀ q q' t, t ∈ (a q).waiters → t ∈ (a q').waiters → q = q'
  free : ∀ t q, s.mem.free t = true → t ∉ (a q).waiters
  held : ∀ c t, (s.pc c).thread? s.mem.object = some t →
    s.mem.free t = false ∧ (∀ q, t ∉ (a q).waiters) ∧
      ∀ c', (s.pc c').thread? s.mem.object = some t → c' = c
  somewhere : ∀ t, s.mem.free t = true ∨ (∃ q, t ∈ (a q).waiters) ∨
    ∃ c, (s.pc c).thread? s.mem.object = some t

/-- The queues as they are linked in memory. -/
structure Stored (s : Sys Q N T C) (a : Q → BlockQueue T) (chain : Q → List N) : Prop where
  head : ∀ q, (chain q).head? = some (s.mem.head q).2
  tail : ∀ q, (s.mem.tail q).2 ∈ chain q
  linked : ∀ q, Linked (fun n => (s.mem.next n).2) (chain q) (a q).pending
  waiters : ∀ q, (a q).waiters = (chain q).tail.map s.mem.object

/-- No node is in two places: in the queues, with a thread that runs, or in the
hands of a context. -/
structure NodesApart (s : Sys Q N T C) (chain : Q → List N) : Prop where
  nodup : ∀ q, (chain q).Nodup
  one : ∀ q q' n, n ∈ chain q → n ∈ chain q' → q = q'
  own : ∀ t, s.mem.free t = true → (∀ q, s.mem.node t ∉ chain q) ∧
    ∀ t', s.mem.free t' = true → s.mem.node t' = s.mem.node t → t' = t
  held : ∀ c n, (s.pc c).node? = some n → (∀ q, n ∉ chain q) ∧
    (∀ t, s.mem.free t = true → s.mem.node t ≠ n) ∧ ∀ c', (s.pc c').node? = some n → c' = c

/-- A step leaves the history alone, or it is the one effect of a call that had
none. -/
def Recorded (s s' : Sys Q N T C) : Prop :=
  (s'.hist = s.hist ∧ ∀ c, s'.did c = s.did c ∨ s.pc c = .idle ∧ s'.did c = none) ∨
  ∃ c e, s.asked c = some e.call ∧ s.did c = none ∧
    s'.did = update s.did c (some e) ∧ s'.hist = s.hist ++ [e]

section
omit [DecidableEq N] [DecidableEq C]

theorem Good.threadsOnce (h : Good s g a) : ThreadsOnce s a := by
  have hshape := h.inv.shape
  have hmem : ∀ q t, t ∈ (a q).waiters ↔ ∃ n ∈ (g.chain q).tail, s.mem.object n = t := by
    intro q t
    rw [(h.shown q).1, mem_map]
  have hwaits : ∀ q t, t ∈ (a q).waiters → ∃ n ∈ (g.chain q).tail, g.spot t = .waits n := by
    intro q t ht
    obtain ⟨n, hn, rfl⟩ := (hmem q t).mp ht
    exact ⟨n, hn, hshape.waits q n hn⟩
  constructor
  case nodup =>
    intro q
    rw [(h.shown q).1]
    refine List.Nodup.map_on (fun n hn n' hn' heq => ?_) (hshape.nodup q).tail
    have h1 := hshape.waits q n hn
    rw [heq, hshape.waits q n' hn'] at h1
    exact (Spot.waits.inj h1).symm
  case one =>
    intro q q' t ht ht'
    obtain ⟨n, hn, h1⟩ := hwaits q t ht
    obtain ⟨n', hn', h2⟩ := hwaits q' t ht'
    obtain rfl : n = n' := Spot.waits.inj (h1.symm.trans h2)
    exact hshape.chain_unique (mem_of_mem_tail hn') (mem_of_mem_tail hn)
  case free =>
    intro t q hf ht
    obtain ⟨n, _, h1⟩ := hwaits q t ht
    rw [(hshape.free t).mp hf] at h1
    cases h1
  case held =>
    intro c t ht
    have hspot := (h.inv.hands.thread c t).mp ht
    refine ⟨?_, fun q hq => ?_, fun c' hc' => ?_⟩
    · rw [Bool.eq_false_iff, Ne, hshape.free t, hspot]
      simp
    · obtain ⟨n, _, h1⟩ := hwaits q t hq
      rw [hspot] at h1
      cases h1
    · have h1 := (h.inv.hands.thread c' t).mp hc'
      rw [hspot] at h1
      exact (Spot.hand.inj h1).symm
  case somewhere =>
    intro t
    cases hspot : g.spot t with
    | free => exact .inl ((hshape.free t).mpr hspot)
    | waits n =>
      obtain ⟨q, hn, hobj⟩ := hshape.waiting t n hspot
      exact .inr (.inl ⟨q, (hmem q t).mpr ⟨n, hn, hobj⟩⟩)
    | hand c => exact .inr (.inr ⟨c, (h.inv.hands.thread c t).mpr hspot⟩)

theorem Good.stored (h : Good s g a) : Stored s a g.chain where
  head q := by
    obtain ⟨l, hl⟩ := h.inv.shape.head q
    rw [hl]
    rfl
  tail := h.inv.shape.tail
  linked q := by
    rw [(h.shown q).2]
    exact h.inv.shape.linked q
  waiters q := (h.shown q).1

theorem Good.nodesApart (h : Good s g a) : NodesApart s g.chain := by
  have hshape := h.inv.shape
  have hown : ∀ t, s.mem.free t = true → g.place (s.mem.node t) = .own t :=
    fun t ht => (hshape.own t ((hshape.free t).mp ht)).1
  constructor
  case nodup => exact hshape.nodup
  case one => exact fun q q' n hn hn' => hshape.chain_unique hn' hn
  case own =>
    intro t ht
    refine ⟨fun q hq => ?_, fun t' ht' heq => ?_⟩
    · have h1 := hown t ht
      rw [hshape.place q _ hq] at h1
      cases h1
    · have h1 := hown t' ht'
      rw [heq, hown t ht] at h1
      exact (Place.own.inj h1).symm
  case held =>
    intro c n hn
    have hplace := h.inv.hands.node c n hn
    refine ⟨fun q hq => hshape.ne_of_hand hplace hq rfl, fun t ht heq => ?_, fun c' hc' => ?_⟩
    · rw [← heq, hown t ht] at hplace
      cases hplace
    · have h1 := h.inv.hands.node c' n hc'
      rw [hplace] at h1
      exact (Place.hand.inj h1).symm

end

theorem Good.recorded (h : Good s g a)
    {act : Act Q T C} (hstep : step true s act = some s') : Recorded s s' := by
  cases act with
  | call c f =>
    have hdid : ∀ c', s.pc c = .idle →
        update s.did c none c' = s.did c' ∨
          s.pc c' = .idle ∧ update s.did c none c' = none := by
      intro c' hidle
      by_cases hc : c' = c
      · subst hc
        exact .inr ⟨hidle, update_self ..⟩
      · exact .inl (update_of_ne hc ..)
    cases f with
    | wake q =>
      simp only [step, begin] at hstep
      split at hstep
      next hidle =>
        cases hstep
        exact .inl ⟨rfl, fun c' => hdid c' hidle⟩
      next => cases hstep
    | block q t =>
      simp only [step, begin] at hstep
      split at hstep
      next hidle =>
        cases hstep
        exact .inl ⟨rfl, fun c' => hdid c' hidle.1⟩
      next => cases hstep
  | go c =>
    obtain ⟨o, hgo, rfl⟩ := Option.map_eq_some_iff.mp hstep
    have hd := h.duty c
    rcases go_call hgo with ⟨h1, h2⟩ | ⟨e, h1, h2, h3⟩
    · exact .inl ⟨by simp [Sys.after, h1], fun c' => .inl (by simp [Sys.after, h1])⟩
    · rw [Duty, h2] at hd
      exact .inr ⟨c, e, hd.1, hd.2, by simp [Sys.after, h1], by simp [Sys.after, h1]⟩

/-- **The markable queue is a block queue.**  In every state reached while no
counter is about to wrap around:

* the effects so far are those of block queues, FIFOs of waiters with a count of
  pending wakes, and memory holds the queues they lead to;
* no thread waits twice, and each one runs, waits, or is in the hands of one call;
* no node is in two places;
* a call that has returned had an effect that answers it, and a step adds to the
  history only as the first effect of a call. -/
theorem block_queue_linearizable (hs : Reach (step true) (fun s _ => Roomy s.mem) Init s) :
    ∃ a, replay s.hist = some a ∧ ThreadsOnce s a ∧
      (∃ chain, Stored s a chain ∧ NodesApart s chain) ∧
      (∀ c, s.pc c = .idle → s.asked c = (s.did c).map Ev.call) ∧
      ∀ act s', step true s act = some s' → Recorded s s' := by
  obtain ⟨g, a, h⟩ := good_reach hs
  refine ⟨a, h.hist, h.threadsOnce, ⟨g.chain, h.stored, h.nodesApart⟩, fun c hc => ?_,
    fun act s' hstep => h.recorded hstep⟩
  have hd := h.duty c
  rw [hc] at hd
  exact hd

end

/-! ## The count wraps around -/

/-- One queue and one thread that runs; the queue's sentinel is `false` and the
thread's node is `true`. -/
def fresh {C : Type} : Sys Unit Bool Unit C where
  mem := {
    head := fun _ => (0, false)
    tail := fun _ => (0, false)
    next := fun _ => (0, .cnt 0)
    object := fun _ => ()
    node := fun _ => true
    free := fun _ => true }
  pc := fun _ => .idle
  hist := []
  asked := fun _ => none
  did := fun _ => none

theorem fresh_init {C : Type} : Init (fresh (C := C)) where
  queue _ := ⟨false, rfl, rfl, rfl⟩
  apart _ _ _ := rfl
  owned _ _ h := Bool.false_ne_true h
  node _ _ _ := rfl
  object _ := rfl
  free _ := rfl
  pc _ := rfl
  hist := rfl
  asked _ := rfl
  did _ := rfl

instance {Q N T : Type} [Fintype Q] [Fintype N] (m : Mem Q N T) : Decidable (Roomy m) :=
  decidable_of_iff ((∀ q, (m.head q).1 + 1 < 2 ^ 64) ∧ (∀ q, (m.tail q).1 + 1 < 2 ^ 64) ∧
      (∀ n, (m.next n).1 + 1 < 2 ^ 64) ∧
      ∀ n, (match (m.next n).2 with | .cnt k => decide (k + 1 < 2 ^ 63) | .ptr _ => true) = true) <| by
    refine ⟨fun ⟨h1, h2, h3, h4⟩ => ⟨h1, h2, h3, fun n k hk => ?_⟩,
      fun h => ⟨h.head, h.tail, h.next, fun n => ?_⟩⟩
    · simpa [hk] using h4 n
    · cases hn : (m.next n).2 with
      | cnt k => simpa using h.count n k hn
      | ptr _ => rfl

/-- A wake that nobody waited for is used up by a block attempt; a second attempt waits, and a wake
that has begun before releases it. -/
theorem linearizable_pair : ∃ s : Sys Unit Bool Unit Bool,
    Reach (step true) (fun s _ => Roomy s.mem) Init s ∧
    s.hist = [.banks (), .passes () (), .waits () (), .releases () ()] ∧
    ∃ a, replay s.hist = some a ∧ ThreadsOnce s a := by
  obtain ⟨s, hs, hhist⟩ := run_finds (step true) (fun s _ => Roomy s.mem) Init
    (fun s => s.hist = [.banks (), .passes () (), .waits () (), .releases () ()])
    (.call true (.wake ()) :: replicate 8 (.go true) ++
      .call false (.block () ()) :: replicate 9 (.go false) ++
      .call false (.block () ()) :: replicate 6 (.go false) ++
      .call true (.wake ()) :: replicate 4 (.go true) ++ replicate 2 (.go false) ++
      replicate 10 (.go true))
    fresh_init (by decide +kernel) (by decide +kernel)
  obtain ⟨a, h1, h2, _⟩ := block_queue_linearizable hs
  exact ⟨s, hs, hhist, a, h1, h2⟩

/-- Nothing but `k` wakes has happened. -/
structure Woken (k : ℕ) (s : Sys Unit Bool Unit Unit) : Prop where
  head : s.mem.head () = (0, false)
  tail : s.mem.tail () = (0, false)
  next : s.mem.next false = (k % 2 ^ 64, .cnt (k % 2 ^ 63))
  node : s.mem.node () = true
  free : s.mem.free () = true
  pc : s.pc () = .idle
  hist : s.hist = List.replicate k (.banks ())

theorem exec_go {m : Mem Unit Bool Unit} {p : Pc Unit Bool Unit} {o : Outcome Unit Bool Unit}
    {pc : Unit → Pc Unit Bool Unit} {hist : List (Ev Unit Unit)} {asked : Unit → Option (Call Unit Unit)}
    {did : Unit → Option (Ev Unit Unit)} (as : List (Act Unit Unit Unit)) (hgo : go true m p = some o) :
    exec (step true) ⟨m, update pc () p, hist, asked, did⟩ (.go () :: as) =
      exec (step true) ⟨o.1, update pc () o.2.1, hist ++ o.2.2.toList, asked,
        o.2.2.elim did fun e => update did () (some e)⟩ as := by
  refine exec_cons ?_ as
  simp only [step, update_self, hgo, Option.map_some, Sys.after, update_idem]
  cases o.2.2 <;> rfl

theorem Woken.again {k : ℕ} {s : Sys Unit Bool Unit Unit} (h : Woken k s) :
    ∃ s', exec (step true) s (.call () (.wake ()) :: replicate 8 (.go ())) = some s' ∧
      Woken (k + 1) s' := by
  refine ⟨_, (exec_cons (if_pos h.pc) _).trans <|
    (exec_go _ (by rw [go, h.head])).trans <| (exec_go _ (by rw [go, h.head])).trans <|
    (exec_go _ (by rw [go, h.tail])).trans <| (exec_go _ (by rw [go, h.tail])).trans <|
    (exec_go _ (by rw [go, h.next])).trans <| (exec_go _ (by rw [go, h.next])).trans <|
    (exec_go _ (by rw [go, if_pos (by rw [h.head])])).trans <|
    (exec_go _ (by rw [if_pos rfl, go, if_pos h.next])).trans rfl,
    h.head, h.tail, ?_, h.node, h.free, rfl, ?_⟩
  · simp [bump, oneMore]
  · simp [h.hist, replicate_succ']

theorem woken_reach (k : ℕ) : ∃ s, Reach (step true) any Init s ∧ Woken k s := by
  induction k with
  | zero => exact ⟨fresh, .start fresh_init, ⟨rfl, rfl, rfl, rfl, rfl, rfl, rfl⟩⟩
  | succ k ih =>
    obtain ⟨s, hs, hk⟩ := ih
    obtain ⟨s', he, hk'⟩ := hk.again
    exact ⟨s', hs.exec _ (okRun_any _ _) he, hk'⟩

theorem Woken.block {k : ℕ} {s : Sys Unit Bool Unit Unit} (h : Woken k s) (hk : k % 2 ^ 63 = 0) :
    ∃ s', exec (step true) s (.call () (.block () ()) :: replicate 8 (.go ())) = some s' ∧
      s'.hist = replicate k (.banks ()) ++ [.waits () ()] := by
  -- the thread's node is reset before it is linked behind the sentinel
  obtain ⟨m, hm, htail, hnext⟩ : ∃ m, ((s.mem.setFree () false).setNext true
      (bump (s.mem.next true).1, (s.mem.next true).2)).setNext true (bump (s.mem.next true).1, .cnt 0) = m ∧
      m.tail () = (0, false) ∧ m.next false = (k % 2 ^ 64, .cnt 0) :=
    ⟨_, rfl, h.tail, by rw [← hk, ← h.next]; rfl⟩
  refine ⟨_, (exec_cons (if_pos ⟨h.pc, h.free⟩) _).trans <|
    (exec_go _ (by rw [h.node]; rfl)).trans <|
    (exec_go (o := (m, .tailStamp () () true, none)) _ (by rw [← hm]; rfl)).trans <|
    (exec_go _ (by rw [go, htail])).trans <| (exec_go _ (by rw [go, htail])).trans <|
    (exec_go _ (by rw [go, hnext])).trans <| (exec_go _ (by rw [go, hnext, inner])).trans <|
    (exec_go _ (by rw [go, if_pos (by rw [htail])])).trans <|
    (exec_go _ (by rw [go, if_pos hnext, if_neg (by simp)])).trans rfl, ?_⟩
  simp [h.hist]

theorem replay_banks (k : ℕ) : ∃ a : Unit → BlockQueue Unit,
    replay (replicate k (.banks ())) = some a ∧ (a ()).waiters = [] ∧ (a ()).pending = k := by
  induction k with
  | zero => exact ⟨fun _ => .empty, rfl, rfl, rfl⟩
  | succ k ih =>
    obtain ⟨a, ha, hw, hp⟩ := ih
    rcases (a ()).wake_cases with ⟨_, h2, h3, h4⟩ | ⟨t, l, h1, _⟩
    · refine ⟨update a () (a ()).wake.1, ?_, by simpa using h3, by simp [h4, hp]⟩
      rw [replay] at ha
      rw [replay, replicate_succ', exec_append, ha]
      simp [exec, replayOne, h2]
    · rw [hw] at h1
      cases h1

/-- **`2 ^ 63` wakes are forgotten.**  They find nobody waiting and are counted,
the odd value in the link wraps around to `__LFQ_NULL`, and the block attempt that
follows waits: no block queue behaves like this. -/
theorem wakes_wrap : ∃ s : Sys Unit Bool Unit Unit, Reach (step true) Trans.any Init s ∧
    s.hist = List.replicate (2 ^ 63) (.banks ()) ++ [.waits () ()] ∧ replay s.hist = none := by
  generalize hk : 2 ^ 63 = k
  obtain ⟨s, hs, hw⟩ := woken_reach k
  obtain ⟨s', he, hhist⟩ := hw.block (by rw [← hk]; exact Nat.mod_self _)
  refine ⟨s', hs.exec _ (okRun_any _ _) he, hhist, ?_⟩
  obtain ⟨a, ha, _, hp⟩ := replay_banks k
  rw [replay] at ha
  rw [hhist, replay, exec_append, ha]
  rcases (a ()).block_cases () with ⟨h0, _⟩ | ⟨_, h2, _⟩
  · rw [hp, ← hk] at h0
    cases h0
  · simp [exec, replayOne, h2]

end Librettos.Lfqueue
