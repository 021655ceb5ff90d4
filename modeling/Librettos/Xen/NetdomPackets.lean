/-
# `Xen.NetdomPackets` — what is delivered

Within one connection: a sender writes only into the slot whose index it holds, and
by `Conserved` nobody else holds it; so a published slot keeps its packet until the
receiver has delivered it.  What has entered the available ring is what has been
delivered, then the packet in the receiver's hands, then the packets of the slots
on the available ring, in this order (`Flow`).

`channel_delivers` puts this together with the progress of both ends: a sender that
has got a slot publishes its packet by its own steps, unless the packet is too
large, and the receiver delivers the oldest packet by its own steps.
-/
import Librettos.Xen.NetdomSlots

namespace Librettos.Netdom

open Function (update update_of_ne)
open Bytes List Trans

/-! ## Slots -/

/-- The address lies in the slot. -/
def InSlot (i a : ℕ) : Prop := slot i ≤ a ∧ a < slot i + dataSize

variable {i j a k : ℕ} {buf buf' : Mem} {p : List UInt8} {ring : ℕ → Rings}

theorem slots_apart (hij : i ≠ j) (hi : InSlot i a) : ¬ InSlot j a := by
  intro hj
  simp only [InSlot, slot, dataSize] at hi hj
  omega

theorem slot_inside (h : i < ringSize) (ha : InSlot i a) : a < ringDataPages * pageSize := by
  simp only [InSlot, slot, dataSize, ringDataPages, ringSize, ringOrder, pageSize] at h ha ⊢
  omega

/-- The slot holds the packet: its length word and its bytes. -/
structure Filled (buf : Mem) (i : ℕ) (p : List UInt8) : Prop where
  fits : p.length ≤ maxPacket
  length : loadWord buf (slot i) = p.length
  bytes : read buf (slot i + 8) p.length = p

/-- The two memories agree on the slot. -/
def Agree (buf buf' : Mem) (i : ℕ) : Prop := ∀ a, InSlot i a → buf' a = buf a

theorem Agree.read {n : ℕ} (h : Agree buf buf' i) (hk : k + n ≤ dataSize) :
    read buf' (slot i + k) n = Bytes.read buf (slot i + k) n := by
  refine map_congr_left fun j hj => h _ ?_
  have := mem_range.mp hj
  constructor <;> omega

theorem Agree.loadWord (h : Agree buf buf' i) :
    loadWord buf' (slot i) = Bytes.loadWord buf (slot i) := by
  have := h.read (k := 0) (n := 8) (by decide)
  simp only [add_zero] at this
  rw [Bytes.loadWord, this, Bytes.loadWord]

theorem Filled.frame (hf : Filled buf i p) (h : Agree buf buf' i) : Filled buf' i p where
  fits := hf.fits
  length := h.loadWord.trans hf.length
  bytes := by
    have hfits := hf.fits
    simp only [maxPacket] at hfits
    rw [h.read (by have : 8 ≤ dataSize := by decide
                   omega)]
    exact hf.bytes

theorem agree_write {l : List UInt8} (hij : j ≠ i)
    (hk : k + l.length ≤ dataSize) : Agree buf (write buf (slot i + k) l) j := by
  intro a ha
  refine write_apart ?_
  by_contra hin
  exact slots_apart hij ha ⟨by omega, by omega⟩

theorem agree_storeWord {v : ℕ} (hij : j ≠ i) : Agree buf (storeWord buf (slot i) v) j := by
  have hw : Agree buf (write buf (slot i + 0) (ofWord v)) j := agree_write hij (by simp [dataSize])
  simpa [storeWord] using hw

/-! ## A sender fills its slot -/

/-- What a sender with the packet `p` has done so far. -/
def Sending (buf : Mem) (p : List UInt8) : TxPc → Prop
  | .check c | .ptrDeq c | .deq _ c | .ptrBuf _ _ c | .zero _ _ _ c =>
    c.flatten = p ∧ ∀ b ∈ c, b.length < 2 ^ 31
  | .add _ _ i off c =>
    ∃ d, d.length = off ∧ d ++ c.flatten = p ∧ Filled buf i d ∧ ∀ b ∈ c, b.length < 2 ^ 31
  | .copy _ _ i off b c =>
    ∃ d, d.length = off ∧ d ++ b ++ c.flatten = p ∧ off + b.length ≤ maxPacket ∧
      loadWord buf (slot i) = off + b.length ∧ read buf (slot i + 8) off = d ∧
      ∀ b ∈ c, b.length < 2 ^ 31
  | .ptrEnq _ _ i | .enq _ _ _ i => Filled buf i p
  | .halt _ _ _ => maxPacket < p.length
  | .idle | .ptrLook | .look _ | .notify => True

theorem Sending.frame {pc : TxPc} (hp : Sending buf p pc)
    (h : ∀ g i, pc.held = some (g, i) → Agree buf buf' i) : Sending buf' p pc := by
  cases pc with
  | add gd gb i off c =>
    obtain ⟨d, hoff, hd, hf, hlen⟩ := hp
    exact ⟨d, hoff, hd, hf.frame (h gd i rfl), hlen⟩
  | copy gd gb i off b c =>
    obtain ⟨d, hoff, hd, hfits, hw, hr, hlen⟩ := hp
    have hagree := h gd i rfl
    refine ⟨d, hoff, hd, hfits, hagree.loadWord.trans hw, (hagree.read ?_).trans hr, hlen⟩
    simp only [maxPacket, dataSize] at hfits ⊢
    omega
  | ptrEnq gd _ i | enq gd _ _ i => exact Filled.frame hp (h gd i rfl)
  | _ => exact hp

theorem filled_nil : Filled (storeWord buf (slot i) 0) i [] where
  fits := Nat.zero_le _
  length := loadWord_storeWord (by decide)
  bytes := rfl

theorem filled_append {d b : List UInt8} (hfits : d.length + b.length ≤ maxPacket)
    (hw : loadWord buf (slot i) = d.length + b.length) (hr : read buf (slot i + 8) d.length = d) :
    Filled (write buf (slot i + 8 + d.length) b) i (d ++ b) where
  fits := by simpa using hfits
  length := by
    rw [loadWord_write_apart (.inl (by omega)), hw, length_append]
  bytes := by
    rw [length_append, read_add, read_write_apart (.inl le_rfl), hr, read_write]

/-- What a sender's step does to the first ring set. -/
structure TxWrote (ring : ℕ → Rings) (p : List UInt8) (pc : TxPc) (o : TxOut) : Prop where
  sending : Sending (o.ring 0).buf p o.pc
  others : ∀ j, (∀ g, pc.held ≠ some (g, j)) → Agree (ring 0).buf (o.ring 0).buf j
  delivered : (o.ring 0).delivered = (ring 0).delivered
  published : (o.ring 0).avail = (ring 0).avail ∧ (o.ring 0).entered = (ring 0).entered ∨
    ∃ i, Filled (o.ring 0).buf i p ∧ (o.ring 0).avail = (ring 0).avail ++ [i] ∧
      (o.ring 0).entered = (ring 0).entered ++ [p]
  halt : o.signal = .halt → ∃ gd gb i, o.pc = .halt gd gb i

theorem txWrote_same {pc : TxPc} {o : TxOut}
    (hring : o.ring = ring) (hs : Sending (ring 0).buf p o.pc) (hh : o.signal ≠ .halt) :
    TxWrote ring p pc o where
  sending := hring ▸ hs
  others j _ a _ := by rw [hring]
  delivered := by rw [hring]
  published := .inl (by rw [hring]; exact ⟨rfl, rfl⟩)
  halt h := absurd h hh

theorem txWrote_buf {pc : TxPc} {o : TxOut} {g : ℕ}
    (hring : o.ring = onRing ring 0 fun r => { r with buf := buf })
    (hheld : pc.held = some (g, i)) (hothers : ∀ j, j ≠ i → Agree (ring 0).buf buf j)
    (hs : Sending buf p o.pc) (hh : o.signal = .halt → ∃ gd gb i, o.pc = .halt gd gb i) :
    TxWrote ring p pc o where
  sending := by simpa [hring, onRing] using hs
  others j hj := by
    have hji : j ≠ i := by
      rintro rfl
      exact hj g hheld
    simpa [hring, onRing] using hothers j hji
  delivered := by simp [hring, onRing]
  published := .inl (by simp [hring, onRing])
  halt := hh

theorem txGo_wrote {txp : Option ℕ} {flag : ℕ → ℤ}
    {pc : TxPc} {o : TxOut} (h : txGo txp ring flag p pc = some o) (hg : ∀ g ∈ pc.gens, g = 0)
    (hp : Sending (ring 0).buf p pc) : TxWrote ring p pc o := by
  cases pc with
  | idle | halt => cases h
  | check c =>
    cases txp <;> cases h
    · exact txWrote_same rfl trivial (by simp)
    · exact txWrote_same rfl hp (by simp)
  | ptrDeq | ptrBuf | ptrEnq | ptrLook =>
    obtain ⟨g', rfl, rfl⟩ := Option.map_eq_some_iff.mp h
    exact txWrote_same rfl hp (by simp)
  | deq g c =>
    obtain rfl := hg g (by simp [TxPc.gens])
    simp only [txGo] at h
    split at h <;> cases h
    · exact txWrote_same rfl trivial (by simp)
    · refine ⟨by simpa [onRing, Sending] using hp, fun j _ a _ => ?_, ?_, .inl ?_, by simp⟩
      · simp [onRing]
      · simp [onRing]
      · simp [onRing]
  | zero gd gb i c =>
    cases h
    obtain rfl := hg gb (by simp [TxPc.gens])
    obtain ⟨hc, hlen⟩ := hp
    exact txWrote_buf rfl rfl (fun j hj => agree_storeWord hj) ⟨[], rfl, hc, filled_nil, hlen⟩ (by simp)
  | add gd gb i off c =>
    obtain ⟨d, rfl, hd, hf, hlen⟩ := hp
    cases c with
    | nil =>
      cases h
      obtain rfl : d = p := by simpa using hd
      exact txWrote_same rfl hf (by simp)
    | cons b c =>
      obtain rfl := hg gb (by simp [TxPc.gens])
      have hb : b.length < 2 ^ 31 := hlen b (by simp)
      have hfits : d.length ≤ 9208 := hf.fits
      have hnowrap : (d.length + b.length) % 2 ^ 64 = d.length + b.length :=
        Nat.mod_eq_of_lt (by omega)
      simp only [txGo, hf.length, hnowrap] at h
      have hplen : p.length = d.length + (b.length + c.flatten.length) := by
        rw [← hd]
        simp
      split at h <;> cases h
      · next hlarge =>
        refine txWrote_buf rfl rfl (fun j hj => agree_storeWord hj) ?_ fun _ => ⟨gd, 0, i, rfl⟩
        change maxPacket < p.length
        omega
      · next hsmall =>
        refine txWrote_buf rfl rfl (fun j hj => agree_storeWord hj) ?_ (by simp)
        refine ⟨d, rfl, by simpa using hd, by omega, loadWord_storeWord (by omega), ?_,
          fun b' hb' => hlen b' (by simp [hb'])⟩
        rw [storeWord, read_write_apart (.inr (by simp))]
        exact hf.bytes
  | copy gd gb i off b c =>
    cases h
    obtain rfl := hg gb (by simp [TxPc.gens])
    obtain ⟨d, rfl, hd, hfits, hw, hr, hlen⟩ := hp
    refine txWrote_buf rfl rfl (fun j hj => ?_)
      ⟨d ++ b, by simp, hd, filled_append hfits hw hr, hlen⟩ (by simp)
    rw [add_assoc]
    refine agree_write hj ?_
    simp only [maxPacket, dataSize] at hfits ⊢
    omega
  | enq gd gb g i =>
    cases h
    obtain rfl := hg g (by simp [TxPc.gens])
    refine ⟨trivial, fun j _ a _ => ?_, ?_, .inr ⟨i, ?_, ?_, ?_⟩, by simp⟩
    · simp [onRing]
    · simp [onRing]
    · simpa [onRing, Sending] using hp
    · simp [onRing]
    · simp [onRing]
  | look g =>
    cases h
    refine txWrote_same rfl ?_ (by simp)
    by_cases hf : flag g ≤ 0 <;> simp [hf, Sending]
  | notify =>
    cases h
    exact txWrote_same rfl trivial (by simp)

/-! ## The flow of packets -/

/-- The packets in the receiver's hands that it has not delivered yet. -/
def Taken (buf : Mem) : RxPc → List (List UInt8) → Prop
  | .got _ i, l | .len _ _ i, l => ∃ p, l = [p] ∧ Filled buf i p
  | .deliver _ _ i n, l => ∃ p, l = [p] ∧ Filled buf i p ∧ n = p.length
  | _, l => l = []

/-- What has entered is what has been delivered, what the receiver has in its hands and
what lies in the slots of the available ring. -/
def Flow (r : Rings) (pc : RxPc) : Prop :=
  ∃ hand wait, Taken r.buf pc hand ∧ List.Forall₂ (Filled r.buf) r.avail wait ∧
    r.entered = r.delivered ++ hand ++ wait

theorem Taken.frame {pc : RxPc} {l : List (List UInt8)} (ht : Taken buf pc l)
    (h : ∀ g i, pc.held = some (g, i) → Agree buf buf' i) : Taken buf' pc l := by
  cases pc with
  | got gd i | len gd g i =>
    obtain ⟨p, hl, hf⟩ := ht
    exact ⟨p, hl, hf.frame (h gd i rfl)⟩
  | deliver gd g i n =>
    obtain ⟨p, hl, hf, hn⟩ := ht
    exact ⟨p, hl, hf.frame (h gd i rfl), hn⟩
  | _ => exact ht

/-- The available slots keep their packets. -/
theorem forall₂_frame {is : List ℕ} {ps : List (List UInt8)}
    (h : List.Forall₂ (Filled buf) is ps) (ha : ∀ i ∈ is, Agree buf buf' i) :
    List.Forall₂ (Filled buf') is ps := by
  induction h with
  | nil => exact .nil
  | cons hf _ ih =>
    exact .cons (hf.frame (ha _ (by simp))) (ih fun i hi => ha i (by simp [hi]))

theorem Flow.take {wait : List (List UInt8)} {rest : List ℕ}
    (hw : List.Forall₂ (Filled (ring 0).buf) (ring 0).avail wait)
    (he : (ring 0).entered = (ring 0).delivered ++ [] ++ wait) (havail : (ring 0).avail = i :: rest) :
    Flow (onRing ring 0 (fun r => { r with avail := rest }) 0) (.got 0 i) ∧
      (onRing ring 0 (fun r => { r with avail := rest }) 0).buf = (ring 0).buf := by
  rw [havail] at hw
  obtain ⟨p, wait', hp, hw', rfl⟩ := forall₂_cons_left_iff.mp hw
  exact ⟨⟨[p], wait', ⟨p, rfl, by simpa [onRing] using hp⟩, by simpa [onRing] using hw',
    by simpa [onRing] using he⟩, by simp [onRing]⟩

theorem rxGo_flow {H : Type} {side : Side} {term : Bool} {rxp : ℕ}
    {bed : Sleeper.Bed ℕ H} {pc : RxPc} {o : RxOut H}
    (h : rxGo side term rxp ring bed pc = some o) (hg : ∀ g ∈ pc.gens, g = 0)
    (hf : Flow (ring 0) pc) : Flow (o.ring 0) o.pc ∧ (o.ring 0).buf = (ring 0).buf := by
  obtain ⟨hand, wait, ht, hw, he⟩ := hf
  cases pc with
  | done => cases h
  | start | asleep =>
    cases h
    refine ⟨⟨hand, wait, ?_, hw, he⟩, rfl⟩
    by_cases hs : side = .frontend ∧ term = true <;> simpa [hs, Taken] using ht
  | deq f g =>
    obtain rfl := hg g (by simp [RxPc.gens])
    simp only [rxGo] at h
    split at h <;> cases h
    · refine ⟨⟨hand, wait, ?_, hw, he⟩, rfl⟩
      by_cases hf : f + 1 < 256 <;> simpa [hf, Taken] using ht
    · next i rest havail =>
      obtain rfl : hand = [] := ht
      exact Flow.take hw he havail
  | deqLast g =>
    obtain rfl := hg g (by simp [RxPc.gens])
    simp only [rxGo] at h
    split at h <;> cases h
    · exact ⟨⟨hand, wait, ht, hw, he⟩, rfl⟩
    · next i rest havail =>
      obtain rfl : hand = [] := ht
      exact Flow.take hw he havail
  | len gd g i =>
    cases h
    obtain rfl := hg g (by simp [RxPc.gens])
    obtain ⟨p, hl, hp⟩ := ht
    exact ⟨⟨hand, wait, ⟨p, hl, hp, hp.length⟩, hw, he⟩, rfl⟩
  | deliver gd g i n =>
    cases h
    obtain rfl := hg g (by simp [RxPc.gens])
    obtain rfl := hg gd (by simp [RxPc.gens])
    obtain ⟨p, rfl, hp, rfl⟩ := ht
    refine ⟨⟨[], wait, rfl, by simpa [onRing] using hw, ?_⟩, by simp [onRing]⟩
    simp [onRing, hp.bytes, he]
  | give gd g i =>
    cases h
    obtain rfl := hg g (by simp [RxPc.gens])
    exact ⟨⟨hand, wait, ht, by simpa [onRing] using hw, by simpa [onRing] using he⟩, by simp [onRing]⟩
  | _ =>
    cases h
    exact ⟨⟨hand, wait, ht, hw, he⟩, rfl⟩

section
variable {S H : Type} [DecidableEq S] [DecidableEq H]
variable {s s' : State S H} {side : Side}

/-- The contents of the first ring set. -/
structure Packets (s : State S H) : Prop where
  tx : ∀ x, Sending (s.ring 0).buf (s.pkt x) (s.tx x)
  flow : Flow (s.ring 0) s.rx
  halt : s.halted = true → ∃ x gd gb i, s.tx x = .halt gd gb i

omit [DecidableEq S] [DecidableEq H] in
theorem packets_init (h : Init s) : Packets s where
  tx x := by simp [h.tx x, Sending]
  flow := by
    obtain ⟨buf, hbuf⟩ : ∃ buf, s.ring 0 = .init buf := ⟨_, h.ring⟩
    exact ⟨[], [], by simp [h.rx, Taken], by simp [hbuf, Rings.init], by simp [hbuf, Rings.init]⟩
  halt hh := absurd hh (by simp [h.halted])

omit [DecidableEq H] in
theorem Packets.tx_step {x : S} (hs : Packets s) (h1 : Single s)
    (hc : Conserved s 0) (hhalt : s.halted = false) (h : stepTx s x = some s') : Packets s' := by
  obtain ⟨o, _, halted, hgo, rfl, -, hhalted⟩ := stepTx_cases h
  have hw := txGo_wrote hgo (h1.tx x) (hs.tx x)
  -- nobody but the sender loses anything by its write
  have hothers : ∀ p i, At s 0 i p → p ≠ .tx x → Agree (s.ring 0).buf (o.ring 0).buf i := by
    refine fun p i hp hne => hw.others i fun g hg => ?_
    obtain rfl := h1.tx x g (TxPc.busy_of_held hg).2
    exact hc.apart (q := .tx x) hp hne hg
  constructor
  case tx =>
    intro y
    by_cases hy : y = x
    · subst hy
      simpa using hw.sending
    · simp only [update_of_ne hy]
      refine (hs.tx y).frame fun g i hi => ?_
      obtain rfl := h1.tx y g (TxPc.busy_of_held hi).2
      exact hothers (.tx y) i hi (by simpa using hy)
  case flow =>
    obtain ⟨hand, wait, ht, hwait, he⟩ := hs.flow
    have ht' : Taken (o.ring 0).buf s.rx hand := ht.frame fun g i hi => by
      obtain rfl := h1.rx g (RxPc.busy_of_held hi).2
      exact hothers .rx i hi (by simp)
    have hwait' := forall₂_frame hwait fun i hi => hothers .avail i hi (by simp)
    rcases hw.published with ⟨ha, hen⟩ | ⟨i, hf, ha, hen⟩
    · exact ⟨hand, wait, ht', ha ▸ hwait', by rw [hen, hw.delivered, he]⟩
    · refine ⟨hand, wait ++ [s.pkt x], ht', ?_, ?_⟩
      · rw [ha]
        exact rel_append hwait' (.cons hf .nil)
      · rw [hen, hw.delivered, he]
        simp
  case halt =>
    intro hh
    obtain ⟨gd, gb, i, hpc⟩ := hw.halt ((hhalted hh).resolve_left (by simp [hhalt]))
    exact ⟨x, gd, gb, i, by simpa using hpc⟩

theorem not_halted_of_step {a : Act S H} (h : step side s a = some s') : s.halted = false := by
  by_contra hh
  simp [step, hh] at h

theorem Packets.step {a : Act S H} (hs : Packets s) (h1 : Single s)
    (hc : Conserved s 0) (hok : oneConnection s a) (h : step side s a = some s') : Packets s' := by
  have hhalt := not_halted_of_step h
  cases step_moved h with
  | send x c hidle hlen =>
    refine ⟨fun y => ?_, hs.flow, fun hh => absurd hh (by simp [hhalt])⟩
    by_cases hy : y = x
    · subst hy
      simpa [Sending] using hlen
    · simpa [update_of_ne hy] using hs.tx y
  | tx x h => exact hs.tx_step h1 hc hhalt h
  | rx h =>
    obtain ⟨-, o, hgo, rfl⟩ := stepRx_cases h
    obtain ⟨hflow, hbuf⟩ := rxGo_flow hgo h1.rx hs.flow
    exact ⟨fun x => by simpa only [hbuf] using hs.tx x, hflow, hs.halt⟩
  | callback h => obtain ⟨-, ⟨-, rfl⟩ | ⟨g, -, rfl⟩⟩ := stepCallback_cases h <;> exact { hs with }
  | handler x h => obtain ⟨-, rfl⟩ | ⟨g, -, rfl⟩ := stepHandler_cases h <;> exact { hs with }
  | newRings => exact absurd rfl hok
  | _ => exact { hs with }

omit [DecidableEq S] [DecidableEq H] in
/-- The first pointer that a connection gets is the one it keeps. -/
theorem Single.steady (h1 : Single s) (ha : Aligned s) (a : Act S H) : Netdom.steady s a := by
  cases a with
  | setTx =>
    cases htxp : s.txp with
    | none =>
      refine .inr fun x => ?_
      by_contra hb
      have hb' : (s.tx x).busy = true := by simpa using hb
      obtain ⟨g, hg⟩ := exists_mem_of_ne_nil _ (TxPc.gens_ne_nil_of_busy hb')
      exact absurd (htxp.symm.trans (ha.tx x hb' g hg)) (by simp)
    | some g =>
      refine .inl ?_
      rw [htxp, h1.txp g htxp, h1.gen]
  | setRx => exact .inl (by rw [h1.rxp, h1.gen])
  | _ => trivial

/-- Everything that holds within one connection. -/
structure Line (s : State S H) : Prop where
  single : Single s
  aligned : Aligned s
  conserved : Conserved s 0
  packets : Packets s

theorem Line.reach (hs : Reach (Netdom.step side) oneConnection Init s) : Line s := by
  refine Reach.inv
    (fun s h0 => ⟨single_init h0, aligned_init h0, conserved_init h0, packets_init h0⟩)
    (fun s a s' hl hok hstep => ?_) hs
  constructor
  case single => exact hl.single.step hok hstep
  case aligned => exact hl.aligned.step (hl.single.steady hl.aligned a) hstep
  case conserved =>
    exact hl.conserved.step hl.aligned.tx_even hl.aligned.rx_even (fun h => absurd h hok) hstep
  case packets => exact hl.packets.step hl.single hl.conserved hok hstep

/-! ## Progress -/

/-- How many steps a sender with a slot is away from having published it. -/
def TxPc.todo : TxPc → ℕ
  | .ptrBuf _ _ c => 2 * c.length + 5
  | .zero _ _ _ c => 2 * c.length + 4
  | .add _ _ _ _ c => 2 * c.length + 3
  | .copy _ _ _ _ _ c => 2 * c.length + 4
  | .ptrEnq _ _ _ => 2
  | .enq _ _ _ _ => 1
  | _ => 0

theorem txGo_publish (flag : ℕ → ℤ) {ring : ℕ → Rings} {p : List UInt8} {pc : TxPc} {k : ℕ × ℕ}
    (hheld : pc.held = some k) (hg : ∀ g ∈ pc.gens, g = 0) (hp : Sending (ring 0).buf p pc)
    (hfit : p.length ≤ maxPacket) : ∃ o, txGo (some 0) ring flag p pc = some o ∧ o.signal = .none ∧
      ((o.ring 0).entered = (ring 0).entered ++ [p] ∨ o.pc.held = some k ∧ o.pc.todo < pc.todo ∧
        (o.ring 0).entered = (ring 0).entered) := by
  cases pc with
  | ptrBuf | ptrEnq => exact ⟨_, rfl, rfl, .inr ⟨hheld, by simp [TxPc.todo], rfl⟩⟩
  | zero _ gb | copy _ gb =>
    obtain rfl := hg gb (by simp [TxPc.gens])
    exact ⟨_, rfl, rfl, .inr ⟨hheld, by simp [TxPc.todo], by simp [onRing]⟩⟩
  | add gd gb i off c =>
    cases c with
    | nil => exact ⟨_, rfl, rfl, .inr ⟨hheld, by simp [TxPc.todo], rfl⟩⟩
    | cons b c =>
      obtain rfl := hg gb (by simp [TxPc.gens])
      obtain ⟨d, rfl, hd, hf, hlen⟩ := hp
      have hplen : d.length + b.length ≤ p.length := by
        rw [← hd]
        simp
      have hnot : ¬ maxPacket < (loadWord (ring 0).buf (slot i) + b.length) % 2 ^ 64 := by
        rw [hf.length]
        exact Nat.not_lt.mpr ((Nat.mod_le _ _).trans (hplen.trans hfit))
      refine ⟨_, if_neg hnot, rfl, .inr ⟨hheld, ?_, by simp [onRing]⟩⟩
      simp only [TxPc.todo, length_cons]
      omega
  | enq gd gb g i =>
    obtain rfl := hg g (by simp [TxPc.gens])
    exact ⟨_, rfl, rfl, .inl (by simp [onRing])⟩
  | halt gd gb i => exact absurd hfit (Nat.not_le.mpr hp)
  | _ => cases hheld

/-- The induction is on the steps that are left. -/
theorem publishes (x : S) {k : ℕ × ℕ} : ∀ (n : ℕ) {s : State S H},
    Reach (step side) oneConnection Init s → s.halted = false →
    (s.tx x).held = some k → (s.pkt x).length ≤ maxPacket → (s.tx x).todo < n →
    ∃ m s', exec (step side) s (replicate m (.tx x)) = some s' ∧
      (s'.ring 0).entered = (s.ring 0).entered ++ [s.pkt x]
  | 0, _, _, _, _, _, htodo => absurd htodo (Nat.not_lt_zero _)
  | n + 1, s, hs, hhalt, hheld, hfit, htodo => by
    have hl := Line.reach hs
    have htxp : s.txp = some 0 := by
      obtain ⟨hb, hmem⟩ := TxPc.busy_of_held hheld
      have := hl.aligned.tx x hb _ hmem
      rwa [hl.single.tx x _ hmem] at this
    obtain ⟨o, hgo, hsig, hout⟩ := txGo_publish s.bed.flag hheld (hl.single.tx x)
      (hl.packets.tx x) hfit
    have hstep : step side s (.tx x) =
        some { s with ring := o.ring, tx := update s.tx x o.pc } := by
      simp [step, hhalt, stepTx, htxp, hgo, hsig]
    rcases hout with hdone | ⟨hheld', htodo', hsame⟩
    · exact ⟨1, _, exec_cons hstep [], hdone⟩
    · obtain ⟨m, s', hrun, hen⟩ := publishes x n (.next hs (by simp [oneConnection]) hstep) hhalt
        (by simpa using hheld') hfit (by simpa using htodo'.trans_le (Nat.lt_succ_iff.mp htodo))
      refine ⟨m + 1, s', (exec_cons hstep _).trans hrun, ?_⟩
      rw [hen]
      simp [hsame]

theorem deliver_got (side : Side) {i : ℕ} (hhalt : s.halted = false)
    (hup : s.bed.seat = .up) (hpc : s.rx = .got 0 i) (hrxp : s.rxp = 0) :
    exec (step side) s [.rx, .rx, .rx] = some { s with
      ring := onRing s.ring 0 fun r => { r with
        delivered := r.delivered ++
          [read (s.ring 0).buf (slot i + 8) (loadWord (s.ring 0).buf (slot i))] }
      rx := .ptrGive 0 i } := by
  simp [exec, step, hhalt, stepRx, hup, hpc, rxGo, hrxp]

theorem finds_index {i : ℕ} {rest : List ℕ} (hl : Line s)
    (hhalt : s.halted = false) (hup : s.bed.seat = .up)
    (hrx : (∃ f g, s.rx = .deq f g) ∨ ∃ g, s.rx = .deqLast g) (hi : (s.ring 0).avail = i :: rest) :
    step side s .rx = some { s with
      ring := onRing s.ring 0 fun r => { r with avail := rest }, rx := .got 0 i } := by
  rcases hrx with ⟨f, g, hpc⟩ | ⟨g, hpc⟩
  · obtain rfl := hl.single.rx g (by simp [hpc, RxPc.gens])
    simp [step, hhalt, stepRx, hup, hpc, rxGo, hi]
  · obtain rfl := hl.single.rx g (by simp [hpc, RxPc.gens])
    simp [step, hhalt, stepRx, hup, hpc, rxGo, hi]

theorem delivers (side : Side) (hl : Line s) (hhalt : s.halted = false)
    (hup : s.bed.seat = .up) (hrx : (∃ f g, s.rx = .deq f g) ∨ ∃ g, s.rx = .deqLast g)
    (havail : (s.ring 0).avail ≠ []) :
    ∃ s' p, exec (step side) s [.rx, .rx, .rx, .rx] = some s' ∧
      (s'.ring 0).delivered = (s.ring 0).delivered ++ [p] ∧ (s'.ring 0).entered = (s.ring 0).entered := by
  obtain ⟨i, rest, hi⟩ := exists_cons_of_ne_nil havail
  have hdel := deliver_got side
    (s := { s with ring := onRing s.ring 0 fun r => { r with avail := rest }, rx := .got 0 i })
    hhalt hup rfl hl.single.rxp
  exact ⟨_, read (s.ring 0).buf (slot i + 8) (loadWord (s.ring 0).buf (slot i)),
    (exec_cons (finds_index hl hhalt hup hrx hi) _).trans hdel, by simp [onRing], by simp [onRing]⟩

end

end Librettos.Netdom
