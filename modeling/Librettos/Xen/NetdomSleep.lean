/-
# `Xen.NetdomSleep` — the receiver's sleep

Two facts about the handshake between senders, interrupts and the receiver over
the word `readers`.

* `no_packet_left`: where nobody sends before the event channel is bound, and as
  long as the ring set is not replaced, a receiver that is switched out for good, with no notification
  on its way and no sender that has published but not yet looked at `readers`,
  has left nothing in the available ring.
* `handler_wakes_sleeper`: where every interrupt hits a ring set on whose
  `readers` the receiver has already stored, the handler wakes only a receiver that
  sleeps in its own `bmk_sched_block`.  The condition is needed: a new ring set has
  `readers = 0`, the value that stands for asleep, so that an interrupt before the
  receiver's first store wakes a thread that is on its run queue
  (`handler_wakes_queued`).
-/
import Librettos.Xen.NetdomGens

namespace Librettos.Netdom

open Function (update update_of_ne)
open Sleeper Trans

section
variable {H : Type} {side : Side} {term : Bool} {rxp : ℕ} {ring : ℕ → Rings} {bed : Bed ℕ H}
  {pc : RxPc} {o : RxOut H}

/-! ## What the receiver's steps do to its bed -/

/-- The steps of the receiver, by what they do to the bed. -/
inductive RxBed (ring : ℕ → Rings) (bed : Bed ℕ H) (pc : RxPc) (o : RxOut H) : Prop
  | keep (hbed : o.bed = bed) (hne : o.pc ≠ .asleep)
      (hblock : o.pc = .block → ∃ g ∈ pc.gens, (ring g).avail = [] ∧ o.ring = ring)
  | store (g : ℕ) (v : ℤ) (hv : v ≠ 0) (hbed : o.bed = bed.store g v) (hg : g ∈ pc.gens)
      (hne : o.pc ≠ .asleep) (hblock : o.pc ≠ .block)
  | yield (f : ℕ) (hbed : o.bed = bed.yield) (hpc : o.pc = .yielded f)
  | leave (hpc : pc = .block) (hbed : o.bed = bed.leave) (hpc' : o.pc = .asleep)
      (hring : o.ring = ring)

theorem rxGo_bed (h : rxGo side term rxp ring bed pc = some o) : RxBed ring bed pc o := by
  cases pc with
  | start | asleep =>
    cases h
    by_cases hs : side = .frontend ∧ term = true
    · exact .keep rfl (by simp [hs]) (by simp [hs])
    · exact .keep rfl (by simp [hs]) (by simp [hs])
  | done => cases h
  | up g =>
    cases h
    exact .store g 1 (by decide) rfl (by simp [RxPc.gens]) (by simp) (by simp)
  | store g =>
    cases h
    exact .store g (-1) (by decide) rfl (by simp [RxPc.gens]) (by simp) (by simp)
  | yield f =>
    cases h
    exact .yield f rfl rfl
  | block =>
    cases h
    exact .leave rfl rfl rfl rfl
  | deq f g =>
    simp only [rxGo] at h
    split at h <;> cases h
    · by_cases hf : f + 1 < 256
      · exact .keep rfl (by simp [hf]) (by simp [hf])
      · exact .keep rfl (by simp [hf]) (by simp [hf])
    · exact .keep rfl (by simp) (by simp)
  | deqLast g =>
    simp only [rxGo] at h
    split at h <;> cases h
    · next hempty => exact .keep rfl (by simp) fun _ => ⟨g, by simp [RxPc.gens], hempty, rfl⟩
    · exact .keep rfl (by simp) (by simp)
  | _ =>
    cases h
    exact .keep rfl (by simp) (by simp)

theorem rxGo_waking (h : rxGo side term rxp ring bed pc = some o) : o.bed.waking = bed.waking := by
  cases rxGo_bed h with
  | keep hbed => rw [hbed]
  | store _ _ _ hbed | yield _ hbed | leave _ hbed =>
    rw [hbed]
    rfl

end

/-! ## Processors in the handler -/

section
variable {S H : Type} [DecidableEq S] [DecidableEq H]
variable {s s' : State S H} {side : Side} {a : Act S H}

/-- A processor in the handler is not about to wake the receiver. -/
def Handling (s : State S H) : Prop := ∀ h, s.hd h ≠ .idle → s.bed.waking h = false

omit [DecidableEq S] in
theorem Handling.moves (hs : Handling s) {x : H} {p : HdPc}
    (hx : s.bed.waking x = false) (hbed : s'.bed = s.bed) (hhd : s'.hd = update s.hd x p) :
    Handling s' := by
  intro y hy
  rw [hbed]
  by_cases hyx : y = x
  · exact hyx ▸ hx
  · exact hs y (by rwa [hhd, update_of_ne hyx] at hy)

omit [DecidableEq S] in
theorem Handling.handler (hs : Handling s) {x : H}
    (h : stepHandler s x = some s') : Handling s' := by
  obtain ⟨hpc, rfl⟩ | ⟨g, hpc, rfl⟩ := stepHandler_cases h
  · exact hs.moves (hs x (by simp [hpc])) rfl rfl
  · intro y hy
    have hyx : y ≠ x := by
      rintro rfl
      exact absurd hy (by simp)
    have hy' : s.hd y ≠ .idle := by simpa [update_of_ne hyx] using hy
    simpa [Bed.call, update_of_ne hyx] using hs y hy'

theorem Handling.step (hs : Handling s) (h : step side s a = some s') : Handling s' := by
  cases step_moved h with
  | tx x h =>
    obtain ⟨o, _, _, -, rfl, -⟩ := stepTx_cases h
    exact hs
  | rx h =>
    obtain ⟨-, o, hgo, rfl⟩ := stepRx_cases h
    exact fun x hx => (congrFun (rxGo_waking hgo) x).trans (hs x hx)
  | callback h =>
    obtain ⟨-, ⟨-, rfl⟩ | ⟨g, -, rfl⟩⟩ := stepCallback_cases h
    · exact hs
    · exact fun x hx => (congrFun (Bed.settle_waking ..) x).trans (hs x hx)
  | handler x h => exact hs.handler h
  | deliver x _ _ hc | terminate x _ hc => exact hs.moves hc.2 rfl rfl
  | wake x =>
    intro y hy
    by_cases hyx : y = x
    · simp [Bed.wake, hyx]
    · simpa [Bed.wake, update_of_ne hyx] using hs y hy
  | send | requeue | resume | event | bind | unmask | newRings | setRx | setTx => exact hs

/-! ## The seat of the receiver -/

/-- Where the receiver is when it is off the processor. -/
structure Seated (s : State S H) : Prop where
  leaving : s.bed.seat = .leaving → s.rx = .asleep
  out : s.bed.seat = .out → s.bed.queued = 0 → s.rx = .asleep

section
omit [DecidableEq S] [DecidableEq H]

theorem seated_init (h : Init s) : Seated s where
  leaving hseat := absurd (h.seat.symm.trans hseat) (by simp)
  out _ hq := absurd (h.queued.symm.trans hq) (by simp)

theorem Seated.rx (h : stepRx side s = some s') : Seated s' := by
  obtain ⟨hup, o, hgo, rfl⟩ := stepRx_cases h
  cases rxGo_bed hgo with
  | keep hbed =>
    exact ⟨fun h1 => absurd h1 (by simp [hbed, hup]), fun h1 => absurd h1 (by simp [hbed, hup])⟩
  | store g v hv hbed =>
    exact ⟨fun h1 => absurd h1 (by simp [hbed, Bed.store, hup]),
      fun h1 => absurd h1 (by simp [hbed, Bed.store, hup])⟩
  | yield f hbed =>
    exact ⟨fun h1 => absurd h1 (by simp [hbed, Bed.yield]),
      fun h1 => absurd h1 (by simp [hbed, Bed.yield])⟩
  | leave _ _ hpc => exact ⟨fun _ => hpc, fun _ _ => hpc⟩

end

theorem Seated.step (hs : Seated s) (h : step side s a = some s') : Seated s' := by
  cases step_moved h with
  | tx x h =>
    obtain ⟨o, _, _, -, rfl, -⟩ := stepTx_cases h
    exact { hs with }
  | rx h => exact .rx h
  | callback h =>
    obtain ⟨hseat, ⟨-, rfl⟩ | ⟨g, -, rfl⟩⟩ := stepCallback_cases h
    · exact { hs with }
    · exact ⟨fun _ => hs.leaving hseat, fun _ _ => hs.leaving hseat⟩
  | requeue =>
    exact ⟨fun h1 => absurd h1 (by simp [Bed.turn]), fun _ h1 => absurd h1 (by simp [Bed.turn])⟩
  | resume =>
    exact ⟨fun h1 => absurd h1 (by simp [Bed.resume]), fun h1 => absurd h1 (by simp [Bed.resume])⟩
  | handler x h => obtain ⟨-, rfl⟩ | ⟨g, -, rfl⟩ := stepHandler_cases h <;> exact { hs with }
  | wake x => exact ⟨hs.leaving, fun _ h1 => absurd h1 (by simp [Bed.wake])⟩
  | send | event | deliver | terminate | bind | unmask | newRings | setRx | setTx => exact { hs with }

/-! ## The handler wakes only a sleeping receiver -/

/-- An interrupt hits only a ring set on whose `readers` the receiver has stored. -/
def usedWord (s : State S H) : Act S H → Prop
  | .handler h => ∀ g ∈ (s.hd h).gens, s.bed.used g = true
  | _ => True

instance (s : State S H) (a : Act S H) : Decidable (usedWord s a) := by
  cases a <;> unfold usedWord <;> infer_instance

/-- What holds of the bed, and where the receiver is when it is off the processor. -/
structure Slept (s : State S H) : Prop extends Seated s where
  sound : Sound s.bed
  calm : Handling s

omit [DecidableEq S] [DecidableEq H] in
theorem slept_init (h : Init s) : Slept s where
  toSeated := seated_init h
  sound := {
    asleep := fun k hk => absurd hk (by simp [h.used k])
    word := fun j _ hj => absurd hj (by simp [h.used j])
    fresh := fun k hk => absurd hk (by simp [h.flag k])
    waking := fun x hx => absurd hx (by simp [h.waking x])
    one := fun x _ hx => absurd hx (by simp [h.waking x])
    here := fun hne => absurd h.seat hne
    once := h.queued.le }
  calm x hx := absurd (h.hd x) hx

theorem Slept.step (hs : Slept s)
    (hok : usedWord s a) (h : step side s a = some s') : Slept s' := by
  refine ⟨hs.toSeated.step h, ?_, hs.calm.step h⟩
  cases step_moved h with
  | tx x h =>
    obtain ⟨o, _, _, -, rfl, -⟩ := stepTx_cases h
    exact hs.sound
  | rx h =>
    obtain ⟨hup, o, hgo, rfl⟩ := stepRx_cases h
    have hne : s.bed.seat ≠ .out := by simp [hup]
    cases rxGo_bed hgo with
    | keep hbed => exact hbed ▸ hs.sound
    | store g v hv hbed => exact hbed ▸ hs.sound.store hne g hv
    | yield f hbed => exact hbed ▸ hs.sound.move hne .turning
    | leave _ hbed => exact hbed ▸ hs.sound.move hne .leaving
  | callback h =>
    obtain ⟨hseat, ⟨-, rfl⟩ | ⟨g, -, rfl⟩⟩ := stepCallback_cases h
    · exact hs.sound
    · exact hs.sound.settle hseat g
  | requeue hseat => exact hs.sound.turn hseat
  | resume _ hq => exact hs.sound.resume hq
  | handler x h =>
    obtain ⟨-, rfl⟩ | ⟨g, hpc, rfl⟩ := stepHandler_cases h
    · exact hs.sound
    · exact hs.sound.call (hok g (by simp [hpc, HdPc.gens])) (hs.calm x (by simp [hpc]))
  | wake x hx => exact hs.sound.wake hx
  | newRings => exact hs.sound.renew s.gen
  | send | event | deliver | terminate | bind | unmask | setRx | setTx => exact hs.sound

/-- **The handler wakes only a sleeping receiver**, in every run in which the
interrupts hit only ring sets on whose `readers` the receiver has stored: whenever
a handler is about to call `bmk_sched_wake`, the receiver is switched out by its own
`bmk_sched_block` and is on no run queue. -/
theorem handler_wakes_sleeper {side : Side} {s : State S H}
    (hs : Reach (step side) usedWord Init s) (h : H) (hw : s.bed.waking h = true) :
    s.bed.seat = .out ∧ s.rx = .asleep ∧ s.bed.queued = 0 := by
  have hslept : Slept s := Reach.inv (fun _ h0 => slept_init h0)
    (fun _ _ _ h1 hok hstep => h1.step hok hstep) hs
  obtain ⟨h1, h2⟩ := hslept.sound.waking h hw
  exact ⟨h1, hslept.out h1 h2, h2⟩

/-! ## No packet is left behind -/

/-- A sender that has put its packet on the available ring and has not decided yet
whether to notify. -/
def TxPc.looking : TxPc → Bool
  | .ptrLook | .look _ | .notify => true
  | _ => false

/-- One connection in which nobody sends before the event channel is bound. -/
def boundFirst (s : State S H) (a : Act S H) : Prop :=
  oneConnection s a ∧ ∀ x c, a = .send x c → s.port ≠ .unbound

/-- Somebody has called the receiver or will. -/
def State.called (s : State S H) : Prop :=
  0 < s.bed.flag 0 ∨ s.pending = true ∨ (∃ h, s.hd h ≠ .idle) ∨ ∃ x, (s.tx x).looking = true

/-- The receiver has looked for the last time. -/
def State.resting (s : State S H) : Prop :=
  s.rx = .block ∨ s.rx = .asleep ∧ s.bed.seat ≠ .up

/-- What a receiver needs in order to be found: it rests on `readers`, and who is in the
handler has still to exchange it. -/
structure Findable (s : State S H) : Prop where
  calm : Handling s
  rested : Rested s.bed 0

omit [DecidableEq S] [DecidableEq H] in
theorem findable_init (h : Init s) : Findable s where
  calm x hx := absurd (h.hd x) hx
  rested _ hq := absurd (h.queued.symm.trans hq) (by simp)

theorem Findable.step (hs : Findable s)
    (h1 : Single s) (hok : oneConnection s a) (h : step side s a = some s') : Findable s' := by
  refine ⟨hs.calm.step h, ?_⟩
  cases step_moved h with
  | tx x h =>
    obtain ⟨o, _, _, -, rfl, -⟩ := stepTx_cases h
    exact hs.rested
  | rx h =>
    obtain ⟨hup, o, hgo, rfl⟩ := stepRx_cases h
    cases rxGo_bed hgo with
    | keep hbed => exact hbed ▸ hs.rested
    | store g v hv hbed => exact hbed ▸ .of_seat (by simp [Bed.store, hup])
    | yield f hbed => exact hbed ▸ .of_seat (by simp [Bed.yield])
    | leave _ hbed => exact hbed ▸ .of_seat (by simp [Bed.leave])
  | callback h =>
    obtain ⟨-, ⟨-, rfl⟩ | ⟨g, hcb, rfl⟩⟩ := stepCallback_cases h
    · exact hs.rested
    · obtain rfl := h1.cb g hcb
      exact .settle
  | requeue => exact .turn
  | resume => exact .of_seat (by simp [Bed.resume])
  | handler x h =>
    obtain ⟨-, rfl⟩ | ⟨g, hpc, rfl⟩ := stepHandler_cases h
    · exact hs.rested
    · obtain rfl := h1.hd x g (by simp [hpc, HdPc.gens])
      exact hs.rested.call (hs.calm x (by simp [hpc]))
  | wake x => exact .wake x
  | newRings => exact absurd rfl hok
  | send | event | deliver | terminate | bind | unmask | setRx | setTx => exact hs.rested

/-- What holds of a receiver that goes to sleep. -/
structure Quiet (s : State S H) : Prop extends Seated s, Findable s where
  bound : s.port = .unbound → ∀ x, s.tx x = .idle
  called : s.resting → (s.ring 0).avail ≠ [] → s.called

omit [DecidableEq S] [DecidableEq H] in
theorem quiet_init (h : Init s) : Quiet s where
  toSeated := seated_init h
  toFindable := findable_init h
  bound _ := h.tx
  called hr := absurd hr (by simp [State.resting, h.rx])

theorem txGo_looking {txp : Option ℕ} {ring : ℕ → Rings} {flag : ℕ → ℤ} {pkt : List UInt8}
    {pc : TxPc} {o : TxOut} (h : txGo txp ring flag pkt pc = some o) (hg : ∀ g ∈ pc.gens, g = 0) :
    o.pc.looking = true ∨ (o.ring 0).avail = (ring 0).avail ∧
      (pc.looking = true → 0 < flag 0 ∨ o.signal = .notify) := by
  cases pc with
  | idle | halt => cases h
  | check c => cases txp <;> cases h <;> simp [TxPc.looking]
  | ptrDeq | ptrBuf | ptrEnq | ptrLook =>
    obtain ⟨g', rfl, rfl⟩ := Option.map_eq_some_iff.mp h
    simp [TxPc.looking]
  | deq g' c =>
    simp only [txGo] at h
    split at h <;> cases h <;> obtain rfl := hg g' (by simp [TxPc.gens]) <;>
      simp [TxPc.looking, onRing]
  | zero gd gb | copy gd gb =>
    cases h
    obtain rfl := hg gb (by simp [TxPc.gens])
    simp [TxPc.looking, onRing]
  | add gd gb i off c =>
    cases c with
    | nil =>
      cases h
      simp [TxPc.looking]
    | cons b c =>
      simp only [txGo] at h
      obtain rfl := hg gb (by simp [TxPc.gens])
      split at h <;> cases h <;> simp [TxPc.looking, onRing]
  | enq | notify =>
    cases h
    simp [TxPc.looking]
  | look g' =>
    cases h
    obtain rfl := hg g' (by simp [TxPc.gens])
    by_cases hf : flag 0 ≤ 0
    · simp [hf, TxPc.looking]
    · exact .inr ⟨rfl, fun _ => .inl (by omega)⟩

section
variable (hs : Quiet s)
include hs

omit [DecidableEq H] in
theorem Quiet.tx {x : S} (h1 : Single s) (h : stepTx s x = some s')
    (hr : s'.resting) (hne : (s'.ring 0).avail ≠ []) : s'.called := by
  obtain ⟨o, pending, _, hgo, rfl, hpending, -⟩ := stepTx_cases h
  have hport : s.port ≠ .unbound := by
    intro hp
    simp [hs.bound hp x, txGo] at hgo
  rcases txGo_looking hgo (h1.tx x) with hl | ⟨havail, hl⟩
  · exact .inr (.inr (.inr ⟨x, by simpa using hl⟩))
  · rcases hs.called hr (havail ▸ hne) with hf | hp | hh | ⟨y, hy⟩
    · exact .inl hf
    · exact .inr (.inl (hpending (.inl hp)))
    · exact .inr (.inr (.inl hh))
    · by_cases hyx : y = x
      · subst hyx
        rcases hl hy with hf | hn
        · exact .inl hf
        · exact .inr (.inl (hpending (.inr ⟨hn, hport⟩)))
      · exact .inr (.inr (.inr ⟨y, by simpa [update_of_ne hyx] using hy⟩))

section
omit [DecidableEq S] [DecidableEq H]

theorem Quiet.rx (h1 : Single s)
    (h : stepRx side s = some s') (hr : s'.resting) (hne : (s'.ring 0).avail ≠ []) : s'.called := by
  obtain ⟨hup, o, hgo, rfl⟩ := stepRx_cases h
  cases rxGo_bed hgo with
  | keep hbed hna hblock =>
    rcases hr with hb | hb
    · obtain ⟨g, hg, hempty, hring⟩ := hblock hb
      obtain rfl := h1.rx g hg
      exact absurd (hring ▸ hempty) hne
    · exact absurd hb.1 hna
  | store g v hv hbed _ hna hnb => exact hr.elim (absurd · hnb) fun hb => absurd hb.1 hna
  | yield f hbed hpc => exact absurd hr (by simp [State.resting, hpc])
  | leave hpc hbed hpc' hring =>
    simp only [hbed, hring] at hne ⊢
    exact hs.called (.inl hpc) hne

theorem Quiet.callback (h1 : Single s)
    (h : stepCallback s = some s') (hr : s'.resting) (hne : (s'.ring 0).avail ≠ []) : s'.called := by
  obtain ⟨hseat, ⟨-, rfl⟩ | ⟨g, hcb, rfl⟩⟩ := stepCallback_cases h
  · exact hs.called hr hne
  · obtain rfl := h1.cb g hcb
    have hcalled := hs.called (.inr ⟨hs.leaving hseat, by simp [hseat]⟩) hne
    by_cases hm : s.bed.flag 0 = -1
    · exact hcalled.elim (fun hpos => absurd hpos (by simp [hm])) .inr
    · have hb : s.bed.settle 0 = { s.bed with seat := .turning } := by
        simp [Bed.settle, hm]
      simpa only [State.called, hb] using hcalled

end

theorem Quiet.unbound
    (hok : boundFirst s a) (h : step side s a = some s') (hp : s'.port = .unbound) (x : S) :
    s'.tx x = .idle := by
  cases step_moved h with
  | send y c => exact absurd hp (hok.2 y c rfl)
  | tx y h =>
    obtain ⟨o, _, _, hgo, rfl, -⟩ := stepTx_cases h
    simp [hs.bound hp y, txGo] at hgo
  | rx h =>
    obtain ⟨-, o, -, rfl⟩ := stepRx_cases h
    exact hs.bound hp x
  | callback h => obtain ⟨-, ⟨-, rfl⟩ | ⟨g, -, rfl⟩⟩ := stepCallback_cases h <;> exact hs.bound hp x
  | handler y h => obtain ⟨-, rfl⟩ | ⟨g, -, rfl⟩ := stepHandler_cases h <;> exact hs.bound hp x
  | bind | unmask => cases hp
  | requeue | resume | event | deliver | terminate | wake | newRings | setRx | setTx =>
    exact hs.bound hp x

theorem Quiet.step (h1 : Single s)
    (hok : boundFirst s a) (h : step side s a = some s') : Quiet s' := by
  refine ⟨hs.toSeated.step h, hs.toFindable.step h1 hok.1 h, hs.unbound hok h, fun hr hne => ?_⟩
  cases step_moved h with
  | send x c hidle =>
    rcases hs.called hr hne with hf | hp | hh | ⟨y, hy⟩
    · exact .inl hf
    · exact .inr (.inl hp)
    · exact .inr (.inr (.inl hh))
    · have hyx : y ≠ x := by
        rintro rfl
        simp [hidle, TxPc.looking] at hy
      exact .inr (.inr (.inr ⟨y, by simpa [update_of_ne hyx] using hy⟩))
  | tx x h => exact hs.tx h1 h hr hne
  | rx h => exact hs.rx h1 h hr hne
  | callback h => exact hs.callback h1 h hr hne
  | requeue hseat => exact hs.called (hr.imp_right fun hr => ⟨hr.1, by simp [hseat]⟩) hne
  | resume => exact hs.called (hr.imp_right fun hr => absurd rfl hr.2) hne
  | event =>
    exact (hs.called hr hne).imp_right (.imp_left fun hp => by simp [State.raise, hp])
  | deliver x | terminate x => exact .inr (.inr (.inl ⟨x, by simp⟩))
  | handler x h =>
    obtain ⟨-, rfl⟩ | ⟨g, hpc, rfl⟩ := stepHandler_cases h
    · exact .inr (.inr (.inl ⟨x, by simp⟩))
    · obtain rfl := h1.hd x g (by simp [hpc, HdPc.gens])
      exact .inl (by simp [Bed.call])
  | newRings => exact absurd rfl hok.1
  | wake | bind | unmask | setRx | setTx => exact hs.called hr hne

end

/-- **No packet is left behind.**  Within one connection, when the receiver is
switched out and on no run queue, no notification is on its way (neither as a pending
event nor in a handler), and no sender stands between its enqueue and its decision
to notify, the available ring is empty. -/
theorem no_packet_left {side : Side} {s : State S H}
    (hs : Reach (step side) boundFirst Init s)
    (hseat : s.bed.seat = .out) (hqueued : s.bed.queued = 0)
    (hpending : s.pending = false) (hcalm : ∀ h, s.calm h)
    (hlook : ∀ x, (s.tx x).looking = false) : (s.ring s.rxp).avail = [] := by
  have hinv : Single s ∧ Quiet s := Reach.inv (I := fun s => Single s ∧ Quiet s)
    (fun _ h0 => ⟨single_init h0, quiet_init h0⟩)
    (fun _ _ _ h1 hok hstep => ⟨h1.1.step hok.1 hstep, h1.2.step h1.1 hok hstep⟩) hs
  obtain ⟨h1, hq⟩ := hinv
  have hflag : s.bed.flag 0 = 0 := by
    rcases hq.rested hseat hqueued with hf | ⟨h, hw⟩
    · exact hf
    · exact absurd hw (by simp [(hcalm h).2])
  rw [h1.rxp]
  by_contra havail
  rcases hq.called (.inr ⟨hq.out hseat hqueued, by simp [hseat]⟩) havail with hf | hp | ⟨h, hh⟩ | ⟨x, hx⟩
  · omega
  · exact absurd hp (by simp [hpending])
  · exact hh (hcalm h).1
  · exact absurd hx (by simp [hlook x])

end

/-! ## A receiver that falls asleep -/

/-- The receiver is in its loop and finds nothing. -/
structure Idling (s : State Unit Unit) (f : ℕ) : Prop where
  halted : s.halted = false
  seat : s.bed.seat = .up
  rx : s.rx = .loop f
  cb : s.cb = none
  avail : (s.ring s.rxp).avail = []

instance (s : State Unit Unit) (f : ℕ) : Decidable (Idling s f) :=
  decidable_of_iff (s.halted = false ∧ s.bed.seat = .up ∧ s.rx = .loop f ∧ s.cb = none ∧
      (s.ring s.rxp).avail = [])
    ⟨fun ⟨h1, h2, h3, h4, h5⟩ => ⟨h1, h2, h3, h4, h5⟩, fun ⟨h1, h2, h3, h4, h5⟩ => ⟨h1, h2, h3, h4, h5⟩⟩

/-- One round of it: it yields and comes back. -/
def idleRound : List (Act Unit Unit) := [.rx, .rx, .rx, .requeue, .resume, .rx]

theorem Idling.round {side : Side} {s : State Unit Unit} {f : ℕ} (hs : Idling s f) (hf : f + 1 < 256) :
    exec (step side) s idleRound = some { s with rx := .loop (f + 1) } := by
  obtain ⟨ring, gen, txp, rxp, ⟨flag, used, seat, queued, waking⟩, rx, cb, tx, pkt, hd, port, pending,
    terminating, halted⟩ := s
  obtain ⟨rfl, rfl, rfl, rfl, havail⟩ := hs
  simp only at havail
  simp [idleRound, exec, step, stepRx, rxGo, havail, hf, Bed.yield, Bed.turn, Bed.resume]

theorem Idling.rounds {side : Side} {s : State Unit Unit} (hs : Idling s 0) : ∀ n : ℕ, n < 256 →
    exec (step side) s (List.replicate n idleRound).flatten = some { s with rx := .loop n }
  | 0, _ => by
    rw [← hs.rx]
    rfl
  | n + 1, hn => by
    have hnext : Idling { s with rx := .loop n } n := { hs with rx := rfl }
    rw [List.replicate_succ', List.flatten_append, exec_append, hs.rounds n (by omega),
      Option.bind_some]
    simpa using hnext.round hn

/-- The receiver finds nothing 256 times and goes to sleep. -/
def sleepRun : List (Act Unit Unit) :=
  (List.replicate 255 idleRound).flatten ++ [.rx, .rx, .rx, .rx, .rx, .rx, .rx, .callback, .callback]

/-- The state after it. -/
def State.slept (s : State Unit Unit) : State Unit Unit :=
  { s with
    bed := { s.bed with
      flag := update s.bed.flag s.rxp 0
      used := update s.bed.used s.rxp true
      seat := .out }
    rx := .asleep }

theorem Idling.sleeps {side : Side} {s : State Unit Unit} (hs : Idling s 0) :
    exec (step side) s sleepRun = some s.slept := by
  rw [sleepRun, exec_append, hs.rounds 255 (by decide), Option.bind_some]
  obtain ⟨ring, gen, txp, rxp, ⟨flag, used, seat, queued, waking⟩, rx, cb, tx, pkt, hd, port, pending,
    terminating, halted⟩ := s
  obtain ⟨rfl, rfl, rfl, rfl, havail⟩ := hs
  simp only at havail
  simp [exec, step, stepRx, stepCallback, rxGo, havail, Bed.store, Bed.leave, Bed.settle, State.slept]

theorem mem_sleepRun {a : Act Unit Unit} (ha : a ∈ sleepRun) :
    a = .rx ∨ a = .callback ∨ a = .requeue ∨ a = .resume := by
  simp only [sleepRun, List.mem_append, List.mem_flatten, List.mem_replicate] at ha
  rcases ha with ⟨l, ⟨_, rfl⟩, h⟩ | h
  · revert a
    decide
  · revert a
    decide

/-- The receiver starts, a packet of two mbufs is sent, and received. -/
def feedRun : List (Act Unit Unit) :=
  [.resume, .rx, .rx, .rx, .setTx, .send () [[1, 2], [3]]] ++ List.replicate 14 (.tx ()) ++
    List.replicate 7 .rx

def fed : State Unit Unit := (exec (step .backend) boot feedRun).getD boot

theorem fed_slept {ok : State Unit Unit → Act Unit Unit → Prop}
    (hfeed : okRun (step .backend) ok boot feedRun) (hsleep : ∀ a ∈ sleepRun, ∀ t, ok t a) :
    Reach (step .backend) ok Init fed.slept := by
  have hfed : Reach (step .backend) ok Init fed := by
    obtain ⟨s, hs⟩ := Option.isSome_iff_exists.mp
      (by decide +kernel : (exec (step .backend) boot feedRun).isSome = true)
    rw [fed, hs]
    exact .exec feedRun (.start (boot_init .open)) hfeed hs
  have hidling : Idling fed 0 := by decide +kernel
  exact .exec sleepRun hfed (okRun_of_forall _ _ hsleep) hidling.sleeps

instance (s : State Unit Unit) (a : Act Unit Unit) : Decidable (boundFirst s a) :=
  decidable_of_iff (oneConnection s a ∧
      (match a with | .send _ _ => decide (s.port ≠ .unbound) | _ => true) = true) <|
    and_congr_right fun _ => by cases a <;> simp

/-- The sleep after a packet. -/
theorem no_packet_left_slept : (fed.slept.ring 0).delivered = [[1, 2, 3]] ∧
    fed.slept.bed.seat = .out ∧ (fed.slept.ring fed.slept.rxp).avail = [] := by
  have hreach : Reach (step .backend) boundFirst Init fed.slept :=
    fed_slept (by decide +kernel) fun a ha t => by
      rcases mem_sleepRun ha with rfl | rfl | rfl | rfl <;> exact ⟨by simp [oneConnection], by simp⟩
  refine ⟨by decide +kernel, rfl, no_packet_left hreach rfl (by decide +kernel) (by decide +kernel) ?_ ?_⟩
  · decide +kernel
  · decide +kernel

/-- An interrupt hits the sleeping receiver. -/
theorem handler_wakes_slept : ∃ s : State Unit Unit,
    Reach (step .backend) usedWord Init s ∧ s.bed.waking () = true ∧
    s.bed.seat = .out ∧ s.rx = .asleep ∧ s.bed.queued = 0 := by
  have hr : Reach (step .backend) usedWord Init fed.slept :=
    fed_slept (by decide +kernel) fun a ha t => by
      rcases mem_sleepRun ha with rfl | rfl | rfl | rfl <;> trivial
  obtain ⟨s, hs, hw⟩ := run_finds (step .backend) usedWord
    (Reach (step .backend) usedWord Init) (fun s => s.bed.waking ())
    [.event, .deliver (), .handler (), .handler ()] hr (by decide +kernel) (by decide +kernel)
  exact ⟨s, hs.trans, hw, handler_wakes_sleeper hs.trans () hw⟩

/-- An interrupt that comes after the channel was unmasked and before the new thread has
run finds the word at 0, on either side. -/
theorem woken_at_start (side : Side) : ∃ s : State Unit Unit,
    Reach (step side) any Init s ∧
    s.bed.waking () = true ∧ s.rx = .start ∧ s.bed.queued = 1 := by
  exact any_finds (step side) Init _ [.bind, .unmask, .event, .deliver (), .handler (), .handler ()]
    (boot_init .unbound) (by cases side <;> decide)

/-- **The handler wakes a thread that is on its run queue**, in the frontend and in the
backend. -/
theorem handler_wakes_queued :
    (∃ s : State Unit Unit, Reach (step .frontend) Trans.any Init s ∧
      s.bed.waking () = true ∧ s.rx = .start ∧ s.bed.queued = 1) ∧
    (∃ s : State Unit Unit, Reach (step .backend) Trans.any Init s ∧
      s.bed.waking () = true ∧ s.rx = .start ∧ s.bed.queued = 1) :=
  ⟨woken_at_start .frontend, woken_at_start .backend⟩

end Librettos.Netdom
