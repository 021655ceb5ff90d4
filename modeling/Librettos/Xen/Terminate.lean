/-
# `Xen.Terminate` — telling the frontend's receiver to terminate

`frontend_terminate` sets `frontend_terminating` and then does what an interrupt would do: it
exchanges `readers` for 1 and wakes the receiver if it found 0.  The receiver looks at
`frontend_terminating` when it starts and when it comes back from `bmk_sched_block`, and nowhere
else.  So what becomes of it depends on where it is at the exchange:

    start                                 it looks, and returns
    asleep, or on its way to it           it is woken or sent back, looks, and returns
    before its last look at the ring      the same, if that look finds nothing
    anywhere else                         `readers` is 1 anyway; it goes on, and sleeps

In the last case nobody wakes the receiver, and `frontend_join` waits for ever
(`termination_lost`).  Where the exchange finds the receiver at one of the other places, and no
other processor is about to wake it, it does not sleep again (`termination_heard`).

The system is that of `Xen.Netdom` on the frontend's side, with ghosts for the calls of
`frontend_terminate`: `stage` says how far a processor is in one, `called` that one has done its
exchange, `returned` that one has returned.
-/
import Librettos.Xen.NetdomSleep

namespace Librettos.Terminate

open Function (update update_of_ne)
open Netdom Sleeper Trans

/-- What a processor in `frontend_terminate` has still to do. -/
inductive Stage
  | none
  | exchange
  | wake
deriving DecidableEq, Repr

structure State (S H : Type) where
  net : Netdom.State S H
  stage : H → Stage
  called : Bool
  returned : Bool

section
variable {S H : Type} [DecidableEq S] [DecidableEq H]

/-- The ghosts after a step that leads to `net`. -/
def State.after (s : State S H) (net : Netdom.State S H) : Act S H → State S H
  | .terminate h => { s with net := net, stage := update s.stage h .exchange }
  | .handler h =>
    match s.net.hd h with
    | .exch g =>
      if s.stage h = .exchange then
        -- it returns at once unless it has to wake the receiver
        { net := net
          stage := update s.stage h (if s.net.bed.flag g = 0 then .wake else .none)
          called := true
          returned := s.returned || decide (s.net.bed.flag g ≠ 0) }
      else { s with net := net }
    | _ => { s with net := net }
  | .wake h => { s with
      net := net
      stage := update s.stage h .none
      returned := s.returned || decide (s.stage h = .wake) }
  | _ => { s with net := net }

def step (s : State S H) (a : Act S H) : Option (State S H) :=
  (Netdom.step .frontend s.net a).map fun net => s.after net a

omit [DecidableEq S] [DecidableEq H] in
/-- The frontend has been set up; nobody has called `frontend_terminate`. -/
structure Init (s : State S H) : Prop where
  net : Netdom.Init s.net
  stage : ∀ h, s.stage h = .none
  called : s.called = false
  returned : s.returned = false

/-- The receiver will look at `frontend_terminating` before it sleeps again. -/
def Heard (s : Netdom.State S H) : Prop :=
  match s.rx with
  | .start | .block | .asleep | .done => True
  | .last | .deqLast _ => (s.ring 0).avail = []
  | _ => False

instance (s : Netdom.State S H) : Decidable (Heard s) :=
  match h : s.rx with
  | .start | .block | .asleep | .done => isTrue (by simp [Heard, h])
  | .last | .deqLast _ => decidable_of_iff ((s.ring 0).avail = []) (by simp [Heard, h])
  | .ptrUp | .up _ | .loop _ | .deq _ _ | .yield _ | .yielded _ | .got _ _ | .len _ _ _
  | .deliver _ _ _ _ | .ptrGive _ _ | .give _ _ _ | .down | .store _ => isFalse (by simp [Heard, h])

/-- The sender is about to put a packet on the available ring. -/
def publishes : TxPc → Bool
  | .enq _ _ _ _ => true
  | _ => false

/-- The handler is at its exchange. -/
def atExchange : HdPc → Bool
  | .exch _ => true
  | _ => false

/-- The ring set is not replaced, and no packet arrives after `frontend_terminating` is set; the
exchange of `frontend_terminate` finds the receiver where it will look, and no other
processor about to wake it. -/
def timely (s : State S H) : Act S H → Prop
  | .newRings => False
  | .tx x => ¬ (s.net.terminating = true ∧ publishes (s.net.tx x) = true)
  | .handler h => s.stage h = .exchange → atExchange (s.net.hd h) = true →
      Heard s.net ∧ ∀ h', s.net.bed.waking h' = false
  | _ => True

variable {s s' : Netdom.State S H} {a : Act S H}

/-! ## A receiver that has been told -/

/-- After the exchange: the receiver will look, `readers` stays at 1, and at most one processor
is about to wake it. -/
structure Told (s : Netdom.State S H) : Prop where
  terminating : s.terminating = true
  heard : Heard s
  flag : s.bed.flag 0 = 1
  one : ∀ h h', s.bed.waking h = true → s.bed.waking h' = true → h' = h

/-- What a step after the exchange does: nobody new is about to wake the receiver. -/
structure Follows (s s' : Netdom.State S H) : Prop where
  told : Told s'
  waking : ∀ h, s'.bed.waking h = true → s.bed.waking h = true

section
omit [DecidableEq S] [DecidableEq H]

/-- A step that leaves the receiver and the available ring alone and wakes nobody. -/
theorem Told.same (hs : Told s) (hterm : s'.terminating = s.terminating) (hrx : s'.rx = s.rx)
    (havail : (s'.ring 0).avail = (s.ring 0).avail) (hflag : s'.bed.flag 0 = s.bed.flag 0)
    (hwaking : ∀ h, s'.bed.waking h = true → s.bed.waking h = true) : Follows s s' := by
  refine ⟨⟨hterm.trans hs.terminating, ?_, hflag.trans hs.flag, fun h h' hw hw' => ?_⟩, hwaking⟩
  · rw [Heard, hrx, havail]
    exact hs.heard
  · exact hs.one h h' (hwaking h hw) (hwaking h' hw')

/-- The receiver's steps after it has been told: it does not touch `readers`, and looks. -/
theorem Told.rx (hs : Told s) (h1 : Single s) (h : stepRx .frontend s = some s') :
    Follows s s' := by
  obtain ⟨-, o, hgo, rfl⟩ := stepRx_cases h
  have hheard := hs.heard
  have hterm := hs.terminating
  cases hrx : s.rx <;> simp only [Heard, hrx] at hheard <;> simp only [hrx] at hgo
  case done => cases hgo
  case start | asleep =>
    simp only [rxGo, hterm, and_self, if_true, Option.some.injEq] at hgo
    subst hgo
    exact ⟨⟨hterm, trivial, hs.flag, hs.one⟩, fun _ hw => hw⟩
  case last =>
    cases hgo
    exact ⟨⟨hterm, hheard, hs.flag, hs.one⟩, fun _ hw => hw⟩
  case deqLast g =>
    obtain rfl := h1.rx g (by simp [hrx, RxPc.gens])
    simp only [rxGo, hheard, Option.some.injEq] at hgo
    subst hgo
    exact ⟨⟨hterm, trivial, hs.flag, hs.one⟩, fun _ hw => hw⟩
  case block =>
    cases hgo
    exact ⟨⟨hterm, trivial, hs.flag, hs.one⟩, fun _ hw => hw⟩

end

/-- A sender that does not publish leaves the available rings alone. -/
theorem txGo_avail {txp : Option ℕ} {ring : ℕ → Rings} {flag : ℕ → ℤ} {pkt : List UInt8}
    {pc : TxPc} {o : TxOut} (h : txGo txp ring flag pkt pc = some o) (hpc : publishes pc = false)
    (g : ℕ) : (o.ring g).avail = (ring g).avail := by
  have hon : ∀ g' (f : Rings → Rings), (∀ r, (f r).avail = r.avail) →
      (onRing ring g' f g).avail = (ring g).avail := by
    intro g' f hf
    by_cases hg : g = g'
    · subst hg
      simp [onRing, hf]
    · simp [onRing, hg]
  cases pc with
  | idle | halt => cases h
  | check c => cases txp <;> cases h <;> rfl
  | ptrDeq | ptrBuf | ptrEnq | ptrLook =>
    obtain ⟨g', rfl, rfl⟩ := Option.map_eq_some_iff.mp h
    rfl
  | deq g' c =>
    simp only [txGo] at h
    split at h <;> cases h
    · rfl
    · exact hon g' _ fun _ => rfl
  | zero gd gb | copy gd gb =>
    cases h
    exact hon gb _ fun _ => rfl
  | add gd gb i off c =>
    cases c with
    | nil =>
      cases h
      rfl
    | cons b c =>
      simp only [txGo] at h
      split at h <;> cases h <;> exact hon gb _ fun _ => rfl
  | enq => cases hpc
  | look | notify =>
    cases h
    rfl

omit [DecidableEq H] in
theorem Told.tx (hs : Told s) {x : S} (hx : publishes (s.tx x) = false)
    (h : stepTx s x = some s') : Follows s s' := by
  obtain ⟨o, _, _, hgo, rfl, -⟩ := stepTx_cases h
  exact hs.same rfl rfl (txGo_avail hgo hx 0) rfl fun _ hw => hw

omit [DecidableEq S] [DecidableEq H] in
/-- The callback finds that the receiver has been called. -/
theorem Told.callback (hs : Told s) (h1 : Single s) (h : stepCallback s = some s') :
    Follows s s' := by
  obtain ⟨-, ⟨-, rfl⟩ | ⟨g, hcb, rfl⟩⟩ := stepCallback_cases h
  · exact hs.same rfl rfl rfl rfl fun _ hw => hw
  · obtain rfl := h1.cb g hcb
    have hsettle : s.bed.settle 0 = { s.bed with seat := .turning } := by
      simp [Bed.settle, hs.flag]
    exact hs.same rfl rfl rfl (by rw [hsettle]) (by rw [hsettle]; exact fun _ hw => hw)

omit [DecidableEq S] in
/-- Whoever comes after it finds 1. -/
theorem Told.handler (hs : Told s) (h1 : Single s) {x : H} (h : stepHandler s x = some s') :
    Follows s s' := by
  obtain ⟨-, rfl⟩ | ⟨g, hpc, rfl⟩ := stepHandler_cases h
  · exact hs.same rfl rfl rfl rfl fun _ hw => hw
  · obtain rfl := h1.hd x g (by simp [hpc, HdPc.gens])
    refine hs.same rfl rfl rfl (by simp [Bed.call, hs.flag]) fun y hw => ?_
    by_cases hyx : y = x
    · simp [Bed.call, hyx, hs.flag] at hw
    · simpa [Bed.call, update_of_ne hyx] using hw

theorem Told.step (hs : Told s) (h1 : Single s) (hok : oneConnection s a)
    (htx : ∀ x, a = .tx x → publishes (s.tx x) = false)
    (h : Netdom.step .frontend s a = some s') : Follows s s' := by
  cases step_moved h with
  | tx x h => exact hs.tx (htx x rfl) h
  | rx h => exact hs.rx h1 h
  | callback h => exact hs.callback h1 h
  | handler x h => exact hs.handler h1 h
  | wake x =>
    refine hs.same rfl rfl rfl rfl fun y hw => ?_
    by_cases hyx : y = x
    · simp [Bed.wake, hyx] at hw
    · simpa [Bed.wake, update_of_ne hyx] using hw
  | terminate x =>
    exact hs.same hs.terminating.symm rfl rfl rfl fun _ hw => hw
  | newRings => exact absurd rfl hok
  | send | event | deliver | requeue | resume | bind | unmask | setRx | setTx =>
    exact hs.same rfl rfl rfl rfl fun _ hw => hw

omit [DecidableEq S] in
/-- The exchange of `frontend_terminate` tells the receiver. -/
theorem told_call {x : H} (hterm : s.terminating = true) (hheard : Heard s)
    (hnobody : ∀ h, s.bed.waking h = false) :
    Told { s with bed := s.bed.call 0 x, hd := update s.hd x .idle } := by
  refine ⟨hterm, hheard, by simp [Bed.call], ?_⟩
  have honly : ∀ h, (s.bed.call 0 x).waking h = true → h = x := by
    intro h hw
    by_contra hhx
    simp [Bed.call, update_of_ne hhx, hnobody h] at hw
  exact fun h h' hw hw' => (honly h' hw').trans (honly h hw).symm

/-! ## Runs -/

structure Inv (s : State S H) : Prop where
  single : Single s.net
  findable : Findable s.net
  exchange : ∀ h, s.stage h = .exchange → s.net.terminating = true
  wake : ∀ h, s.stage h = .wake → s.called = true
  called : s.called = true → Told s.net
  returned : s.returned = true → s.called = true ∧ ∀ h, s.net.bed.waking h = false

section
omit [DecidableEq S] [DecidableEq H]

theorem Init.inv {s : State S H} (h : Init s) : Inv s where
  single := single_init h.net
  findable := findable_init h.net
  exchange x hx := absurd hx (by simp [h.stage x])
  wake x hx := absurd hx (by simp [h.stage x])
  called hc := absurd hc (by simp [h.called])
  returned hr := absurd hr (by simp [h.returned])

theorem timely.oneConnection {s : State S H} (h : timely s a) : oneConnection s.net a := by
  rintro rfl
  exact h

end

/-- `frontend_terminating` stays set. -/
theorem step_terminating (h : Netdom.step .frontend s a = some s') (hs : s.terminating = true) :
    s'.terminating = true := by
  cases step_moved h with
  | tx x h =>
    obtain ⟨o, _, _, -, rfl, -⟩ := stepTx_cases h
    exact hs
  | rx h =>
    obtain ⟨-, o, -, rfl⟩ := stepRx_cases h
    exact hs
  | callback h => obtain ⟨-, ⟨-, rfl⟩ | ⟨g, -, rfl⟩⟩ := stepCallback_cases h <;> exact hs
  | handler x h => obtain ⟨-, rfl⟩ | ⟨g, -, rfl⟩ := stepHandler_cases h <;> exact hs
  | terminate => rfl
  | send | event | deliver | requeue | resume | wake | newRings | bind | unmask | setRx | setTx =>
    exact hs

theorem Told.follows {s : State S H} (hs : Told s.net) (h1 : Single s.net) (hok : timely s a)
    (h : Netdom.step .frontend s.net a = some s') : Follows s.net s' := by
  refine hs.step h1 hok.oneConnection ?_ h
  rintro x rfl
  simpa [timely, hs.terminating] using hok

/-- A step that is no exchange of `frontend_terminate`. -/
theorem Inv.quietly {s : State S H} {net : Netdom.State S H} {stage : H → Stage} {returned : Bool}
    (hs : Inv s) (hok : timely s a) (h : Netdom.step .frontend s.net a = some net)
    (hexchange : ∀ h, stage h = .exchange → s.stage h = .exchange ∨ net.terminating = true)
    (hwake : ∀ h, stage h = .wake → s.stage h = .wake)
    (hreturned : returned = true → s.returned = true ∨ s.called = true ∧ ∀ h, net.bed.waking h = false) :
    Inv { s with net := net, stage := stage, returned := returned } where
  single := hs.single.step hok.oneConnection h
  findable := hs.findable.step hs.single hok.oneConnection h
  exchange x hx := (hexchange x hx).elim (fun hx => step_terminating h (hs.exchange x hx)) id
  wake x hx := hs.wake x (hwake x hx)
  called hc := ((hs.called hc).follows hs.single hok h).told
  returned hr := by
    rcases hreturned hr with hr | hr
    · obtain ⟨hcalled, hnobody⟩ := hs.returned hr
      refine ⟨hcalled, fun y => Bool.eq_false_iff.mpr fun hw => ?_⟩
      have hold := ((hs.called hcalled).follows hs.single hok h).waking y hw
      simp [hnobody y] at hold
    · exact hr

/-- The exchange of `frontend_terminate`. -/
theorem Inv.tells {s : State S H} {net : Netdom.State S H} {x : H} {g : ℕ} (hs : Inv s)
    (hok : timely s (.handler x)) (h : Netdom.step .frontend s.net (.handler x) = some net)
    (hpc : s.net.hd x = .exch g) (hx : s.stage x = .exchange) :
    Inv { net := net
          stage := update s.stage x (if s.net.bed.flag g = 0 then .wake else .none)
          called := true
          returned := s.returned || decide (s.net.bed.flag g ≠ 0) } := by
  obtain ⟨hheard, hnobody⟩ := hok hx (by rw [hpc]; rfl)
  have hone := hok.oneConnection
  have hterm := hs.exchange x hx
  obtain rfl := hs.single.hd x g (by simp [hpc, HdPc.gens])
  have hnet : net = { s.net with bed := s.net.bed.call 0 x, hd := update s.net.hd x .idle } := by
    cases step_moved h with
    | handler _ h =>
      rw [stepHandler, hpc] at h
      exact (Option.some.inj h).symm
  constructor
  case single => exact hs.single.step hone h
  case findable => exact hs.findable.step hs.single hone h
  case exchange => exact fun _ _ => step_terminating h hterm
  case wake => exact fun _ _ => rfl
  case called =>
    intro _
    rw [hnet]
    exact told_call hterm hheard hnobody
  case returned =>
    intro hr
    refine ⟨rfl, fun y => ?_⟩
    have hflag : s.net.bed.flag 0 ≠ 0 := by
      rcases (Bool.or_eq_true _ _).mp hr with hr | hr
      · have := (hs.called (hs.returned hr).1).flag
        omega
      · exact of_decide_eq_true hr
    rw [hnet]
    by_cases hyx : y = x
    · simp [Bed.call, hyx, hflag]
    · simp [Bed.call, update_of_ne hyx, hnobody y]

/-- The wake of `frontend_terminate` is the only one. -/
theorem Inv.wakes {s : State S H} {net : Netdom.State S H} {x : H} (hs : Inv s)
    (h : Netdom.step .frontend s.net (.wake x) = some net) : Inv { s with
      net := net
      stage := update s.stage x .none
      returned := s.returned || decide (s.stage x = .wake) } := by
  have hstage : ∀ y p, p ≠ .none → update s.stage x .none y = p → s.stage y = p := by
    intro y p hp hy
    by_cases hyx : y = x
    · exact absurd (by simpa [hyx] using hy.symm) hp
    · simpa [update_of_ne hyx] using hy
  refine hs.quietly (a := .wake x) trivial h (fun y hy => .inl (hstage y _ (by simp) hy))
    (fun y hy => hstage y _ (by simp) hy) fun hr => ?_
  rcases (Bool.or_eq_true _ _).mp hr with hr | hr
  · exact .inl hr
  · have hcalled := hs.wake x (of_decide_eq_true hr)
    refine .inr ⟨hcalled, fun y => ?_⟩
    cases step_moved h with
    | wake _ hx =>
      by_cases hyx : y = x
      · simp [Bed.wake, hyx]
      · have hnot : s.net.bed.waking y ≠ true := fun hy => hyx ((hs.called hcalled).one x y hx hy)
        simpa [Bed.wake, update_of_ne hyx] using hnot

theorem Inv.step {s s' : State S H} (hs : Inv s) (hok : timely s a) (h : step s a = some s') :
    Inv s' := by
  obtain ⟨net, hnet, rfl⟩ := Option.map_eq_some_iff.mp h
  have hplain : Inv { s with net := net } :=
    hs.quietly hok hnet (fun _ => .inl) (fun _ => id) .inl
  cases a with
  | terminate x =>
    have hterm : net.terminating = true := by
      cases step_moved hnet
      rfl
    refine hs.quietly hok hnet (fun _ _ => .inr hterm) (fun y hy => ?_) .inl
    by_cases hyx : y = x
    · simp [hyx] at hy
    · simpa [update_of_ne hyx] using hy
  | handler x =>
    simp only [State.after]
    split
    · next g hpc =>
      split
      · next hx => exact hs.tells hok hnet hpc hx
      · exact hplain
    · exact hplain
  | wake x => exact hs.wakes hnet
  | _ => exact hplain

/-- **Termination is heard.**  In every run of one connection in which no packet arrives after
`frontend_terminating` is set, and the exchange of `frontend_terminate` finds the receiver where
it will look at the flag and no other processor about to wake it, the receiver is not switched
out without being on its run queue once `frontend_terminate` has returned, unless it has
returned itself. -/
theorem termination_heard {s : State S H} (hs : Reach step timely Init s)
    (hret : s.returned = true) :
    ¬ (s.net.bed.seat = .out ∧ s.net.bed.queued = 0 ∧ s.net.rx ≠ .done) := by
  have hinv : Inv s := hs.inv (fun _ h0 => h0.inv) fun _ _ _ hi hok h => hi.step hok h
  rintro ⟨hseat, hqueued, -⟩
  obtain ⟨hcalled, hnobody⟩ := hinv.returned hret
  rcases hinv.findable.rested hseat hqueued with hf | ⟨h, hw⟩
  · have := (hinv.called hcalled).flag
    omega
  · simp [hnobody h] at hw

instance [Fintype H] (s : State S H) : (a : Act S H) → Decidable (timely s a)
  | .newRings => isFalse id
  | .tx x => inferInstanceAs
      (Decidable (¬ (s.net.terminating = true ∧ publishes (s.net.tx x) = true)))
  | .handler h => inferInstanceAs (Decidable (s.stage h = .exchange →
      atExchange (s.net.hd h) = true → Heard s.net ∧ ∀ h', s.net.bed.waking h' = false))
  | .send _ _ | .rx | .callback | .requeue | .resume | .event | .deliver _ | .wake _ | .terminate _
  | .bind | .unmask | .setRx | .setTx => isTrue trivial

/-! ## A receiver that goes on -/

/-- The receiver's own steps leave the ghosts alone. -/
theorem exec_receiver : ∀ (as : List (Act Unit Unit)) (s : State Unit Unit),
    (∀ a ∈ as, a = .rx ∨ a = .callback ∨ a = .requeue ∨ a = .resume) →
    exec step s as = (exec (Netdom.step .frontend) s.net as).map fun net => { s with net := net }
  | [], _, _ => rfl
  | a :: as, s, h => by
    have hafter : ∀ net, s.after net a = { s with net := net } := by
      rcases h a List.mem_cons_self with rfl | rfl | rfl | rfl <;> exact fun _ => rfl
    simp only [exec, step]
    cases Netdom.step .frontend s.net a with
    | none => rfl
    | some net =>
      simp only [Option.map_some, Option.bind_some, hafter]
      exact exec_receiver as _ fun a ha => h a (List.mem_cons_of_mem _ ha)

theorem exec_sleepRun {s : State Unit Unit} (hs : Idling s.net 0) :
    exec step s sleepRun = some { s with net := s.net.slept } := by
  rw [exec_receiver _ _ fun _ => mem_sleepRun, hs.sleeps]
  rfl

end

/-- The frontend before its receiver has run. -/
def boot : State Unit Unit := ⟨Netdom.boot, fun _ => .none, false, false⟩

theorem boot_init : Init boot := ⟨Netdom.boot_init .open, fun _ => rfl, rfl, rfl⟩

/-- The receiver runs; then `frontend_terminate` is called, and returns. -/
def tellLoop : List (Act Unit Unit) :=
  [.resume, .rx, .rx, .rx, .terminate (), .handler (), .handler ()]

/-- The receiver runs and has nothing to do. -/
def idle : State Unit Unit := (exec step boot [.resume, .rx, .rx, .rx]).getD boot

/-- `frontend_terminate` finds the receiver asleep. -/
theorem termination_heard_asleep : ∃ s : State Unit Unit, Reach step timely Init s ∧
    s.returned = true ∧ s.net.rx = .done ∧
    ¬ (s.net.bed.seat = .out ∧ s.net.bed.queued = 0 ∧ s.net.rx ≠ .done) := by
  have hidle : Reach step timely Init idle :=
    .exec [.resume, .rx, .rx, .rx] (.start boot_init) (by decide) rfl
  have hslept : Reach step timely Init { idle with net := idle.net.slept } := by
    refine .exec sleepRun hidle (okRun_of_forall _ _ fun a ha t => ?_) (exec_sleepRun (by decide))
    rcases mem_sleepRun ha with rfl | rfl | rfl | rfl <;> trivial
  obtain ⟨s, hreach, hret, hrx⟩ := run_finds step timely (Reach step timely Init)
    (fun s => s.returned = true ∧ s.net.rx = .done)
    [.terminate (), .handler (), .handler (), .wake (), .resume, .rx] hslept (by decide) (by decide)
  exact ⟨s, hreach.trans, hret, hrx, termination_heard hreach.trans hret⟩

/-- **Termination is lost.**  The receiver is in its loop when `frontend_terminate` is called; it
finds nothing 256 times and goes to sleep, with nobody left to wake it. -/
theorem termination_lost : ∃ s : State Unit Unit, Reach step Trans.any Init s ∧
    s.returned = true ∧ s.net.bed.seat = .out ∧ s.net.bed.queued = 0 ∧ s.net.rx = .asleep ∧
    s.net.pending = false ∧ ∀ h, s.net.calm h := by
  obtain ⟨s, hreach, hidling, hret, hqueued, hpending, hcalm⟩ := any_finds step Init
    (fun s => Idling s.net 0 ∧ s.returned = true ∧ s.net.bed.queued = 0 ∧
      s.net.pending = false ∧ ∀ h, s.net.calm h)
    tellLoop boot_init (by decide)
  exact ⟨_, .exec _ hreach (okRun_any _ _) (exec_sleepRun hidling), hret, rfl, hqueued, rfl, hpending, hcalm⟩

end Librettos.Terminate
