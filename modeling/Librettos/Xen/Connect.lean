/-
# `Xen.Connect` — when a connection is published

`backend_connect` fills the tables of `backend.c` at the index of a frontend, in this order:

    tx_aring[dom], tx_buf[dom]      the ring set of the frontend
    tx_fring[dom]                   the store that the source calls "everything is ready"
    rx_threads[dom]                 the receiver thread
    network_dom_info.port[dom]      the event channel to the frontend

`backend_forward_send` goes by `tx_fring[dom]` alone, and reads each of the other tables when it
needs it.  So between the third and the last of these stores a packet is put on the ring, and
the notification for it goes to a port that has not been set (`notified_nowhere`); and when an
index is used again, `tx_fring[dom]` is still that of the connection before.  Where no sender is
past its test while the connection of its index is under way, every sender uses one connection,
with all its fields, and notifies its frontend (`published_in_order`).

A sender is that of `Xen.Netdom`, with a table for each pointer.  A ring set is numbered by its
connection, and so are the entries of the tables; `conn` is the connection whose `tx_fring` a
sender has found at its test.  `rx_aring`, `rx_fring` and `rx_buf` are read by the receiver
thread only, and left out.  `D` are the indices, `K` the processors in `backend_connect`, `X`
those in `backend_forward_send`.
-/
import Librettos.Xen.NetdomGens

namespace Librettos.Connect

open Function (update update_of_ne update_self)
open Netdom Option Trans

/-- Where `backend_connect` is, with the index and the connection. -/
inductive ConnPc (D : Type)
  | idle
  | aring (dom : D) (g : ℕ)
  | buf (dom : D) (g : ℕ)
  | fring (dom : D) (g : ℕ)
  /-- `bmk_sched_create` -/
  | thread (dom : D) (g : ℕ)
  /-- `minios_evtchn_bind_interdomain` -/
  | bind (dom : D) (g : ℕ)
  /-- `minios_unmask_evtchn` -/
  | unmask (dom : D) (g : ℕ)
deriving DecidableEq, Repr

/-- `next` is the next connection.  `raised` counts the events on the channel of a connection;
`misdirected` says that a notification went to a port that is not the one of the sender's
connection. -/
structure State (D K X : Type) where
  ring : ℕ → Rings
  readers : ℕ → ℤ
  next : ℕ
  txAring : D → Option ℕ
  txBuf : D → Option ℕ
  txFring : D → Option ℕ
  port : D → Option ℕ
  connect : K → ConnPc D
  tx : X → TxPc
  dom : X → D
  pkt : X → List UInt8
  conn : X → ℕ
  raised : ℕ → ℕ
  misdirected : Bool
  halted : Bool

inductive Act (D K X : Type)
  /-- `backend_connect`, for a frontend with a new ring set -/
  | connect (k : K) (dom : D)
  /-- its next step; `err` says that the port could not be bound -/
  | go (k : K) (err : Bool)
  /-- `backend_forward_send` -/
  | send (x : X) (dom : D) (c : Chain)
  | tx (x : X)
  /-- the frontend takes a packet -/
  | receive (g : ℕ)
  /-- the frontend's receiver, or its interrupt handler, changes `readers` -/
  | readers (g : ℕ) (v : ℤ)
deriving DecidableEq, Repr

/-- The index of a connection that is under way. -/
def ConnPc.dom {D : Type} : ConnPc D → Option D
  | .idle => none
  | .aring dom _ | .buf dom _ | .fring dom _ | .thread dom _ | .bind dom _ | .unmask dom _ => some dom

/-- The sender is past the test of `tx_fring[dom]`. -/
def past : TxPc → Bool
  | .idle | .check _ => false
  | _ => true

section
variable {D K X : Type}

/-- The pointer that a sender reads next. -/
def State.pointer (s : State D K X) (dom : D) : TxPc → Option ℕ
  | .check _ | .ptrDeq _ => s.txFring dom
  | .ptrBuf _ _ _ => s.txBuf dom
  | .ptrEnq _ _ _ | .ptrLook => s.txAring dom
  | _ => none

variable [DecidableEq D] [DecidableEq K] [DecidableEq X]

/-- `minios_notify_remote_via_evtchn(network_dom_info.port[dom])`: an event on a port that has not
been set reaches nobody. -/
def State.notify (s : State D K X) (x : X) : State D K X :=
  { s with
    raised := match s.port (s.dom x) with
      | none => s.raised
      | some g => update s.raised g (s.raised g + 1)
    misdirected := s.misdirected || decide (s.port (s.dom x) ≠ some (s.conn x)) }

/-- A step of `backend_forward_send`. -/
def stepTx (s : State D K X) (x : X) : Option (State D K X) :=
  (txGo (s.pointer (s.dom x) (s.tx x)) s.ring s.readers (s.pkt x) (s.tx x)).map fun o =>
    let s' := { s with
      ring := o.ring
      tx := update s.tx x o.pc
      conn := match s.tx x, s.txFring (s.dom x) with
        | .check _, some g => update s.conn x g
        | _, _ => s.conn }
    match o.signal with
    | .none => s'
    | .notify => s'.notify x
    | .halt => { s' with halted := true }

/-- A step of `backend_connect`. -/
def stepConnect (s : State D K X) (k : K) (err : Bool) : Option (State D K X) :=
  match s.connect k with
  | .idle => none
  | .aring dom g => some { s with
      txAring := update s.txAring dom (some g)
      connect := update s.connect k (.buf dom g) }
  | .buf dom g => some { s with
      txBuf := update s.txBuf dom (some g)
      connect := update s.connect k (.fring dom g) }
  | .fring dom g => some { s with
      txFring := update s.txFring dom (some g)
      connect := update s.connect k (.thread dom g) }
  | .thread dom g => some { s with connect := update s.connect k (.bind dom g) }
  | .bind dom g => some { s with
      port := if err then s.port else update s.port dom (some g)
      connect := update s.connect k (.unmask dom g) }
  | .unmask _ _ => some { s with connect := update s.connect k .idle }

def step (s : State D K X) (a : Act D K X) : Option (State D K X) :=
  if s.halted then none else
  match a with
  | .connect k dom =>
    if s.connect k = .idle then
      some { s with
        ring := update s.ring s.next (.init (s.ring s.next).buf)
        readers := update s.readers s.next 0
        next := s.next + 1
        connect := update s.connect k (.aring dom s.next) }
    else none
  | .go k err => stepConnect s k err
  | .send x dom c =>
    -- `m_len` is an `int`
    if s.tx x = .idle ∧ ∀ b ∈ c, b.length < 2 ^ 31 then
      some { s with
        tx := update s.tx x (.check c)
        dom := update s.dom x dom
        pkt := update s.pkt x c.flatten }
    else none
  | .tx x => stepTx s x
  | .receive g =>
    match (s.ring g).avail with
    | [] => none
    | i :: rest => some { s with
        ring := onRing s.ring g fun r => { r with avail := rest, free := r.free ++ [i] } }
  | .readers g v => some { s with readers := update s.readers g v }

omit [DecidableEq D] [DecidableEq K] [DecidableEq X] in
/-- Nobody is connected. -/
structure Init (s : State D K X) : Prop where
  txFring : ∀ dom, s.txFring dom = none
  connect : ∀ k, s.connect k = .idle
  tx : ∀ x, s.tx x = .idle
  misdirected : s.misdirected = false

/-- The index is being connected. -/
def State.underWay (s : State D K X) (dom : D) : Prop := ∃ k, (s.connect k).dom = some dom

/-- No sender is past its test while its index is being connected, no index is being connected
twice at a time, and ports can be bound. -/
def undisturbed (s : State D K X) : Act D K X → Prop
  | .connect _ dom => (∀ x, s.dom x = dom → past (s.tx x) = false) ∧ ¬ s.underWay dom
  | .go _ err => err = false
  | .tx x => past (s.tx x) = false → (s.txFring (s.dom x)).isSome → ¬ s.underWay (s.dom x)
  | _ => True

/-! ## The invariant -/

/-- All fields of the index are those of the connection. -/
structure Ready (s : State D K X) (dom : D) (g : ℕ) : Prop where
  txFring : s.txFring dom = some g
  txAring : s.txAring dom = some g
  txBuf : s.txBuf dom = some g
  port : s.port dom = some g

/-- What `backend_connect` has set so far. -/
def SoFar (s : State D K X) : ConnPc D → Prop
  | .idle | .aring _ _ => True
  | .buf dom g => s.txAring dom = some g
  | .fring dom g => s.txAring dom = some g ∧ s.txBuf dom = some g
  | .thread dom g | .bind dom g =>
    s.txAring dom = some g ∧ s.txBuf dom = some g ∧ s.txFring dom = some g
  | .unmask dom g => Ready s dom g

structure Inv (s : State D K X) : Prop where
  soFar : ∀ k, SoFar s (s.connect k)
  alone : ∀ k k' dom, (s.connect k).dom = some dom → (s.connect k').dom = some dom → k' = k
  ready : ∀ dom g, ¬ s.underWay dom → s.txFring dom = some g → Ready s dom g
  sender : ∀ x, past (s.tx x) = true → ¬ s.underWay (s.dom x) ∧ Ready s (s.dom x) (s.conn x) ∧
    ∀ g ∈ (s.tx x).gens, g = s.conn x
  misdirected : s.misdirected = false

variable {s s' : State D K X} {k : K} {x : X} {dom : D} {g : ℕ}

section
omit [DecidableEq D] [DecidableEq K] [DecidableEq X]

theorem Init.inv (h : Init s) : Inv s where
  soFar := by
    intro k
    rw [h.connect k]
    trivial
  alone := by
    intro k k' dom hk
    rw [h.connect k] at hk
    cases hk
  ready := by
    intro dom g _ hg
    simp [h.txFring dom] at hg
  sender := by
    intro x hx
    rw [h.tx x] at hx
    cases hx
  misdirected := h.misdirected

theorem Ready.pointer (h : Ready s dom g) {pc : TxPc} {g' : ℕ} (hg : s.pointer dom pc = some g') :
    g' = g := by
  cases pc <;> simp [State.pointer, h.txFring, h.txAring, h.txBuf] at hg <;> exact hg.symm

theorem Inv.sends (h : Inv s) (hconnect : s'.connect = s.connect) (hfring : s'.txFring = s.txFring)
    (haring : s'.txAring = s.txAring) (hbuf : s'.txBuf = s.txBuf) (hport : s'.port = s.port)
    (hother : ∀ y, y ≠ x → s'.tx y = s.tx y ∧ s'.dom y = s.dom y ∧ s'.conn y = s.conn y)
    (hx : past (s'.tx x) = true → ¬ s.underWay (s'.dom x) ∧ Ready s (s'.dom x) (s'.conn x) ∧
      ∀ g ∈ (s'.tx x).gens, g = s'.conn x) (hmis : s'.misdirected = false) : Inv s' := by
  have hready : ∀ {dom g}, Ready s dom g → Ready s' dom g := fun hr =>
    ⟨hfring ▸ hr.txFring, haring ▸ hr.txAring, hbuf ▸ hr.txBuf, hport ▸ hr.port⟩
  have hway : ∀ {dom}, s'.underWay dom ↔ s.underWay dom := by
    intro dom
    rw [State.underWay, State.underWay, hconnect]
  constructor
  case soFar =>
    intro k
    have hk := h.soFar k
    rw [hconnect]
    cases hc : s.connect k <;> simp only [hc, SoFar, haring, hbuf, hfring] at hk ⊢ <;>
      first | trivial | exact hk | exact hready hk
  case alone =>
    rw [hconnect]
    exact h.alone
  case ready =>
    intro dom g hdom hg
    exact hready (h.ready dom g (mt hway.mpr hdom) (hfring ▸ hg))
  case sender =>
    intro y hy
    by_cases hyx : y = x
    · subst hyx
      obtain ⟨hw, hr, hgens⟩ := hx hy
      exact ⟨mt hway.mp hw, hready hr, hgens⟩
    · obtain ⟨htx, hdom, hconn⟩ := hother y hyx
      rw [htx] at hy ⊢
      rw [hdom, hconn]
      obtain ⟨hw, hr, hgens⟩ := h.sender y hy
      exact ⟨mt hway.mp hw, hready hr, hgens⟩
  case misdirected => exact hmis

end

section
omit [DecidableEq D] [DecidableEq K]

theorem Inv.check (h : Inv s) {c : Chain} (hx : s.tx x = .check c)
    (hok : (s.txFring (s.dom x)).isSome → ¬ s.underWay (s.dom x)) (hs : stepTx s x = some s') :
    Inv s' := by
  cases hf : s.txFring (s.dom x) with
  | none =>
    simp only [stepTx, hx, State.pointer, hf, txGo, map_some, some.injEq] at hs
    subst hs
    refine h.sends (x := x) rfl rfl rfl rfl rfl (fun y hy => ⟨by simp [hy], rfl, rfl⟩) ?_ h.misdirected
    simp [past]
  | some g =>
    simp only [stepTx, hx, State.pointer, hf, txGo, map_some, some.injEq] at hs
    subst hs
    have hway := hok (by simp [hf])
    refine h.sends (x := x) rfl rfl rfl rfl rfl (fun y hy => ⟨by simp [hy], rfl, by simp [hy]⟩) ?_
      h.misdirected
    simp [TxPc.gens, hway, h.ready _ g hway hf]

theorem Inv.tx (h : Inv s) (hx : past (s.tx x) = true) (hs : stepTx s x = some s') : Inv s' := by
  obtain ⟨o, hgo, rfl⟩ := map_eq_some_iff.mp hs
  obtain ⟨hway, hready, hgens⟩ := h.sender x hx
  have hconn : (match s.tx x, s.txFring (s.dom x) with
      | .check _, some g => update s.conn x g
      | _, _ => s.conn) = s.conn := by
    cases hpc : s.tx x with
    | check c => simp [hpc, past] at hx
    | _ => rfl
  have hnext : ∀ g ∈ o.pc.gens, g = s.conn x := by
    intro g hg
    rcases txGo_gens hgo hg with hg | hg
    · exact hgens g hg
    · exact hready.pointer hg
  simp only [hconn]
  cases hsig : o.signal with
  | none | halt =>
    refine h.sends (x := x) rfl rfl rfl rfl rfl (fun y hy => ⟨by simp [hy], rfl, rfl⟩) (fun _ => ?_)
      h.misdirected
    simpa using ⟨hway, hready, hnext⟩
  | notify =>
    refine h.sends (x := x) rfl rfl rfl rfl rfl (fun y hy => ⟨by simp [State.notify, hy], rfl, rfl⟩)
      (fun _ => ?_) ?_
    · simpa [State.notify] using ⟨hway, hready, hnext⟩
    · simp [State.notify, h.misdirected, hready.port]

end

/-- The fields of an index are the same in both states. -/
structure Same (s s' : State D K X) (dom : D) : Prop where
  txFring : s'.txFring dom = s.txFring dom
  txAring : s'.txAring dom = s.txAring dom
  txBuf : s'.txBuf dom = s.txBuf dom
  port : s'.port dom = s.port dom

section
omit [DecidableEq D] [DecidableEq K] [DecidableEq X]

theorem Ready.same (h : Ready s dom g) (hs : Same s s' dom) : Ready s' dom g :=
  ⟨hs.txFring.trans h.txFring, hs.txAring.trans h.txAring, hs.txBuf.trans h.txBuf,
    hs.port.trans h.port⟩

theorem SoFar.same {p : ConnPc D} (h : SoFar s p) (hs : ∀ dom, p.dom = some dom → Same s s' dom) :
    SoFar s' p := by
  cases p with
  | idle | aring => trivial
  | buf dom g => exact (hs dom rfl).txAring.trans h
  | fring dom g =>
    obtain ⟨-, haring, hbuf, -⟩ := hs dom rfl
    exact ⟨haring.trans h.1, hbuf.trans h.2⟩
  | thread dom g | bind dom g =>
    obtain ⟨hfring, haring, hbuf, -⟩ := hs dom rfl
    exact ⟨haring.trans h.1, hbuf.trans h.2.1, hfring.trans h.2.2⟩
  | unmask dom g => exact Ready.same h (hs dom rfl)

end

omit [DecidableEq D] [DecidableEq X] in
/-- A step of `backend_connect` at the index `dom`, whose fields alone it changes. -/
theorem Inv.connects (h : Inv s) {p : ConnPc D} (hk : (s.connect k).dom = some dom)
    (hconnect : s'.connect = update s.connect k p)
    (hsame : ∀ d, d ≠ dom → Same s s' d) (htx : s'.tx = s.tx) (hdom : s'.dom = s.dom)
    (hconn : s'.conn = s.conn) (hmis : s'.misdirected = s.misdirected) (hp : SoFar s' p)
    (hnext : p.dom = some dom ∨ p = .idle ∧ ∃ g, Ready s' dom g) : Inv s' := by
  -- who else is connecting is at another index
  have hdoms : ∀ j d, (s'.connect j).dom = some d → (s.connect j).dom = some d := by
    intro j d hj
    by_cases hjk : j = k
    · subst hjk
      rw [hconnect, update_self] at hj
      rcases hnext with hd | ⟨rfl, -⟩
      · rw [hk, ← hd, hj]
      · cases hj
    · rwa [hconnect, update_of_ne hjk] at hj
  have hway : ∀ d, d ≠ dom → (s'.underWay d ↔ s.underWay d) := by
    intro d hd
    refine ⟨fun ⟨j, hj⟩ => ⟨j, hdoms j d hj⟩, fun ⟨j, hj⟩ => ⟨j, ?_⟩⟩
    have hjk : j ≠ k := by
      rintro rfl
      exact hd (some.inj (hj.symm.trans hk))
    rwa [hconnect, update_of_ne hjk]
  constructor
  case soFar =>
    intro j
    by_cases hjk : j = k
    · subst hjk
      rwa [hconnect, update_self]
    · rw [hconnect, update_of_ne hjk]
      refine (h.soFar j).same fun d hd => hsame d ?_
      rintro rfl
      exact hjk (h.alone k j d hk hd)
  case alone => exact fun j j' d hj hj' => h.alone j j' d (hdoms j d hj) (hdoms j' d hj')
  case ready =>
    intro d g hd hg
    by_cases hdd : d = dom
    · subst hdd
      rcases hnext with hp' | ⟨-, g', hr⟩
      · exact absurd ⟨k, by rw [hconnect, update_self, hp']⟩ hd
      · obtain rfl := some.inj (hg.symm.trans hr.txFring)
        exact hr
    · have hsd := hsame d hdd
      exact (h.ready d g (mt (hway d hdd).mpr hd) (hsd.txFring ▸ hg)).same hsd
  case sender =>
    intro x hx
    rw [htx] at hx ⊢
    rw [hdom, hconn]
    obtain ⟨hnot, hr, hgens⟩ := h.sender x hx
    have hdd : s.dom x ≠ dom := fun hd => hnot ⟨k, hd ▸ hk⟩
    exact ⟨mt (hway _ hdd).mp hnot, hr.same (hsame _ hdd), hgens⟩
  case misdirected => exact hmis.trans h.misdirected

omit [DecidableEq X] in
theorem Inv.go (h : Inv s) (hs : stepConnect s k false = some s') : Inv s' := by
  have hsofar := h.soFar k
  cases hpc : s.connect k <;> simp only [stepConnect, hpc, some.injEq] at hs <;>
    simp only [hpc, SoFar] at hsofar
  case idle => cases hs
  case aring dom g =>
    subst hs
    refine h.connects (by rw [hpc]; rfl) rfl (fun d hd => ?_) rfl rfl
      rfl rfl (by simp [SoFar]) (.inl rfl)
    exact ⟨rfl, by simp [hd], rfl, rfl⟩
  case buf dom g =>
    subst hs
    refine h.connects (by rw [hpc]; rfl) rfl (fun d hd => ?_) rfl rfl
      rfl rfl (by simpa [SoFar] using hsofar) (.inl rfl)
    exact ⟨rfl, rfl, by simp [hd], rfl⟩
  case fring dom g =>
    subst hs
    refine h.connects (by rw [hpc]; rfl) rfl (fun d hd => ?_) rfl
      rfl rfl rfl (by simpa [SoFar] using hsofar) (.inl rfl)
    exact ⟨by simp [hd], rfl, rfl, rfl⟩
  case thread dom g =>
    subst hs
    exact h.connects (by rw [hpc]; rfl) rfl
      (fun d _ => ⟨rfl, rfl, rfl, rfl⟩) rfl rfl rfl rfl hsofar (.inl rfl)
  case bind dom g =>
    subst hs
    obtain ⟨haring, hbuf, hfring⟩ := hsofar
    refine h.connects (by rw [hpc]; rfl) rfl (fun d hd => ?_) rfl
      rfl rfl rfl ⟨hfring, haring, hbuf, by simp⟩ (.inl rfl)
    exact ⟨rfl, rfl, rfl, by simp [hd]⟩
  case unmask dom g =>
    subst hs
    refine h.connects (by rw [hpc]; rfl) rfl
      (fun d _ => ⟨rfl, rfl, rfl, rfl⟩) rfl rfl rfl rfl trivial (.inr ⟨rfl, g, ?_⟩)
    exact { hsofar with }

omit [DecidableEq D] [DecidableEq X] in
/-- `backend_connect` starts, with nobody past the test and nobody else at its index. -/
theorem Inv.connect (h : Inv s) {ring : ℕ → Rings} {readers : ℕ → ℤ} {next : ℕ}
    (hk : s.connect k = .idle) (hx : ∀ x, s.dom x = dom → past (s.tx x) = false)
    (hdom : ¬ s.underWay dom) : Inv { s with
      ring := ring
      readers := readers
      next := next
      connect := update s.connect k (.aring dom g) } := by
  have hdoms : ∀ j d, (update s.connect k (.aring dom g) j).dom = some d →
      j = k ∧ d = dom ∨ (s.connect j).dom = some d := by
    intro j d hj
    by_cases hjk : j = k
    · subst hjk
      rw [update_self] at hj
      exact .inl ⟨rfl, (some.inj hj).symm⟩
    · exact .inr (by rwa [update_of_ne hjk] at hj)
  constructor
  case soFar =>
    intro j
    by_cases hjk : j = k
    · simp [hjk, SoFar]
    · dsimp only
      rw [update_of_ne hjk]
      exact (h.soFar j).same fun _ _ => ⟨rfl, rfl, rfl, rfl⟩
  case alone =>
    intro j j' d hj hj'
    rcases hdoms j d hj with ⟨rfl, rfl⟩ | hold
    · rcases hdoms j' d hj' with ⟨rfl, -⟩ | hold'
      · rfl
      · exact absurd ⟨j', hold'⟩ hdom
    · rcases hdoms j' d hj' with ⟨-, rfl⟩ | hold'
      · exact absurd ⟨j, hold⟩ hdom
      · exact h.alone j j' d hold hold'
  case ready =>
    intro d g' hd hg
    have hold : ¬ s.underWay d := by
      rintro ⟨j, hj⟩
      have hjk : j ≠ k := by
        rintro rfl
        simp [hk, ConnPc.dom] at hj
      exact hd ⟨j, by simpa [update_of_ne hjk] using hj⟩
    exact (h.ready d g' hold hg).same ⟨rfl, rfl, rfl, rfl⟩
  case sender =>
    intro x hpast
    obtain ⟨hnot, hr, hgens⟩ := h.sender x hpast
    refine ⟨?_, hr.same ⟨rfl, rfl, rfl, rfl⟩, hgens⟩
    rintro ⟨j, hj⟩
    rcases hdoms j _ hj with ⟨rfl, hd⟩ | hj
    · simp [hx x hd] at hpast
    · exact hnot ⟨j, hj⟩
  case misdirected => exact h.misdirected

omit [DecidableEq D] [DecidableEq K] [DecidableEq X] in
theorem Inv.rings (h : Inv s) {ring : ℕ → Rings} {readers : ℕ → ℤ} :
    Inv { s with ring := ring, readers := readers } where
  soFar := fun j => (h.soFar j).same fun _ _ => ⟨rfl, rfl, rfl, rfl⟩
  alone := h.alone
  ready := fun d g hd hg => (h.ready d g hd hg).same ⟨rfl, rfl, rfl, rfl⟩
  sender := by
    intro x hx
    obtain ⟨hnot, hr, hgens⟩ := h.sender x hx
    exact ⟨hnot, hr.same ⟨rfl, rfl, rfl, rfl⟩, hgens⟩
  misdirected := h.misdirected

theorem Inv.step {a : Act D K X} (h : Inv s) (hok : undisturbed s a) (hs : step s a = some s') :
    Inv s' := by
  simp only [Connect.step] at hs
  split at hs
  · cases hs
  cases a with
  | connect k dom =>
    obtain ⟨hk, ⟨⟩⟩ := ite_none_right_eq_some.mp hs
    exact h.connect hk hok.1 hok.2
  | go k err =>
    subst hok
    exact h.go hs
  | send x dom c =>
    obtain ⟨-, ⟨⟩⟩ := ite_none_right_eq_some.mp hs
    refine h.sends (x := x) rfl rfl rfl rfl rfl (fun y hy => ⟨by simp [hy], by simp [hy], rfl⟩) ?_
      h.misdirected
    simp [past]
  | tx x =>
    cases hpast : past (s.tx x) with
    | true => exact h.tx hpast hs
    | false =>
      cases hpc : s.tx x with
      | idle => simp [stepTx, hpc, txGo] at hs
      | check c => exact h.check hpc (hok hpast) hs
      | _ => simp [hpc, past] at hpast
  | receive g =>
    dsimp only at hs
    split at hs <;> cases hs
    exact h.rings
  | readers g v =>
    cases hs
    exact h.rings

/-- **Published in order.**  In every run in which no sender is past its test while its index is
being connected, and ports can be bound, a sender past its test uses one connection, all
fields of which are set at its index; no notification has gone to another port.  When it finds
`readers` at 0 or below it goes on to notify, and that raises the event of its connection. -/
theorem published_in_order (h : Reach step undisturbed Init s) :
    (∀ x, past (s.tx x) = true →
      Ready s (s.dom x) (s.conn x) ∧ ∀ g ∈ (s.tx x).gens, g = s.conn x) ∧
    s.misdirected = false ∧
    (∀ x g, s.halted = false → s.tx x = .look g → s.readers g ≤ 0 →
      ∃ s', step s (.tx x) = some s' ∧ s'.tx x = .notify ∧ s'.conn x = s.conn x) ∧
    ∀ x, s.halted = false → s.tx x = .notify →
      ∃ s', step s (.tx x) = some s' ∧ s'.raised (s.conn x) = s.raised (s.conn x) + 1 := by
  have hinv : Inv s := h.inv (fun _ h0 => h0.inv) fun _ _ _ hi hok hs => hi.step hok hs
  refine ⟨fun x hx => (hinv.sender x hx).2, hinv.misdirected, fun x g hhalt hx hle => ?_,
    fun x hhalt hx => ?_⟩
  · simp [step, hhalt, stepTx, hx, txGo, hle]
  · have hport := (hinv.sender x (by rw [hx]; rfl)).2.1.port
    simp [step, hhalt, stepTx, hx, txGo, State.notify, hport]

instance [Fintype K] (s : State D K X) (dom : D) : Decidable (s.underWay dom) :=
  inferInstanceAs (Decidable (∃ k, (s.connect k).dom = some dom))

instance [Fintype K] [Fintype X] (s : State D K X) : (a : Act D K X) → Decidable (undisturbed s a)
  | .connect _ dom => inferInstanceAs
      (Decidable ((∀ x, s.dom x = dom → past (s.tx x) = false) ∧ ¬ s.underWay dom))
  | .go _ err => inferInstanceAs (Decidable (err = false))
  | .tx x => inferInstanceAs (Decidable
      (past (s.tx x) = false → (s.txFring (s.dom x)).isSome → ¬ s.underWay (s.dom x)))
  | .send _ _ _ | .receive _ | .readers _ _ => isTrue trivial

end

/-- The backend before the first frontend. -/
def boot : State Unit Unit Unit where
  ring := fun _ => .init fun _ => 0
  readers := fun _ => 0
  next := 0
  txAring := fun _ => none
  txBuf := fun _ => none
  txFring := fun _ => none
  port := fun _ => none
  connect := fun _ => .idle
  tx := fun _ => .idle
  dom := fun _ => ()
  pkt := fun _ => []
  conn := fun _ => 0
  raised := fun _ => 0
  misdirected := false
  halted := false

theorem boot_init : Init boot := ⟨fun _ => rfl, fun _ => rfl, fun _ => rfl, rfl⟩

/-- `backend_connect`, up to the store of `tx_fring`. -/
def publish : List (Act Unit Unit Unit) := [.connect () (), .go () false, .go () false, .go () false]

/-- The rest of it. -/
def complete : List (Act Unit Unit Unit) := [.go () false, .go () false, .go () false]

/-- An empty packet, up to the notification. -/
def forward : List (Act Unit Unit Unit) := .send () () [[1, 2], [3]] :: List.replicate 14 (.tx ())

/-- A connection is completed and a packet is forwarded. -/
theorem published_in_order_packet : ∃ s : State Unit Unit Unit,
    Reach step undisturbed Init s ∧ s.tx () = .notify ∧ (s.ring 0).entered = [[1, 2, 3]] ∧
      Ready s (s.dom ()) (s.conn ()) := by
  obtain ⟨s, hreach, htx, hsent⟩ := run_finds (step) undisturbed Init
    (fun s => s.tx () = .notify ∧ (s.ring 0).entered = [[1, 2, 3]]) (publish ++ complete ++ forward) boot_init
    (by decide +kernel) (by decide +kernel)
  exact ⟨s, hreach, htx, hsent, ((published_in_order hreach).1 () (by rw [htx]; rfl)).1⟩

/-- **Notified nowhere.**  A packet is forwarded between the store of `tx_fring` and the binding
of the port: it is on the ring, `readers` is 0, and the notification reaches nobody.  At an
index that is connected again, a packet is taken from the free ring of the connection before
and put on the available ring of the new one. -/
theorem notified_nowhere :
    (∃ s : State Unit Unit Unit, Reach step Trans.any Init s ∧ s.tx () = .idle ∧
      (s.ring 0).avail ≠ [] ∧ s.readers 0 = 0 ∧ s.misdirected = true ∧ s.raised 0 = 0) ∧
    ∃ s : State Unit Unit Unit, Reach step Trans.any Init s ∧ s.conn () = 0 ∧
      (s.tx ()).gens = [0, 1, 1] := by
  constructor
  · exact any_finds (step) Init _ (publish ++ forward ++ [.tx ()]) boot_init (by decide +kernel)
  · exact any_finds (step) Init _
      (publish ++ complete ++ [.connect () (), .go () false, .go () false] ++
        .send () () [] :: List.replicate 7 (.tx ())) boot_init (by decide +kernel)

end Librettos.Connect
