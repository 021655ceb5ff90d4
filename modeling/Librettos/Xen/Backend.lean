/-
# `Xen.Backend` — the slots of the network domain's frontends

`backend_connect` gives each frontend an index `dom` into the tables of
`backend.c`.  A frontend that `backend_init` found active comes back on the
welcome port that was bound for it, and its index is that port's place in
`reconnect_welcome_port`; any other one takes the next value of `frontend_dom`.
`backend_receive` forwards ARP and broadcast packets to the indices below
`frontend_dom`.

The two ways do not know of each other.  A reconnected frontend is not counted in
`frontend_dom`, so that its index is not covered and is given again to the next new
frontend; and the check for too many frontends lets the index 16 pass
(`doms_clash`).  Where every frontend is new and finds `frontend_dom` below 16
the indices are as they should be (`doms_apart`).
-/
import Librettos.Lib.Trans

namespace Librettos.Backend

open List Trans

/-- `RUMPRUN_NUM_OF_APPS`. -/
def numOfApps : ℕ := 16

/-- The state behind `backend_connect`; `F` are the frontends.  Ports are numbered as
the hypervisor hands them out, from 1; `waiting` has the frontends behind the ports of
`reconnect_welcome_port`, and `conn` the connected frontends with their indices. -/
structure State (F : Type) where
  reconnectWelcomePort : ℕ → ℕ
  welcomePort : Option ℕ
  reconnection : ℕ
  frontendDom : ℕ
  nextPort : ℕ
  waiting : ℕ → Option F
  conn : List (F × ℕ)
  halted : Bool

section
variable {F : Type}

/-- Before `backend_init`. -/
def start : State F where
  reconnectWelcomePort := fun _ => 0
  welcomePort := none
  reconnection := 0
  frontendDom := 0
  nextPort := 1
  waiting := fun _ => none
  conn := []
  halted := false

/-- The welcome port of an active frontend is bound. -/
def bindReconnect (active : ℕ → Option F) (s : State F) (i : ℕ) : State F :=
  match active i with
  | none => s
  | some f => { s with
      reconnection := s.reconnection + 1
      reconnectWelcomePort := Function.update s.reconnectWelcomePort i s.nextPort
      waiting := Function.update s.waiting i (some f)
      nextPort := s.nextPort + 1 }

/-- `minios_evtchn_alloc_unbound` for the welcome port. -/
def allocWelcome (s : State F) : State F :=
  { s with welcomePort := some s.nextPort, nextPort := s.nextPort + 1 }

/-- `backend_init`; `active` is what `RUMPRUN_SERVICE_RECONNECT` reports. -/
def backendInit (active : ℕ → Option F) : State F :=
  let s := (List.range numOfApps).foldl (bindReconnect active) start
  if s.reconnection ≠ 0 then s else allocWelcome s

/-- `get_dom`. -/
def getDom (s : State F) (port : ℕ) : Option ℕ :=
  (List.range numOfApps).find? fun i => s.reconnectWelcomePort i == port

/-- The index for the next frontend; `none` halts the system. -/
def takeDom (s : State F) (port : ℕ) : State F × Option ℕ :=
  if s.reconnection ≠ 0 then (s, getDom s port)
  else
    let dom := s.frontendDom
    let s := { s with frontendDom := (dom + 1) % 2 ^ 32 }
    if numOfApps < dom then (s, none) else (s, some dom)

/-- `backend_connect`. -/
def backendConnect (s : State F) (f : F) (port : ℕ) : State F :=
  match takeDom s port with
  | (s, none) => { s with halted := true }
  | (s, some dom) =>
    let s := { s with conn := s.conn ++ [(f, dom)] }
    let reconnection := s.reconnection
    let s := if reconnection ≤ 1 then allocWelcome s else s
    if reconnection = 0 then s else { s with reconnection := s.reconnection - 1 }

/-- A welcome event: the frontend `f` on the port `port`. -/
abbrev Event (F : Type) := F × ℕ

variable [DecidableEq F]

/-- A frontend that is not connected raises one event, on the port bound for it if it
was active, on the current welcome port otherwise. -/
def raises (s : State F) (f : F) (port : ℕ) : Prop :=
  f ∉ s.conn.map Prod.fst ∧
    ((∃ i ∈ List.range numOfApps, s.waiting i = some f ∧ s.reconnectWelcomePort i = port) ∨
      (∀ i ∈ List.range numOfApps, s.waiting i ≠ some f) ∧ s.welcomePort = some port)

instance (s : State F) (f : F) (port : ℕ) : Decidable (raises s f port) :=
  inferInstanceAs (Decidable (_ ∧ _))

def step (s : State F) (e : Event F) : Option (State F) :=
  if s.halted = false ∧ raises s e.1 e.2 then some (backendConnect s e.1 e.2) else none

/-- After `backend_init`, whatever frontends were active; a frontend is in one entry of
the table only. -/
def Init (s : State F) : Prop :=
  ∃ active : ℕ → Option F, (∀ i j f, active i = some f → active j = some f → i = j) ∧
    s = backendInit active

/-- The frontend is a new one and finds a free index. -/
def newcomer (s : State F) (_ : Event F) : Prop :=
  s.reconnection = 0 ∧ s.frontendDom < numOfApps

instance (s : State F) (e : Event F) : Decidable (newcomer s e) :=
  inferInstanceAs (Decidable (_ ∧ _))

/-! ## Newcomers are kept apart -/

/-- The frontends have the indices below `frontend_dom`, in the order in which they
came. -/
structure Assigned (s : State F) : Prop where
  dom : s.conn.map Prod.snd = List.range s.frontendDom
  bound : s.frontendDom ≤ numOfApps

section
omit [DecidableEq F]

theorem bindReconnect_conn (active : ℕ → Option F) (s : State F) (i : ℕ) :
    (bindReconnect active s i).conn = s.conn ∧
      (bindReconnect active s i).frontendDom = s.frontendDom := by
  unfold bindReconnect
  split <;> exact ⟨rfl, rfl⟩

theorem foldl_bindReconnect_conn (active : ℕ → Option F) : ∀ (l : List ℕ) (s : State F),
    (l.foldl (bindReconnect active) s).conn = s.conn ∧
      (l.foldl (bindReconnect active) s).frontendDom = s.frontendDom
  | [], _ => ⟨rfl, rfl⟩
  | i :: l, s => by
    obtain ⟨h1, h2⟩ := foldl_bindReconnect_conn active l (bindReconnect active s i)
    obtain ⟨h3, h4⟩ := bindReconnect_conn active s i
    exact ⟨h1.trans h3, h2.trans h4⟩

theorem assigned_init {s : State F} (h : Init s) : Assigned s := by
  obtain ⟨active, _, rfl⟩ := h
  obtain ⟨h1, h2⟩ := foldl_bindReconnect_conn active (range numOfApps) start
  have hconn : (backendInit active).conn = [] ∧ (backendInit active).frontendDom = 0 := by
    simp only [backendInit]
    split
    · exact ⟨h1, h2⟩
    · exact ⟨h1, h2⟩
  constructor
  case dom => rw [hconn.1, hconn.2, map_nil, range_zero]
  case bound => simp [hconn.2]

theorem backendConnect_newcomer {s : State F} (f : F) (port : ℕ) (h0 : s.reconnection = 0)
    (hlt : s.frontendDom < numOfApps) :
    (backendConnect s f port).conn = s.conn ++ [(f, s.frontendDom)] ∧
      (backendConnect s f port).frontendDom = s.frontendDom + 1 := by
  have hnot : ¬ numOfApps < s.frontendDom := Nat.not_lt.mpr hlt.le
  have hsmall : s.frontendDom + 1 < 4294967296 := by
    simp only [numOfApps] at hlt
    omega
  simpa [backendConnect, takeDom, h0, hnot, allocWelcome] using hsmall

end

theorem Assigned.step {s s' : State F} {e : Event F} (hs : Assigned s) (hok : newcomer s e)
    (h : step s e = some s') : Assigned s' := by
  obtain ⟨_, ⟨⟩⟩ := Option.ite_none_right_eq_some.mp h
  obtain ⟨h1, h2⟩ := backendConnect_newcomer e.1 e.2 hok.1 hok.2
  constructor
  case dom => rw [h1, h2, map_append, hs.dom, map_singleton, range_succ]
  case bound =>
    rw [h2]
    exact hok.2

/-- **Indices of newcomers.**  In every run in which each frontend is new and finds
`frontend_dom` below `RUMPRUN_NUM_OF_APPS`, every connected frontend has an index below
`RUMPRUN_NUM_OF_APPS`, no two have the same, and `frontend_dom` covers them all. -/
theorem doms_apart {s : State F} (hs : Reach step newcomer Init s) :
    (∀ c ∈ s.conn, c.2 < numOfApps) ∧
    (∀ c ∈ s.conn, ∀ d ∈ s.conn, c.2 = d.2 → c = d) ∧
    ∀ c ∈ s.conn, c.2 < s.frontendDom := by
  have hinv : Assigned s := Reach.inv (I := Assigned) (fun _ h => assigned_init h)
    (fun _ _ _ h hok hstep => h.step hok hstep) hs
  have hcover : ∀ c ∈ s.conn, c.2 < s.frontendDom := by
    intro c hc
    have hmem := mem_map_of_mem (f := Prod.snd) hc
    rw [hinv.dom] at hmem
    exact mem_range.mp hmem
  have hnodup : (s.conn.map Prod.snd).Nodup := by
    rw [hinv.dom]
    exact nodup_range
  exact ⟨fun c hc => (hcover c hc).trans_le hinv.bound,
    fun c hc d hd he => inj_on_of_nodup_map hnodup hc hd he, hcover⟩

end

theorem init_none : Init (backendInit fun _ => (none : Option ℕ)) :=
  ⟨_, fun _ _ _ h => absurd h (by simp), rfl⟩

theorem init_one : Init (backendInit fun i => if i = 0 then some 7 else none) :=
  ⟨_, fun i j f hi hj => by split_ifs at hi hj; omega, rfl⟩

/-- Two newcomers. -/
theorem doms_apart_two : ∃ s : State ℕ, Reach step newcomer Init s ∧
    s.conn = [(7, 0), (8, 1)] ∧ s.frontendDom = 2 ∧ ∀ c ∈ s.conn, c.2 < s.frontendDom := by
  obtain ⟨s, hs, h1, h2⟩ := run_finds step newcomer Init
    (fun s => s.conn = [(7, 0), (8, 1)] ∧ s.frontendDom = 2) [(7, 1), (8, 2)] init_none
    (by decide) (by decide)
  exact ⟨s, hs, h1, h2, (doms_apart hs).2.2⟩

/-- **Indices clash.**  A frontend reconnects and is not covered by `frontend_dom`; the
next newcomer gets its index; and of seventeen newcomers the last gets the index 16. -/
theorem doms_clash :
    (∃ s : State ℕ, Reach step Trans.any Init s ∧ s.conn = [(7, 0)] ∧ s.frontendDom = 0) ∧
    (∃ s : State ℕ, Reach step Trans.any Init s ∧ s.conn = [(7, 0), (8, 0)]) ∧
    ∃ s : State ℕ, Reach step Trans.any Init s ∧ s.halted = false ∧ (17, numOfApps) ∈ s.conn := by
  refine ⟨?_, ?_, ?_⟩
  · exact any_finds step Init _ [(7, 1)] init_one (by decide)
  · exact any_finds step Init _ [(7, 1), (8, 2)] init_one (by decide)
  · exact any_finds step Init _ ((range 17).map fun i => (i + 1, i + 1)) init_none
      (by decide +kernel)

end Librettos.Backend
