/-
# `Base.Ifconfigd` — the data path and the interface configuration

A mode-switch event runs `rump_virtif_switch` on the switcher's thread: it toggles
`direct_access`, which the data path follows at once, and unparks the ifconfigd
LWP, whose loop parks and then toggles the interface configuration and
`ifconfigd_direct_access` with it.

So the two are held together by counting: one pass of the loop for each switch.
But `_lwp_unpark` leaves a token, not a count.  Two switches while one token is
pending give one pass, the store of `RL_MASK_PARK` at the end of `_lwp_park` wipes
out a token that came after the wake, and a switch before the LWP has published its
id, or before it is on `all_lwp`, goes elsewhere (`switch_lost`).  Where every
switch reaches the LWP and finds no token pending, the configuration matches the
data path whenever the LWP is parked without a token, unless a switch is between its
toggle and its unpark (`modes_coherent`).
-/
import Librettos.Base.Lwp

namespace Librettos.Ifconfigd

open Trans
open Lwp (maskUnpark maskPark)

/-- Where the ifconfigd LWP stands.  At `callback` and `cbWake` it is switched out and
the code that runs is `_lwp_park_callback`. -/
inductive Pc
  /-- `ifconfigd_lid = _lwp_self()` -/
  | publish
  /-- the exchange at the top of `_lwp_park` -/
  | exchange
  /-- `bmk_sched_block` -/
  | block
  | callback
  | cbWake
  | parked
  /-- the store at the end of `_lwp_park` -/
  | store
  /-- the body of the loop -/
  | configure
deriving DecidableEq, Repr

/-- Where the switcher stands in `rump_virtif_switch`. -/
inductive SwPc
  | idle
  /-- `ifconfigd_get_lid()` -/
  | getLid
  /-- `lwpid2rl` -/
  | lookup (lid : Bool)
  /-- the exchange of `_lwp_unpark` -/
  | exchange
  /-- `rl->rl_wake` -/
  | wake
deriving DecidableEq, Repr

/-- `direct_access` and `ifconfigd_direct_access` are ints that are 0 or 1; `lid` says
whether `ifconfigd_lid` has been set, `listed` whether the LWP is on `all_lwp`;
`queued` counts the LWP's entries on the run queue. -/
structure State where
  directAccess : Bool
  ifconfigdDirectAccess : Bool
  lid : Bool
  listed : Bool
  value : ℕ
  pc : Pc
  queued : ℕ
  switcher : SwPc
deriving DecidableEq, Repr

inductive Act
  /-- a mode-switch event -/
  | switch
  /-- the switcher's next step -/
  | go
  /-- `TAILQ_INSERT_TAIL` in `rumprun_makelwp` -/
  | insert
  /-- the LWP's next step -/
  | lwp
deriving DecidableEq, Repr

/-- The switcher's steps after the toggle.  With `ifconfigd_lid` still 0 the main thread
is unparked instead, and an LWP that is not listed is not found. -/
def stepSwitcher (s : State) : Option State :=
  match s.switcher with
  | .idle => none
  | .getLid => some { s with switcher := .lookup s.lid }
  | .lookup lid => some { s with switcher := if lid ∧ s.listed then .exchange else .idle }
  | .exchange =>
    some { s with value := maskUnpark, switcher := if s.value = 0 then .wake else .idle }
  | .wake => some { s with queued := s.queued + 1, switcher := .idle }

/-- The LWP's steps: `_lwp_park` without a timeout, its callback and the loop's body. -/
def stepLwp (s : State) : Option State :=
  match s.pc with
  | .publish => some { s with lid := true, pc := .exchange }
  | .exchange =>
    some { s with value := maskPark, pc := if s.value = maskUnpark then .configure else .block }
  | .block => some { s with pc := .callback }
  | .callback =>
    some { s with
      value := s.value ^^^ maskPark
      pc := if s.value = maskPark then .parked else .cbWake }
  | .cbWake => some { s with queued := s.queued + 1, pc := .parked }
  | .parked => if 0 < s.queued then some { s with queued := s.queued - 1, pc := .store } else none
  | .store => some { s with value := maskPark, pc := .configure }
  | .configure => some { s with ifconfigdDirectAccess := !s.ifconfigdDirectAccess, pc := .exchange }

def step (s : State) : Act → Option State
  | .switch =>
    if s.switcher = .idle then some { s with directAccess := !s.directAccess, switcher := .getLid }
    else none
  | .go => stepSwitcher s
  | .insert => some { s with listed := true }
  | .lwp => stepLwp s

/-- The thread has been created and `main` has set `ifconfigd_direct_access` to 1. -/
def boot : State where
  directAccess := false
  ifconfigdDirectAccess := true
  lid := false
  listed := false
  value := maskPark
  pc := .publish
  queued := 0
  switcher := .idle

def Init (s : State) : Prop := s = boot

/-- A token is pending. -/
def State.token (s : State) : Bool := s.value.testBit 0

/-- Every switch reaches the LWP and finds no token pending. -/
def oneToken (s : State) (a : Act) : Prop :=
  a = .go → match s.switcher with
    | .lookup lid => lid = true ∧ s.listed = true
    | .exchange => s.token = false
    | _ => True

instance (s : State) (a : Act) : Decidable (oneToken s a) := by
  unfold oneToken
  cases s.switcher <;> infer_instance

/-! ## Coherence -/

/-- The switcher has toggled and not left its token yet. -/
def SwPc.toggled : SwPc → Bool
  | .getLid | .lookup _ | .exchange => true
  | .idle | .wake => false

/-- The loop has consumed a token and is carrying the switch out. -/
def Pc.configuring : Pc → Bool
  | .configure => true
  | _ => false

/-- The value and the wakes that go with a point of the loop. -/
def Held (s : State) : Prop :=
  match s.pc with
  | .publish | .exchange | .block | .callback | .configure =>
    (s.value = maskPark ∨ s.value = maskUnpark) ∧ s.queued = 0 ∧ s.switcher ≠ .wake
  | .cbWake => s.value = 3 ∧ s.queued = 0 ∧ s.switcher ≠ .wake
  | .parked =>
    s.value = 0 ∧ s.queued = 0 ∧ s.switcher ≠ .wake ∨
    s.value = maskUnpark ∧ s.queued = 0 ∧ s.switcher = .wake ∨
    (s.value = maskUnpark ∨ s.value = 3) ∧ s.queued = 1 ∧ s.switcher ≠ .wake
  | .store => (s.value = maskUnpark ∨ s.value = 3) ∧ s.queued = 0 ∧ s.switcher ≠ .wake

/-- The modes differ from each other by the switches that are on their way: one the
switcher is in, one whose token is pending, one that the loop is carrying out. -/
structure Coherent (s : State) : Prop where
  held : Held s
  parity : (s.directAccess == s.ifconfigdDirectAccess) =
    (s.switcher.toggled ^^ s.token ^^ s.pc.configuring)

theorem coherent_init (s : State) (h : Init s) : Coherent s := by
  obtain rfl : s = boot := h
  exact ⟨by simp [Held, boot], rfl⟩

variable {s s' : State}

/-- A step of the switcher that leaves the value alone and does not touch the wake. -/
theorem Held.switcher {w : SwPc} (hs : Held s) (h : s.switcher ≠ .wake)
    (h' : w ≠ .wake) : Held { s with switcher := w } := by
  cases hpc : s.pc <;> simp_all [Held]

theorem Held.exchange (hs : Held s) (htok : s.token = false) (h : s.switcher ≠ .wake) :
    Held { s with value := maskUnpark, switcher := if s.value = 0 then .wake else .idle } := by
  cases hpc : s.pc <;> simp_all [Held, State.token, maskUnpark, maskPark] <;> omega

theorem Coherent.switcher (hs : Coherent s) (hok : oneToken s .go)
    (h : stepSwitcher s = some s') : Coherent s' := by
  obtain ⟨hheld, hpar⟩ := hs
  have hok := hok rfl
  cases hsw : s.switcher with
  | idle => simp [stepSwitcher, hsw] at h
  | getLid =>
    simp only [stepSwitcher, hsw] at h
    cases h
    refine ⟨hheld.switcher (by simp [hsw]) (by simp), ?_⟩
    simpa [hsw, SwPc.toggled, State.token] using hpar
  | lookup lid =>
    simp only [stepSwitcher, hsw] at h hok
    cases h
    refine ⟨hheld.switcher (by simp [hsw]) (by simp [hok]), ?_⟩
    simpa [hsw, hok, SwPc.toggled, State.token] using hpar
  | exchange =>
    simp only [stepSwitcher, hsw] at h hok
    cases h
    refine ⟨hheld.exchange hok (by simp [hsw]), ?_⟩
    have htog : SwPc.toggled (if s.value = 0 then .wake else .idle) = false := by
      split <;> rfl
    simp only [hsw, SwPc.toggled, hok] at hpar
    simp only [htog, State.token]
    simpa [maskUnpark] using hpar
  | wake =>
    simp only [stepSwitcher, hsw] at h
    cases h
    refine ⟨?_, by simpa [hsw, SwPc.toggled, State.token] using hpar⟩
    cases hpc : s.pc <;> simp_all [Held]

theorem Coherent.lwp (hs : Coherent s) (h : stepLwp s = some s') : Coherent s' := by
  obtain ⟨hheld, hpar⟩ := hs
  cases hpc : s.pc <;> simp only [stepLwp, Held, hpc] at h hheld
  case parked =>
    obtain ⟨hq, ⟨⟩⟩ := Option.ite_none_right_eq_some.mp h
    refine ⟨?_, by simpa [hpc, State.token, Pc.configuring] using hpar⟩
    rcases hheld with ⟨_, h0, _⟩ | ⟨_, h0, _⟩ | ⟨hv, h1, hw⟩
    · omega
    · omega
    · simp [Held, hv, h1, hw]
  all_goals
    cases h
    obtain ⟨hv, hq, hw⟩ := hheld
  case publish | block | cbWake =>
    exact ⟨by simp [Held, hv, hq, hw], by simpa [hpc, State.token, Pc.configuring] using hpar⟩
  case exchange | callback =>
    -- at the exchange a token is consumed, and the loop carries the switch out
    rcases hv with hv | hv
    all_goals
      refine ⟨by simp [Held, hv, hq, hw, maskPark, maskUnpark], ?_⟩
      simpa [hpc, hv, State.token, Pc.configuring, maskPark, maskUnpark] using hpar
  case store =>
    refine ⟨by simp [Held, hq, hw], ?_⟩
    rcases hv with hv | hv
    all_goals simpa [hpc, hv, State.token, Pc.configuring, maskPark, maskUnpark] using hpar
  case configure =>
    refine ⟨by simp [Held, hv, hq, hw], ?_⟩
    have htok : State.token { s with
      ifconfigdDirectAccess := !s.ifconfigdDirectAccess, pc := .exchange } = s.token := rfl
    simp only [hpc, htok, Pc.configuring] at hpar ⊢
    revert hpar
    cases s.directAccess <;> cases s.ifconfigdDirectAccess <;> cases s.switcher.toggled <;>
      cases s.token <;> decide

theorem Coherent.step {a : Act} (hs : Coherent s) (hok : oneToken s a)
    (h : step s a = some s') : Coherent s' := by
  cases a with
  | switch =>
    obtain ⟨hidle, ⟨⟩⟩ := Option.ite_none_right_eq_some.mp h
    obtain ⟨hheld, hpar⟩ := hs
    refine ⟨?_, ?_⟩
    · cases hpc : s.pc <;> simp_all [Held]
    · simp only [hidle, SwPc.toggled, State.token] at hpar ⊢
      revert hpar
      cases s.directAccess <;> cases s.ifconfigdDirectAccess <;> simp
  | go => exact hs.switcher hok h
  | insert =>
    cases h
    exact ⟨hs.held, hs.parity⟩
  | lwp => exact hs.lwp h

/-- **The modes are coherent.**  In every run in which each switch reaches the ifconfigd
LWP and finds no token pending, whenever the LWP is parked, has no token and no
`rump_virtif_switch` is between its toggle and its unpark, `ifconfigd_direct_access` is 1
exactly when `direct_access` is 0. -/
theorem modes_coherent {s : State} (hs : Reach step oneToken Init s) (hpc : s.pc = .parked)
    (htoken : s.token = false) (hunparked : s.switcher.toggled = false) :
    s.ifconfigdDirectAccess = true ↔ s.directAccess = false := by
  obtain ⟨_, hpar⟩ : Coherent s := Reach.inv (I := Coherent)
    coherent_init (fun _ _ _ h hok hstep => h.step hok hstep) hs
  have hne : (s.directAccess == s.ifconfigdDirectAccess) = false := by
    rw [hpar, hunparked, htoken, hpc]
    rfl
  revert hne
  cases s.directAccess <;> cases s.ifconfigdDirectAccess <;> simp

/-- From the start to the first park. -/
def toPark : List Act := [.insert, .lwp, .lwp, .lwp, .lwp]

/-- One switch, carried out. -/
theorem modes_coherent_once : ∃ s : State, Reach step oneToken Init s ∧
    s.directAccess = true ∧ s.ifconfigdDirectAccess = false := by
  obtain ⟨s, hs, h1, h2, h3, h4⟩ := run_finds step oneToken Init (s := boot)
    (fun s => s.pc = .parked ∧ s.token = false ∧ s.switcher.toggled = false ∧
      s.directAccess = true)
    (toPark.append [.switch, .go, .go, .go, .go, .lwp, .lwp, .lwp, .lwp, .lwp, .lwp]) rfl
    (by decide) (by decide)
  have hiff := modes_coherent hs h1 h2 h3
  exact ⟨s, hs, h4, by simpa [h4] using hiff⟩

/-- **A switch is lost.**  The second of two switches comes when the LWP has been woken
for the first and has not made the store at the end of `_lwp_park` yet: its token is
wiped out.  The LWP is parked, its `rl_value` is 0 and nothing is on its way, but the
configuration does not match the data path. -/
theorem switch_lost : ∃ s : State, Reach step Trans.any Init s ∧ s.pc = .parked ∧
    s.value = 0 ∧ s.queued = 0 ∧ s.switcher = .idle ∧
    s.directAccess = false ∧ s.ifconfigdDirectAccess = false := by
  exact any_finds step Init (s := boot) _
    (toPark.append [.switch, .go, .go, .go, .go, .lwp, .switch, .go, .go, .go, .lwp, .lwp, .lwp, .lwp,
      .lwp]) rfl (by decide)

end Librettos.Ifconfigd
