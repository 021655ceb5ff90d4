/-
# `Xen.Services` — the two service threads of the frontend

`frontend.c` has two threads that sleep until an event arrives: the reconnecter
re-establishes the rings when the backend has come back, the switcher toggles the
data path.  Both have the same loop,

    while (1) {
        atomic_store(&flag, -1);
        bmk_sched_block(…);        /* callback: compare-exchange -1 to 0, else wake */
        body
    }

and the same event handler, `if (atomic_exchange(&flag, 1) == 0) bmk_sched_wake`.

The flag is reset by a plain store at the top of the loop.  An event that arrives
while the body is running, when the flag is still 1, is recorded nowhere and wiped
out: `event_lost` is such a run, for each of the two threads.  Where no handler is
executed from the start of the body to that store no event is lost (`event_heard`).
-/
import Librettos.Lib.Sleeper
import Librettos.Lib.Trans

namespace Librettos.Services

open Function (update update_of_ne update_self)
open Sleeper Trans

/-- `frontend_reconnecter` and `frontend_switcher`. -/
inductive Service
  | reconnecter
  | switcher
deriving DecidableEq, Repr

/-- The points of the loop. -/
inductive Pc
  /-- `atomic_store(&flag, -1)` -/
  | top
  /-- `bmk_sched_block` -/
  | block
  /-- inside `bmk_sched_block` -/
  | asleep
  /-- the body is about to start -/
  | body
  /-- in the body -/
  | busy
deriving DecidableEq, Repr

/-- A service: `reconnecters` and `reconnect_thread`, or `switchers` and
`switch_thread`.  `missed` says that the body has not been started since a handler
was last executed. -/
structure Loop (H : Type) where
  bed : Bed Unit H
  pc : Pc
  missed : Bool

/-- What can happen to a service; `H` are the processors that take interrupts. -/
inductive Op (H : Type)
  /-- the handler's exchange -/
  | exchange (h : H)
  /-- the handler's `bmk_sched_wake` -/
  | wake (h : H)
  /-- the thread's next step -/
  | go
  /-- the compare-exchange of `reconnect_callback` or `switch_callback` -/
  | callback
  /-- its `bmk_sched_wake` -/
  | requeue
  /-- the thread is scheduled -/
  | resume
deriving DecidableEq, Repr

section
variable {H : Type} [DecidableEq H]

/-- The loop's own steps. -/
def Loop.go (l : Loop H) : Loop H :=
  match l.pc with
  | .top => { l with bed := l.bed.store () (-1), pc := .block }
  | .block => { l with bed := l.bed.leave, pc := .asleep }
  | .asleep => { l with pc := .body }
  | .body => { l with pc := .busy, missed := false }
  | .busy => { l with pc := .top }

def Loop.step (l : Loop H) : Op H → Option (Loop H)
  | .exchange h =>
    if l.bed.waking h = false then some { l with bed := l.bed.call () h, missed := true } else none
  | .wake h => if l.bed.waking h = true then some { l with bed := l.bed.wake h } else none
  | .go => if l.bed.seat = .up then some l.go else none
  | .callback => if l.bed.seat = .leaving then some { l with bed := l.bed.settle () } else none
  | .requeue => if l.bed.seat = .turning then some { l with bed := l.bed.turn } else none
  | .resume =>
    if l.bed.seat = .out ∧ 0 < l.bed.queued then some { l with bed := l.bed.resume } else none

/-- Both services. -/
abbrev State (H : Type) := Service → Loop H

/-- One step of one of the two services. -/
def step (s : State H) (a : Service × Op H) : Option (State H) :=
  ((s a.1).step a.2).map (update s a.1)

/-- After `frontend_init`: the flag is 1 and the thread is on its run queue. -/
def fresh : Loop H where
  bed := { flag := fun _ => 1, used := fun _ => true, seat := .out, queued := 1, waking := fun _ => false }
  pc := .top
  missed := false

def Init (s : State H) : Prop := ∀ v, s v = fresh

/-- The body is still ahead: the thread has passed the store at the top of the loop
and has not started the body since. -/
def Pc.ahead : Pc → Bool
  | .block | .asleep | .body => true
  | .top | .busy => false

/-- A handler is executed only while the body is ahead. -/
def bodyAhead (s : State H) : Service × Op H → Prop
  | (v, .exchange _) => (s v).pc.ahead = true
  | _ => True

instance (s : State H) : ∀ a, Decidable (bodyAhead s a)
  | (v, .exchange _) => inferInstanceAs (Decidable ((s v).pc.ahead = true))
  | (_, .wake _) | (_, .go) | (_, .callback) | (_, .requeue) | (_, .resume) => isTrue trivial

/-! ## No event is lost -/

/-- An event nobody has acted on has set the flag, and the thread is on its way
from the store at the top of the loop to the body. -/
structure Heard (l : Loop H) : Prop where
  sound : Sound l.bed
  used : l.bed.used () = true
  word : l.bed.flag () = -1 ∨ l.bed.flag () = 0 ∨ l.bed.flag () = 1
  away : l.bed.flag () ≠ 1 → l.pc = .block ∨ l.pc = .asleep
  left : l.pc = .asleep → l.bed.flag () = -1 → l.bed.seat = .leaving
  missed : l.missed = true → l.bed.flag () = 1 ∧ l.pc.ahead = true

omit [DecidableEq H] in
theorem heard_fresh : Heard (fresh : Loop H) where
  sound := {
    asleep := fun _ _ h => absurd h (by simp [fresh])
    word := fun _ _ _ _ h => absurd h (by simp [fresh])
    fresh := fun _ h => absurd h (by simp [fresh])
    waking := fun _ h => absurd h (by simp [fresh])
    one := fun _ _ h => absurd h (by simp [fresh])
    here := fun h => absurd rfl h
    once := le_rfl }
  used := rfl
  word := .inr (.inr rfl)
  away h := absurd rfl h
  left h := absurd h (by simp [fresh])
  missed h := absurd h (by simp [fresh])

omit [DecidableEq H] in
theorem Heard.go {l : Loop H} (hl : Heard l) (hup : l.bed.seat = .up) : Heard l.go := by
  have hne : l.bed.seat ≠ .out := by simp [hup]
  have hflag : l.bed.flag () ≠ 0 := fun h => hne (hl.sound.asleep () hl.used h).1
  cases hpc : l.pc with
  | top =>
    rw [Loop.go, hpc]
    constructor
    case sound => exact hl.sound.store hne () (by decide)
    case used => simp [Bed.store]
    case word => exact .inl (by simp [Bed.store])
    case away => exact fun _ => .inl rfl
    case left => exact fun h => absurd h (by simp)
    case missed => exact fun h => absurd (hl.missed h).2 (by simp [hpc, Pc.ahead])
  | block =>
    rw [Loop.go, hpc]
    exact { hl with
      sound := hl.sound.move hne .leaving
      away := fun _ => .inr rfl
      left := fun _ _ => rfl
      missed := fun h => ⟨(hl.missed h).1, rfl⟩ }
  | asleep =>
    -- it has been woken, so somebody has called
    have hone : l.bed.flag () = 1 := by
      rcases hl.word with h | h | h
      · exact absurd (hl.left hpc h) (by simp [hup])
      · exact absurd h hflag
      · exact h
    rw [Loop.go, hpc]
    exact { hl with
      away := fun h => absurd hone h
      left := fun h => absurd h (by simp)
      missed := fun _ => ⟨hone, rfl⟩ }
  | body =>
    have hone : l.bed.flag () = 1 := by
      by_contra h
      exact absurd (hl.away h) (by simp [hpc])
    rw [Loop.go, hpc]
    exact { hl with
      away := fun h => absurd hone h
      left := fun h => absurd h (by simp)
      missed := fun h => absurd h (by simp) }
  | busy =>
    have hone : l.bed.flag () = 1 := by
      by_contra h
      exact absurd (hl.away h) (by simp [hpc])
    rw [Loop.go, hpc]
    exact { hl with
      away := fun h => absurd hone h
      left := fun h => absurd h (by simp)
      missed := fun h => absurd (hl.missed h).2 (by simp [hpc, Pc.ahead]) }

theorem Heard.step {l l' : Loop H} (hl : Heard l) {op : Op H} (hstep : l.step op = some l')
    (hok : ∀ h, op = .exchange h → l.pc.ahead = true) : Heard l' := by
  cases op with
  | exchange h =>
    obtain ⟨hh, ⟨⟩⟩ := Option.ite_none_right_eq_some.mp hstep
    exact { hl with
      sound := hl.sound.call hl.used hh
      word := .inr (.inr (by simp [Bed.call]))
      away := fun h => absurd (by simp [Bed.call]) h
      left := fun _ h => absurd h (by simp [Bed.call])
      missed := fun _ => ⟨by simp [Bed.call], hok h rfl⟩ }
  | wake h =>
    obtain ⟨hh, ⟨⟩⟩ := Option.ite_none_right_eq_some.mp hstep
    exact { hl with sound := hl.sound.wake hh }
  | go =>
    obtain ⟨hup, ⟨⟩⟩ := Option.ite_none_right_eq_some.mp hstep
    exact hl.go hup
  | callback =>
    obtain ⟨hseat, ⟨⟩⟩ := Option.ite_none_right_eq_some.mp hstep
    have hsound := hl.sound.settle hseat ()
    by_cases hf : l.bed.flag () = -1
    · rw [Bed.settle, if_pos hf] at hsound ⊢
      exact { hl with
        sound := hsound
        word := .inr (.inl (by simp))
        away := fun _ => hl.away (by rw [hf]; decide)
        left := fun _ h => absurd h (by simp)
        missed := fun h => absurd (hl.missed h).1 (by rw [hf]; decide) }
    · rw [Bed.settle, if_neg hf] at hsound ⊢
      exact { hl with sound := hsound, left := fun _ h => absurd h hf }
  | requeue =>
    obtain ⟨hseat, ⟨⟩⟩ := Option.ite_none_right_eq_some.mp hstep
    refine { hl with sound := hl.sound.turn hseat, left := fun hpc h => ?_ }
    exact absurd (hl.left hpc h) (by simp [hseat])
  | resume =>
    obtain ⟨hseat, ⟨⟩⟩ := Option.ite_none_right_eq_some.mp hstep
    refine { hl with sound := hl.sound.resume hseat.2, left := fun hpc h => ?_ }
    exact absurd (hl.left hpc h) (by simp [hseat.1])

theorem heard_reach {s : State H} (hs : Reach step bodyAhead Init s) (v : Service) :
    Heard (s v) := by
  refine Reach.inv (I := fun s => ∀ v, Heard (s v)) (fun s h0 v => ?_)
    (fun s a s' h hok hstep => ?_) hs v
  · rw [h0 v]
    exact heard_fresh
  · obtain ⟨l, hl, rfl⟩ := Option.map_eq_some_iff.mp hstep
    intro v
    by_cases hv : v = a.1
    · subst hv
      rw [update_self]
      refine (h a.1).step hl fun x hx => ?_
      obtain ⟨w, op⟩ := a
      obtain rfl : op = .exchange x := hx
      exact hok
    · rw [update_of_ne hv]
      exact h v

/-- **No event is lost while the body is ahead.**  In every run in which no handler is
executed from the start of the body to the store at the top of the loop, whenever a
service's thread is asleep and no handler is being executed, its body has been started
since the last handler. -/
theorem event_heard {s : State H} (hs : Reach step bodyAhead Init s) (v : Service)
    (hflag : (s v).bed.flag () = 0) (_hout : (s v).bed.seat = .out)
    (_hno : ∀ h, (s v).bed.waking h = false) : (s v).missed = false := by
  by_contra hm
  have hone := ((heard_reach hs v).missed (by simpa using hm)).1
  rw [hflag] at hone
  exact absurd hone (by decide)

end

/-- The thread goes to sleep for the first time. -/
def toSleep (v : Service) : List (Service × Op Unit) :=
  [(v, .resume), (v, .go), (v, .go), (v, .callback)]

/-- A run as the condition asks for: asleep, called, through the body, asleep again. -/
theorem event_heard_once : ∃ s : State Unit,
    Reach step bodyAhead Init s ∧ (s .switcher).missed = false := by
  obtain ⟨s, hs, h1, h2, h3⟩ := run_finds step bodyAhead Init (s := fun _ => fresh)
    (fun s => (s .switcher).bed.flag () = 0 ∧ (s .switcher).bed.seat = .out ∧
      (s .switcher).bed.waking () = false)
    (toSleep .switcher ++ [(.switcher, .exchange ()), (.switcher, .wake ()), (.switcher, .resume),
      (.switcher, .go), (.switcher, .go), (.switcher, .go), (.switcher, .go), (.switcher, .go),
      (.switcher, .callback)])
    (fun _ => rfl) (by decide) (by decide)
  exact ⟨s, hs, event_heard hs .switcher h1 h2 fun _ => h3⟩

/-- An event that arrives while the thread is in its body finds the flag at 1, and the
store at the top of the loop wipes it out. -/
theorem wiped_out (v : Service) : ∃ s : State Unit, Reach step Trans.any Init s ∧
    (s v).bed.flag () = 0 ∧ (s v).bed.seat = .out ∧ (s v).bed.queued = 0 ∧
    (∀ h, (s v).bed.waking h = false) ∧ (s v).missed = true := by
  exact any_finds step Init (s := fun _ => fresh) _
    (toSleep v ++ [(v, .exchange ()), (v, .wake ()), (v, .resume), (v, .go), (v, .go), (v, .exchange ()),
      (v, .go), (v, .go), (v, .go), (v, .callback)]) (fun _ => rfl) (by cases v <;> decide)

/-- **An event is lost**, by the reconnecter and by the switcher: the thread sleeps, no
handler is being executed, and the body has not been started since. -/
theorem event_lost :
    (∃ s : State Unit, Reach step Trans.any Init s ∧
      (s .reconnecter).bed.flag () = 0 ∧ (s .reconnecter).bed.seat = .out ∧
      (s .reconnecter).bed.queued = 0 ∧ (∀ h, (s .reconnecter).bed.waking h = false) ∧
      (s .reconnecter).missed = true) ∧
    (∃ s : State Unit, Reach step Trans.any Init s ∧
      (s .switcher).bed.flag () = 0 ∧ (s .switcher).bed.seat = .out ∧
      (s .switcher).bed.queued = 0 ∧ (∀ h, (s .switcher).bed.waking h = false) ∧
      (s .switcher).missed = true) :=
  ⟨wiped_out .reconnecter, wiped_out .switcher⟩

end Librettos.Services
