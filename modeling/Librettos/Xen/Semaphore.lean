/-
# `Xen.Semaphore` — the counting semaphore of Mini-OS

`down` takes one from a signed counter and blocks if there was none to take; `up` adds one and
wakes a waiter if somebody is owed one, who may not have reached the block queue yet.
`trydown` competes on the counter with a compare-exchange (`mini-os/semaphore.h`).  Each atomic
operation is one step, as are the callback of a thread that has been switched out, the wake
and the return of a woken thread; the block queue is the one of `Core.BlockQueue`.

The counter is a `long`, and it wraps: with `2^63 - 1` permits one more `up` leaves none.  The
results are for the runs in which it does not (`roomy`).

**Proved here.**  Every permit is somewhere, and every `down` that found none is too:

    completed + woken + wakes under way + banked wakes + max(counter, 0)  =  c + ups
    blocked or on the way to it  =  wakes under way + banked wakes + max(-counter, 0)
-/
import Librettos.Lib.Trans
import Librettos.Lib.Count
import Librettos.Core.BlockQueue

namespace Librettos.Semaphore

open Function (update update_of_ne)
open Count List Option Trans

/-- A `long` -/
abbrev Long := BitVec 64

inductive Op
  | down
  | trydown
  | up
deriving DecidableEq, Repr

/-- Where a thread is. -/
inductive Pc
  | idle
  /-- at the `fetch_sub` of `down` -/
  | downSub
  /-- about to be switched out; then the callback -/
  | downSwitch
  /-- blocked -/
  | downQueued
  /-- woken, on its run queue -/
  | downReady
  | tryLoad
  | tryCas (count : Long)
  /-- at the `fetch_add` of `up` -/
  | upAdd
  | upWake
deriving DecidableEq, Repr

/-- `downs` are the completed `down` and successful `trydown` calls, `ups` the calls of `up`
from their `fetch_add` on.  `ret` is what `trydown` returned last. -/
structure State (T : Type) where
  count : Long
  block : BlockQueue T
  pc : T → Pc
  ret : T → Nat
  downs : Nat
  ups : Nat

inductive Act (T : Type)
  | call (t : T) (op : Op)
  /-- the next step of `t`; `fail` is a spurious failure of the compare-exchange -/
  | go (t : T) (fail : Bool)
deriving DecidableEq, Repr

section
variable {T : Type} [DecidableEq T]

def start : Op → Pc
  | .down => .downSub
  | .trydown => .tryLoad
  | .up => .upAdd

def State.goto (s : State T) (t : T) (c : Pc) : State T :=
  { s with pc := update s.pc t c }

/-- `t` has its permit. -/
def State.took (s : State T) (t : T) : State T :=
  { s.goto t .idle with downs := s.downs + 1 }

/-- `if (count <= 0) return 0` -/
def State.look (s : State T) (t : T) (count : Long) : State T :=
  if count.sle 0 then { s.goto t .idle with ret := update s.ret t 0 }
  else s.goto t (.tryCas count)

def go (s : State T) (t : T) (fail : Bool) : Option (State T) :=
  match s.pc t with
  | .idle => none
  | .downSub =>
    if s.count.sle 0 then some ({ s with count := s.count - 1 }.goto t .downSwitch)
    else some ({ s with count := s.count - 1 }.took t)
  | .downSwitch =>
    some ({ s with block := (s.block.block t).1 }.goto t
      (if (s.block.block t).2 then .downQueued else .downReady))
  | .downQueued => none
  | .downReady => some (s.took t)
  | .tryLoad => some (s.look t s.count)
  | .tryCas count =>
    if s.count = count ∧ fail = false then
      some { { s with count := count - 1 }.took t with ret := update s.ret t 1 }
    else some (s.look t s.count)
  | .upAdd =>
    some { s.goto t (if s.count.slt 0 then .upWake else .idle) with
      count := s.count + 1, ups := s.ups + 1 }
  | .upWake =>
    match s.block.wake.2 with
    | none => some ({ s with block := s.block.wake.1 }.goto t .idle)
    | some u => some (({ s with block := s.block.wake.1 }.goto t .idle).goto u .downReady)

def step (s : State T) : Act T → Option (State T)
  | .call t op => if s.pc t = .idle then some (s.goto t (start op)) else none
  | .go t fail => go s t fail

omit [DecidableEq T] in
/-- `init_SEMAPHORE(sem, c)` has been called. -/
structure Init (c : Long) (s : State T) : Prop where
  count : s.count = c
  block : s.block = .empty
  pc : ∀ t, s.pc t = .idle
  downs : s.downs = 0
  ups : s.ups = 0

/-- The step does not carry the counter over the end of its range. -/
def roomyB (s : State T) : Act T → Bool
  | .call _ _ => true
  | .go t _ =>
    match s.pc t with
    | .upAdd => s.count != BitVec.intMax 64
    | .downSub => s.count != BitVec.intMin 64
    | _ => true

def roomy (s : State T) (a : Act T) : Prop := roomyB s a = true

instance (s : State T) (a : Act T) : Decidable (roomy s a) := inferInstanceAs (Decidable (_ = true))

/-- No call is mid-way: those that have not returned are blocked. -/
def Quiet (s : State T) : Prop := ∀ t, s.pc t = .idle ∨ s.pc t = .downQueued

/-! ## The invariant -/

def Pc.isDownSwitch : Pc → Bool
  | .downSwitch => true
  | _ => false

def Pc.isDownReady : Pc → Bool
  | .downReady => true
  | _ => false

def Pc.isUpWake : Pc → Bool
  | .upWake => true
  | _ => false

/-- `a` threads are on their way to the queue, `r` have been woken and `w` are about to wake
somebody. -/
structure Tallies (pc : T → Pc) (a r w : Nat) : Prop where
  switching : Tally Pc.isDownSwitch pc a
  ready : Tally Pc.isDownReady pc r
  waking : Tally Pc.isUpWake pc w

/-- The sums over the permits and over the calls of `down` that found none. -/
structure Sums (c : Int) (s : State T) (a r w : Nat) : Prop where
  tallies : Tallies s.pc a r w
  blocked : (a + s.block.waiters.length : Int) = w + s.block.pending + max (-s.count.toInt) 0
  permits : (s.downs + r + w + s.block.pending : Int) + max s.count.toInt 0 = c + s.ups

structure Inv (c : Int) (s : State T) : Prop where
  sums : ∃ a r w, Sums c s a r w
  nodup : s.block.waiters.Nodup
  waiter : ∀ t, t ∈ s.block.waiters ↔ s.pc t = .downQueued

theorem Tallies.update {pc : T → Pc} {a r w a' r' w' : Nat} (h : Tallies pc a r w) (t : T) (p : Pc)
    (ha : a' + (pc t).isDownSwitch.toNat = a + p.isDownSwitch.toNat)
    (hr : r' + (pc t).isDownReady.toNat = r + p.isDownReady.toNat)
    (hw : w' + (pc t).isUpWake.toNat = w + p.isUpWake.toNat) : Tallies (update pc t p) a' r' w' :=
  ⟨h.switching.update t p ha, h.ready.update t p hr, h.waking.update t p hw⟩

/-! ### The counter -/

omit [DecidableEq T] in
theorem sle_zero (x : Long) : x.sle 0 = true ↔ x.toInt ≤ 0 := by
  rw [BitVec.sle_eq_decide, decide_eq_true_iff]
  rfl

omit [DecidableEq T] in
theorem slt_zero (x : Long) : x.slt 0 = true ↔ x.toInt < 0 := by
  rw [BitVec.slt_eq_decide, decide_eq_true_iff]
  rfl

/-! ### The steps -/

variable {c : Int} {s s' : State T} {t : T}

omit [DecidableEq T] in
theorem Init.inv {n : Long} (h : Init n s) (hn : 0 ≤ n.toInt) : Inv n.toInt s where
  sums := by
    refine ⟨0, 0, 0, ⟨?_, ?_, ?_⟩, ?_, ?_⟩
    · exact .zero fun t => by rw [h.pc t]; rfl
    · exact .zero fun t => by rw [h.pc t]; rfl
    · exact .zero fun t => by rw [h.pc t]; rfl
    · simpa [h.block, BlockQueue.empty, h.count] using hn
    · simpa [h.block, BlockQueue.empty, h.count, h.downs, h.ups] using hn
  nodup := by simp [h.block, BlockQueue.empty]
  waiter := by simp [h.block, BlockQueue.empty, h.pc]

section
variable (h : Inv c s)
include h

/-- A step that leaves the queue alone and does not take `t` out of it. -/
theorem Inv.stay {p : Pc} (ht : s.pc t ≠ .downQueued) (hp : p ≠ .downQueued)
    (hpc : s'.pc = update s.pc t p) (hblock : s'.block = s.block)
    (hsums : ∃ a r w, Sums c s' a r w) : Inv c s' := by
  refine ⟨hsums, hblock ▸ h.nodup, fun u => ?_⟩
  rw [hblock, hpc, h.waiter u]
  by_cases hu : u = t
  · subst hu
    simp [ht, hp]
  · simp [hu]

/-- A step at which nothing is counted. -/
theorem Inv.goto {p : Pc} (ht : s.pc t ≠ .downQueued) (hp : p ≠ .downQueued)
    (ha : (s.pc t).isDownSwitch = p.isDownSwitch) (hr : (s.pc t).isDownReady = p.isDownReady)
    (hw : (s.pc t).isUpWake = p.isUpWake) : Inv c (s.goto t p) := by
  obtain ⟨a, r, w, hsums⟩ := h.sums
  refine h.stay ht hp rfl rfl ⟨a, r, w, ?_, hsums.blocked, hsums.permits⟩
  exact hsums.tallies.update t p (by rw [ha]) (by rw [hr]) (by rw [hw])

theorem Inv.look {count : Long}
    (hpc : s.pc t = .tryLoad ∨ ∃ x, s.pc t = .tryCas x) : Inv c (s.look t count) := by
  have ht : s.pc t ≠ .downQueued ∧ (s.pc t).isDownSwitch = false ∧
      (s.pc t).isDownReady = false ∧ (s.pc t).isUpWake = false := by
    rcases hpc with hpc | ⟨x, hpc⟩ <;> rw [hpc] <;> exact ⟨by simp, rfl, rfl, rfl⟩
  obtain ⟨ht, ha, hr, hw⟩ := ht
  rw [State.look]
  split
  · have h1 := h.goto ht (p := .idle) (by simp) ha hr hw
    exact ⟨h1.sums.imp fun a => .imp fun r => .imp fun w hs => { hs with },
      h1.nodup, h1.waiter⟩
  · exact h.goto ht (by simp) ha hr hw

/-- A permit is taken from the counter. -/
theorem Inv.took (hpc : s.pc t = .downSub ∨ ∃ x, s.pc t = .tryCas x)
    (hpos : 0 < s.count.toInt) : Inv c ({ s with count := s.count - 1 }.took t) := by
  have ht : s.pc t ≠ .downQueued ∧ (s.pc t).isDownSwitch = false ∧
      (s.pc t).isDownReady = false ∧ (s.pc t).isUpWake = false := by
    rcases hpc with hpc | ⟨x, hpc⟩ <;> rw [hpc] <;> exact ⟨by simp, rfl, rfl, rfl⟩
  obtain ⟨ht, ha, hr, hw⟩ := ht
  obtain ⟨a, r, w, hsums⟩ := h.sums
  have hcount : (s.count - 1).toInt = s.count.toInt - 1 := by
    refine toInt_sub_one (by decide) fun hmin => ?_
    rw [hmin] at hpos
    revert hpos
    decide
  have hb := hsums.blocked
  have hp := hsums.permits
  refine h.stay ht (by simp) rfl rfl ⟨a, r, w, ?_, ?_, ?_⟩
  · exact hsums.tallies.update t .idle (by rw [ha]; rfl) (by rw [hr]; rfl) (by rw [hw]; rfl)
  · simp only [State.took, State.goto, hcount]
    omega
  · simp only [State.took, State.goto, hcount]
    omega

/-- `down` finds no permit. -/
theorem Inv.downSub (hpc : s.pc t = .downSub) (hnone : s.count.toInt ≤ 0)
    (hroom : s.count ≠ BitVec.intMin 64) :
    Inv c ({ s with count := s.count - 1 }.goto t .downSwitch) := by
  obtain ⟨a, r, w, hsums⟩ := h.sums
  have hb := hsums.blocked
  have hp := hsums.permits
  refine h.stay (by simp [hpc]) (by simp) rfl rfl ⟨a + 1, r, w, ?_, ?_, ?_⟩
  · exact hsums.tallies.update t .downSwitch (by rw [hpc]; rfl) (by rw [hpc]; rfl) (by rw [hpc]; rfl)
  · simp only [State.goto, toInt_sub_one (by decide) hroom]
    omega
  · simp only [State.goto, toInt_sub_one (by decide) hroom]
    omega

/-- The callback of a thread that found no permit. -/
theorem Inv.downSwitch (hpc : s.pc t = .downSwitch) :
    Inv c ({ s with block := (s.block.block t).1 }.goto t
      (if (s.block.block t).2 then .downQueued else .downReady)) := by
  obtain ⟨a, r, w, hsums⟩ := h.sums
  have hb := hsums.blocked
  have hp := hsums.permits
  have hpos := hsums.tallies.switching.pos (by rw [hpc]; rfl)
  have hfree : t ∉ s.block.waiters := by simp [h.waiter, hpc]
  rcases s.block.block_cases t with ⟨hpend, hres, hwait, hpend'⟩ | ⟨hpend, hres, hnil, hwait, hpend'⟩
  · rw [hres, if_pos rfl]
    constructor
    case sums =>
      refine ⟨a - 1, r, w, ?_, ?_, ?_⟩
      · refine hsums.tallies.update t .downQueued ?_ (by rw [hpc]; rfl) (by rw [hpc]; rfl)
        simp only [hpc, Pc.isDownSwitch, Bool.toNat_true, Bool.toNat_false]
        omega
      · simp only [State.goto, hwait, hpend', length_append, length_singleton]
        omega
      · simp only [State.goto, hpend']
        omega
    case nodup =>
      simp only [State.goto, hwait]
      exact nodup_append_comm.mp (nodup_cons.mpr ⟨hfree, h.nodup⟩)
    case waiter =>
      intro u
      simp only [State.goto, hwait, mem_append, mem_singleton, h.waiter]
      by_cases hu : u = t <;> simp [hu]
  · rw [hres, if_neg Bool.false_ne_true]
    constructor
    case sums =>
      refine ⟨a - 1, r + 1, w, ?_, ?_, ?_⟩
      · refine hsums.tallies.update t .downReady ?_ (by rw [hpc]; rfl) (by rw [hpc]; rfl)
        simp only [hpc, Pc.isDownSwitch, Bool.toNat_true, Bool.toNat_false]
        omega
      · simp only [State.goto, hwait]
        simp only [hnil] at hb
        omega
      · simp only [State.goto]
        omega
    case nodup => simp [State.goto, hwait]
    case waiter =>
      intro u
      have := h.waiter u
      simp only [hnil, not_mem_nil, false_iff] at this
      by_cases hu : u = t <;> simp [State.goto, hwait, hu, this]

/-- A woken thread returns from `down`. -/
theorem Inv.downReady (hpc : s.pc t = .downReady) : Inv c (s.took t) := by
  obtain ⟨a, r, w, hsums⟩ := h.sums
  have hp := hsums.permits
  have hpos := hsums.tallies.ready.pos (by rw [hpc]; rfl)
  refine h.stay (by simp [hpc]) (by simp) rfl rfl ⟨a, r - 1, w, ?_, hsums.blocked, ?_⟩
  · refine hsums.tallies.update t .idle (by rw [hpc]; rfl) ?_ (by rw [hpc]; rfl)
    simp only [hpc, Pc.isDownReady, Bool.toNat_true, Bool.toNat_false]
    omega
  · simp only [State.took, State.goto]
    omega

theorem Inv.upAdd (hpc : s.pc t = .upAdd) (hroom : s.count ≠ BitVec.intMax 64) :
    Inv c { s.goto t (if s.count.slt 0 then .upWake else .idle) with
      count := s.count + 1, ups := s.ups + 1 } := by
  obtain ⟨a, r, w, hsums⟩ := h.sums
  have hb := hsums.blocked
  have hp := hsums.permits
  by_cases hneg : s.count.toInt < 0
  · rw [if_pos ((slt_zero _).mpr hneg)]
    refine h.stay (by simp [hpc]) (by simp) rfl rfl ⟨a, r, w + 1, ?_, ?_, ?_⟩
    · exact hsums.tallies.update t .upWake (by rw [hpc]; rfl) (by rw [hpc]; rfl) (by rw [hpc]; rfl)
    · simp only [State.goto, toInt_add_one (by decide) hroom]
      push_cast
      omega
    · simp only [State.goto, toInt_add_one (by decide) hroom]
      push_cast
      omega
  · rw [if_neg (by rwa [slt_zero])]
    refine h.stay (by simp [hpc]) (by simp) rfl rfl ⟨a, r, w, ?_, ?_, ?_⟩
    · exact hsums.tallies.update t .idle (by rw [hpc]; rfl) (by rw [hpc]; rfl) (by rw [hpc]; rfl)
    · simp only [State.goto, toInt_add_one (by decide) hroom]
      omega
    · simp only [State.goto, toInt_add_one (by decide) hroom]
      omega

theorem Inv.upWake (hpc : s.pc t = .upWake) (hs : go s t false = some s') : Inv c s' := by
  obtain ⟨a, r, w, hsums⟩ := h.sums
  have hb := hsums.blocked
  have hp := hsums.permits
  have hpos := hsums.tallies.waking.pos (by rw [hpc]; rfl)
  have htallies : Tallies (update s.pc t .idle) a r (w - 1) := by
    refine hsums.tallies.update t .idle (by rw [hpc]; rfl) (by rw [hpc]; rfl) ?_
    simp only [hpc, Pc.isUpWake, Bool.toNat_true, Bool.toNat_false]
    omega
  rcases s.block.wake_cases with ⟨hnil, hres, hwait, hpend⟩ | ⟨u, us, hcons, hres, hwait, hpend, hpend0⟩
  · -- the wake is banked
    simp only [go, hpc, hres, some.injEq] at hs
    subst hs
    constructor
    case sums =>
      refine ⟨a, r, w - 1, htallies, ?_, ?_⟩
      · simp only [State.goto, hwait, hpend]
        simp only [hnil] at hb
        omega
      · simp only [State.goto, hpend]
        omega
    case nodup => simp [State.goto, hwait]
    case waiter =>
      intro v
      have := h.waiter v
      simp only [hnil, not_mem_nil, false_iff] at this
      by_cases hv : v = t <;> simp [State.goto, hwait, hv, this]
  · -- the oldest waiter is released
    simp only [go, hpc, hres, some.injEq] at hs
    subst hs
    have hu : s.pc u = .downQueued := (h.waiter u).mp (by simp [hcons])
    have hut : u ≠ t := by
      rintro rfl
      simp [hpc] at hu
    have hnodup := h.nodup
    rw [hcons, nodup_cons] at hnodup
    constructor
    case sums =>
      refine ⟨a, r + 1, w - 1, ?_, ?_, ?_⟩
      · refine htallies.update u .downReady ?_ ?_ ?_ <;> simp only [update_of_ne hut, hu] <;>
          rfl
      · simp only [State.goto, hwait, hpend]
        simp only [hcons, hpend0, length_cons] at hb
        omega
      · simp only [State.goto, hpend]
        omega
    case nodup => simpa only [State.goto, hwait] using hnodup.2
    case waiter =>
      intro v
      have hv := h.waiter v
      rw [hcons, mem_cons] at hv
      simp only [State.goto, hwait]
      by_cases hvu : v = u
      · subst hvu
        simp [hnodup.1]
      · simp only [hvu, false_or] at hv
        by_cases hvt : v = t
        · subst hvt
          simp [hvu, hv, hpc]
        · simp [hvu, hvt, hv]

end

/-- A `trydown` is at its compare-exchange only with a count it has seen to be positive. -/
def CasPos (s : State T) : Prop := ∀ t x, s.pc t = .tryCas x → 0 < x.toInt

theorem CasPos.goto (h : CasPos s) {p : Pc} (hp : ∀ x, p = .tryCas x → 0 < x.toInt)
    (hpc : s'.pc = update s.pc t p) : CasPos s' := by
  intro u x hu
  rw [hpc] at hu
  by_cases hut : u = t
  · subst hut
    exact hp x (by simpa using hu)
  · exact h u x (by simpa [hut] using hu)

theorem CasPos.look (h : CasPos s) (count : Long) : CasPos (s.look t count) := by
  rw [State.look]
  split
  · exact h.goto (by simp) rfl
  · next hpos =>
    rw [sle_zero, not_le] at hpos
    refine h.goto (fun x hx => ?_) rfl
    cases hx
    exact hpos

theorem CasPos.step {a : Act T} (h : CasPos s) (hs : step s a = some s') : CasPos s' := by
  cases a with
  | call t op =>
    obtain ⟨-, ⟨⟩⟩ := ite_none_right_eq_some.mp hs
    exact h.goto (by cases op <;> simp [start]) rfl
  | go t fail =>
    simp only [Semaphore.step, go] at hs
    split at hs
    case h_1 => cases hs
    case h_2 =>
      split at hs <;> cases hs
      · exact h.goto (by simp) rfl
      · exact h.goto (by simp) rfl
    case h_3 =>
      cases hs
      exact h.goto (by split <;> simp) rfl
    case h_4 => cases hs
    case h_5 =>
      cases hs
      exact h.goto (by simp) rfl
    case h_6 =>
      cases hs
      exact h.look _
    case h_7 =>
      split at hs <;> cases hs
      · exact h.goto (by simp) rfl
      · exact h.look _
    case h_8 =>
      cases hs
      exact h.goto (by split <;> simp) rfl
    case h_9 =>
      have hidle : CasPos ({ s with block := s.block.wake.1 }.goto t .idle) :=
        h.goto (by simp) rfl
      split at hs <;> cases hs
      · exact hidle
      · exact hidle.goto (by simp) rfl

theorem Inv.step {a : Act T} (h : Inv c s) (hcas : CasPos s) (hok : roomy s a) (hs : step s a = some s') :
    Inv c s' := by
  cases a with
  | call t op =>
    obtain ⟨hpc, ⟨⟩⟩ := ite_none_right_eq_some.mp hs
    cases op <;> exact h.goto (by simp [hpc]) (by simp [start]) (by rw [hpc]; rfl)
      (by rw [hpc]; rfl) (by rw [hpc]; rfl)
  | go t fail =>
    simp only [roomy, roomyB] at hok
    cases hpc : s.pc t with
    | idle | downQueued => simp [Semaphore.step, go, hpc] at hs
    | downSub =>
      simp only [hpc, bne_iff_ne] at hok
      simp only [Semaphore.step, go, hpc, sle_zero] at hs
      split at hs
      · next hnone =>
        cases hs
        exact h.downSub hpc hnone hok
      · next hsome =>
        cases hs
        exact h.took (.inl hpc) (not_le.mp hsome)
    | downSwitch =>
      simp only [Semaphore.step, go, hpc, some.injEq] at hs
      subst hs
      exact h.downSwitch hpc
    | downReady =>
      simp only [Semaphore.step, go, hpc, some.injEq] at hs
      subst hs
      exact h.downReady hpc
    | tryLoad =>
      simp only [Semaphore.step, go, hpc, some.injEq] at hs
      subst hs
      exact h.look (.inl hpc)
    | tryCas count =>
      simp only [Semaphore.step, go, hpc] at hs
      split at hs
      · next hc =>
        cases hs
        have hpos := hcas t count hpc
        rw [← hc.1] at hpos ⊢
        have h1 := h.took (.inr ⟨count, hpc⟩) hpos
        exact ⟨h1.sums.imp fun a => .imp fun r => .imp fun w hs =>
          { hs with }, h1.nodup, h1.waiter⟩
      · cases hs
        exact h.look (.inr ⟨count, hpc⟩)
    | upAdd =>
      simp only [hpc, bne_iff_ne] at hok
      simp only [Semaphore.step, go, hpc, some.injEq] at hs
      subst hs
      exact h.upAdd hpc hok
    | upWake => exact h.upWake hpc (by simpa [Semaphore.step, go, hpc] using hs)

omit [DecidableEq T] in
/-- The completed calls are no more than the permits. -/
theorem Inv.downs_le (h : Inv c s) : (s.downs : Int) ≤ c + s.ups := by
  obtain ⟨a, r, w, hsums⟩ := h.sums
  have := hsums.permits
  omega

omit [DecidableEq T] in
/-- When no call is mid-way, somebody is blocked only if all permits are gone. -/
theorem Inv.downs_eq (h : Inv c s) (hquiet : Quiet s) (hpc : s.pc t = .downQueued) :
    (s.downs : Int) = c + s.ups := by
  obtain ⟨a, r, w, hsums⟩ := h.sums
  have hat : ∀ p : Pc → Bool, p .idle = false → p .downQueued = false → ∀ u, p (s.pc u) = false := by
    intro p hidle hqueued u
    rcases hquiet u with hu | hu
    · rwa [hu]
    · rwa [hu]
  have hr : r = 0 := hsums.tallies.ready.eq_zero (hat _ rfl rfl)
  have hw : w = 0 := hsums.tallies.waking.eq_zero (hat _ rfl rfl)
  have hmem : t ∈ s.block.waiters := (h.waiter t).mpr hpc
  have hpend : s.block.pending = 0 := BlockQueue.pending_eq_zero (ne_nil_of_mem hmem)
  have hlen : 0 < s.block.waiters.length := length_pos_of_mem hmem
  have hb := hsums.blocked
  have hp := hsums.permits
  omega

/-- The completed `down` and successful `trydown` calls are at most `c` plus the calls of `up`,
and when no call is mid-way a thread is blocked only if they are as many. -/
theorem semaphore_safe {n : Long} (hn : 0 ≤ n.toInt) (h : Reach step roomy (Init n) s) :
    (s.downs : Int) ≤ n.toInt + s.ups ∧
      (Quiet s → ∀ t, s.pc t = .downQueued → (s.downs : Int) = n.toInt + s.ups) := by
  have hinv : Inv n.toInt s ∧ CasPos s := by
    refine h.inv (I := fun s => Inv n.toInt s ∧ CasPos s) (fun s h0 => ⟨h0.inv hn, ?_⟩) ?_
    · intro t x hx
      simp [h0.pc t] at hx
    · intro s a s' hi hok hs
      exact ⟨hi.1.step hi.2 hok hs, hi.2.step hs⟩
  exact ⟨hinv.1.downs_le, fun hquiet t hpc => hinv.1.downs_eq hquiet hpc⟩

end

/-- A semaphore with `c` permits that nobody uses. -/
def fresh (c : Long) : State Bool where
  count := c
  block := .empty
  pc := fun _ => .idle
  ret := fun _ => 0
  downs := 0
  ups := 0

theorem fresh_init (c : Long) : Init c (fresh c) :=
  ⟨rfl, rfl, fun _ => rfl, rfl, rfl⟩

/-- One permit, and two threads that take one each: the second one blocks. -/
theorem semaphore_safe_contended : ∃ s : State Bool, Reach step roomy (Init 1) s ∧
    s.pc false = .downQueued ∧ s.ups = 0 ∧ (s.downs : Int) = (1 : Long).toInt + s.ups := by
  obtain ⟨s, hreach, hquiet, hpc, hups⟩ := run_finds (step) roomy (Init 1)
    (fun s => (∀ t, s.pc t = .idle ∨ s.pc t = .downQueued) ∧ s.pc false = .downQueued ∧
      s.ups = 0)
    [.call true .down, .call false .down, .go true false, .go false false, .go false false]
    (fresh_init 1) (by decide) (by decide)
  exact ⟨s, hreach, hpc, hups, (semaphore_safe (by decide) hreach).2 hquiet false hpc⟩

/-- With `2^63 - 1` permits an `up` wraps the counter around: the next `down` blocks, and no
permit has been taken. -/
theorem count_wraps : ∃ s : State Bool, Reach step Trans.any (Init (BitVec.intMax 64)) s ∧
    0 ≤ (BitVec.intMax 64).toInt ∧ Quiet s ∧ s.pc true = .downQueued ∧ s.downs = 0 ∧ s.ups = 1 := by
  obtain ⟨s, hreach, hquiet, hpc, hdowns, hups⟩ := any_finds (step) (Init (BitVec.intMax 64))
    (fun s => (∀ t, s.pc t = .idle ∨ s.pc t = .downQueued) ∧ s.pc true = .downQueued ∧
      s.downs = 0 ∧ s.ups = 1)
    [.call true .up, .go true false, .call true .down, .go true false, .go true false]
    (fresh_init _) (by decide)
  exact ⟨s, hreach, by decide, hquiet, hpc, hdowns, hups⟩

end Librettos.Semaphore
