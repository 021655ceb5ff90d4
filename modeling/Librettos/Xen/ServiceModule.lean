/-
# `Xen.ServiceModule` — the event channels of the kernel module

`rumprun_service.c` binds an event channel for a domain (`BIND`) and later notifies it (`SWITCH`).
The irqs are kept in a table of sixteen entries that is filled from the front and searched from
the front, and cleared as a whole (`CLEANUP`).  So a second `BIND` of a domain is not found.  What
`bind_interdomain_evtchn_to_irq` returns goes into the table also when it is an error, and a `BIND` that
finds the table full returns the irq all the same.

A free entry is one with domain -1.  A `BIND` of that domain (the argument is unsigned) leaves its
entry free, and the next one takes it.

**Proved here.**  When all calls of a sequence do what they have to (`service_iff`).
-/
import Librettos.Lib.Trans

namespace Librettos.ServiceModule

open List Option Trans

/-- `RUMPRUN_NUM_OF_APPS` -/
def numOfApps : ℕ := 16

/-- A domain, as it is compared. -/
abbrev Domid := BitVec 32

/-- The domain -1 of a free entry. -/
def noDomid : Domid := -1

/-- `struct evtchn` -/
structure Evtchn where
  domid : Domid
  port : Int
  deriving DecidableEq, Repr

/-- `init_evtchn_table` -/
def initEvtchnTable : List Evtchn := List.replicate numOfApps ⟨noDomid, -1⟩

def setEvtchn (domid : Domid) (port : Int) : List Evtchn → Option (List Evtchn)
  | [] => none
  | e :: es => if e.domid = noDomid then some (⟨domid, port⟩ :: es) else (setEvtchn domid port es).map (e :: ·)

def getEvtchn (domid : Domid) : List Evtchn → Int
  | [] => -1
  | e :: es => if e.domid = domid then e.port else getEvtchn domid es

/-- The calls, with what `copy_from_user` copies, if it does, and what the hypercall and
`bind_interdomain_evtchn_to_irq` return. -/
inductive Ioctl
  | cleanup (rc : Int)
  | bind (args : Option (Domid × BitVec 32)) (rc : Int)
  | switch (args : Option (Domid × BitVec 32))
  deriving DecidableEq, Repr

/-- `-EFAULT` -/
def efault : Int := -14

/-- The table after a call and whether it was written, what the call returns, and the irq that it
notifies. -/
structure Outcome where
  table : List Evtchn
  written : Bool
  ret : Int
  notified : Option Int
  deriving DecidableEq, Repr

def rumprunServiceIoctl (table : List Evtchn) : Ioctl → Outcome
  | .cleanup rc => ⟨initEvtchnTable, true, rc, none⟩
  | .bind none _ | .switch none => ⟨table, false, efault, none⟩
  | .bind (some (dom, _)) rc =>
    match setEvtchn dom rc table with
    | some table' => ⟨table', true, rc, none⟩
    | none => ⟨table, false, rc, none⟩
  | .switch (some (dom, _)) =>
    let localPort := getEvtchn dom table
    if localPort < 0 then ⟨table, false, -1, none⟩ else ⟨table, false, 0, some localPort⟩

/-! ## What the calls have to do -/

/-- The table, and the successful `BIND`s since the last `CLEANUP`, the latest first. -/
structure State where
  table : List Evtchn
  binds : List Evtchn
  deriving DecidableEq, Repr

def start : State := ⟨initEvtchnTable, []⟩

/-- A `BIND` has succeeded if there is an irq and an entry for it. -/
def step (s : State) (call : Ioctl) : Option State :=
  let out := rumprunServiceIoctl s.table call
  match call with
  | .cleanup _ => some ⟨out.table, []⟩
  | .bind (some (dom, _)) rc =>
    some ⟨out.table, if 0 ≤ rc ∧ out.written then ⟨dom, rc⟩ :: s.binds else s.binds⟩
  | .bind none _ | .switch _ => some ⟨out.table, s.binds⟩

/-- The irq of the most recent `BIND` of a domain. -/
def latest (binds : List Evtchn) (dom : Domid) : Option Int :=
  (binds.find? (·.domid = dom)).map Evtchn.port

def Meets (s : State) (call : Ioctl) : Prop :=
  let out := rumprunServiceIoctl s.table call
  match call with
  | .cleanup _ | .bind none _ | .switch none => True
  | .bind (some (dom, _)) rc =>
    rc < 0 ∨ setEvtchn dom rc s.table = none → out.ret < 0 ∧ out.written = false
  | .switch (some (dom, _)) =>
    out.notified = latest s.binds dom ∧ (latest s.binds dom = none → out.ret < 0)

/-- The entries that are taken: those of all domains but -1. -/
def taken (binds : List Evtchn) : List Evtchn := binds.reverse.filter (·.domid ≠ noDomid)

/-- What the table has for a domain: the first irq.  For the domain -1 it is the last one, if no
other domain was bound after it. -/
def earliest (binds : List Evtchn) (dom : Domid) : Option Int :=
  if dom = noDomid then (binds.head?.filter (·.domid = noDomid)).map Evtchn.port
  else (binds.reverse.find? (·.domid = dom)).map Evtchn.port

/-- A `BIND` gets an irq exactly if there is an entry left for it, and a `SWITCH` is for a domain
of which the first irq is also the last. -/
def Plain (s : State) : Ioctl → Prop
  | .cleanup _ | .bind none _ | .switch none => True
  | .bind (some _) rc => 0 ≤ rc ↔ (taken s.binds).length < numOfApps
  | .switch (some (dom, _)) => earliest s.binds dom = latest s.binds dom

instance (s : State) : ∀ call, Decidable (Plain s call)
  | .cleanup _ | .bind none _ | .switch none => isTrue trivial
  | .bind (some _) rc => inferInstanceAs (Decidable (0 ≤ rc ↔ (taken s.binds).length < numOfApps))
  | .switch (some (dom, _)) => inferInstanceAs (Decidable (earliest s.binds dom = latest s.binds dom))

/-! ## The table -/

/-- What follows the entries that are taken: the first one may still have the irq of a `BIND` of the
domain -1. -/
def spare (binds : List Evtchn) : ℕ → List Evtchn
  | 0 => []
  | k + 1 => ⟨noDomid, (earliest binds noDomid).getD (-1)⟩ :: List.replicate k ⟨noDomid, -1⟩

structure Inv (s : State) : Prop where
  table : s.table = taken s.binds ++ spare s.binds (numOfApps - (taken s.binds).length)
  irq : ∀ e ∈ s.binds, 0 ≤ e.port
  room : (taken s.binds).length ≤ numOfApps
  anon : (earliest s.binds noDomid).isSome → (taken s.binds).length < numOfApps

theorem setEvtchn_append {dom : Domid} {port : Int} {es fs : List Evtchn}
    (h : ∀ e ∈ es, e.domid ≠ noDomid) :
    setEvtchn dom port (es ++ fs) = (setEvtchn dom port fs).map (es ++ ·) := by
  induction es with
  | nil => simp
  | cons e es ih =>
    rw [cons_append, setEvtchn, if_neg (h e mem_cons_self),
      ih fun e' he => h e' (mem_cons_of_mem _ he), Option.map_map]
    rfl

theorem getEvtchn_append {dom : Domid} {es fs : List Evtchn} :
    getEvtchn dom (es ++ fs)
      = ((es.find? (·.domid = dom)).map Evtchn.port).getD (getEvtchn dom fs) := by
  induction es with
  | nil => rfl
  | cons e es ih =>
    rw [cons_append, getEvtchn]
    by_cases he : e.domid = dom
    · simp [he]
    · rw [if_neg he, ih]
      simp [he]

theorem ne_of_mem_taken {binds : List Evtchn} : ∀ e ∈ taken binds, e.domid ≠ noDomid := by
  intro e he
  simpa [taken] using (mem_filter.mp he).2

theorem taken_find {binds : List Evtchn} {dom : Domid} (hd : dom ≠ noDomid) :
    (taken binds).find? (·.domid = dom) = binds.reverse.find? (·.domid = dom) := by
  rw [taken, find?_filter]
  congr 1
  funext e
  by_cases he : e.domid = dom
  · simp [he, hd]
  · simp [he]

section
variable {s s' : State} {dom : Domid} {rc : Int}

/-- A `BIND` takes the first entry that is free. -/
theorem Inv.set (h : Inv s) (dom : Domid) (rc : Int) :
    setEvtchn dom rc s.table =
      if (taken s.binds).length < numOfApps then
        some (taken s.binds ++
          ⟨dom, rc⟩ :: replicate (numOfApps - (taken s.binds).length - 1) ⟨noDomid, -1⟩)
      else none := by
  rw [h.table, setEvtchn_append ne_of_mem_taken]
  split
  next hlt =>
    obtain ⟨k, hk⟩ : ∃ k, numOfApps - (taken s.binds).length = k + 1 :=
      ⟨numOfApps - (taken s.binds).length - 1, by omega⟩
    rw [hk, spare, setEvtchn, if_pos rfl]
    rfl
  next hge =>
    rw [Nat.sub_eq_zero_of_le (not_lt.mp hge)]
    rfl

theorem Inv.irq_earliest (h : Inv s) {p : Int} (hp : earliest s.binds dom = some p) : 0 ≤ p := by
  unfold earliest at hp
  split at hp
  · obtain ⟨e, he, rfl⟩ := map_eq_some_iff.mp hp
    exact h.irq e (mem_of_mem_head? (filter_eq_some_iff.mp he).1)
  · obtain ⟨e, he, rfl⟩ := map_eq_some_iff.mp hp
    exact h.irq e (mem_reverse.mp (mem_of_find?_eq_some he))

theorem Inv.get (h : Inv s) (dom : Domid) :
    getEvtchn dom s.table = (earliest s.binds dom).getD (-1) := by
  have hfree : dom ≠ noDomid → ∀ k, getEvtchn dom (replicate k ⟨noDomid, -1⟩) = -1 := by
    intro hd k
    induction k with
    | zero => rfl
    | succ k ih => rw [replicate_succ, getEvtchn, if_neg (Ne.symm hd), ih]
  rw [h.table, getEvtchn_append]
  by_cases hd : dom = noDomid
  · subst hd
    have hnone : (taken s.binds).find? (·.domid = noDomid) = none :=
      find?_eq_none.mpr fun e he => by simpa using ne_of_mem_taken e he
    rw [hnone, map_none, getD_none]
    cases hk : numOfApps - (taken s.binds).length with
    | zero =>
      have hanon : earliest s.binds noDomid = none := by
        rw [← not_isSome_iff_eq_none]
        intro hsome
        have := h.anon hsome
        omega
      rw [hanon]
      rfl
    | succ k => rw [spare, getEvtchn, if_pos rfl]
  · rw [taken_find hd, earliest, if_neg hd]
    congr 1
    cases numOfApps - (taken s.binds).length with
    | zero => rfl
    | succ k => rw [spare, getEvtchn, if_neg (Ne.symm hd), hfree hd]

theorem meets_iff (h : Inv s) (call : Ioctl) : Meets s call ↔ Plain s call := by
  match call with
  | .cleanup _ | .bind none _ | .switch none => exact Iff.rfl
  | .bind (some (dom, _)) rc =>
    simp only [Meets, Plain, rumprunServiceIoctl, h.set dom rc]
    by_cases hlt : (taken s.binds).length < numOfApps
    · simp [hlt]
    · simp [hlt]
  | .switch (some (dom, _)) =>
    simp only [Meets, Plain, rumprunServiceIoctl, h.get dom]
    cases he : earliest s.binds dom with
    | none => simp
    | some p =>
      have hp : ¬ p < 0 := not_lt.mpr (h.irq_earliest he)
      simp only [getD_some, hp, if_false]
      exact and_iff_left_of_imp fun hl hn => by simp [hn] at hl

/-- A successful `BIND` keeps the table in order. -/
theorem Inv.bind (h : Inv s) (hrc : 0 ≤ rc) (hlt : (taken s.binds).length < numOfApps) :
    Inv ⟨taken s.binds ++ ⟨dom, rc⟩ :: replicate (numOfApps - (taken s.binds).length - 1) ⟨noDomid, -1⟩,
      ⟨dom, rc⟩ :: s.binds⟩ := by
  have hirq : ∀ e ∈ (⟨dom, rc⟩ : Evtchn) :: s.binds, 0 ≤ e.port := by
    intro e he
    rcases mem_cons.mp he with rfl | he
    · exact hrc
    · exact h.irq e he
  obtain ⟨k, hk⟩ : ∃ k, numOfApps - (taken s.binds).length = k + 1 :=
    ⟨numOfApps - (taken s.binds).length - 1, by omega⟩
  by_cases hd : dom = noDomid
  · subst hd
    have htaken : taken (⟨noDomid, rc⟩ :: s.binds) = taken s.binds := by
      simp [taken]
    refine ⟨?_, hirq, ?_, fun _ => ?_⟩
    · simp only [htaken, hk, spare, earliest, if_true, head?_cons]
      rfl
    · rw [htaken]
      exact h.room
    · rw [htaken]
      exact hlt
  · have htaken : taken (⟨dom, rc⟩ :: s.binds) = taken s.binds ++ [⟨dom, rc⟩] := by
      simp [taken, hd]
    have hnone : earliest (⟨dom, rc⟩ :: s.binds) noDomid = none := by
      simp [earliest, hd]
    refine ⟨?_, hirq, ?_, fun hsome => ?_⟩
    · simp only [htaken, append_assoc, singleton_append, length_append, length_singleton]
      rw [← Nat.sub_sub, hk, Nat.add_sub_cancel]
      cases k with
      | zero => rfl
      | succ k =>
        rw [spare, hnone]
        rfl
    · rw [htaken, length_append, length_singleton]
      exact hlt
    · rw [hnone] at hsome
      exact absurd hsome (by simp)

theorem inv_init (binds : List Evtchn) (hb : binds = []) : Inv ⟨initEvtchnTable, binds⟩ := by
  subst hb
  exact ⟨rfl, by simp, by decide, by decide⟩

theorem Inv.step {call : Ioctl} (h : Inv s) (hmeets : Meets s call) (hs : step s call = some s') :
    Inv s' := by
  have hplain := (meets_iff h call).mp hmeets
  match call with
  | .cleanup _ =>
    cases hs
    exact inv_init [] rfl
  | .bind none _ | .switch none =>
    cases hs
    exact h
  | .switch (some (dom, port)) =>
    have hout : (rumprunServiceIoctl s.table (.switch (some (dom, port)))).table = s.table := by
      simp only [rumprunServiceIoctl]
      split <;> rfl
    simp only [ServiceModule.step, hout, some.injEq] at hs
    exact hs ▸ h
  | .bind (some (dom, port)) rc =>
    have hset := h.set dom rc
    split at hset
    next hlt =>
      simp only [ServiceModule.step, rumprunServiceIoctl, hset, hplain.mpr hlt, and_self, if_true,
        some.injEq] at hs
      exact hs ▸ h.bind (hplain.mpr hlt) hlt
    next hge =>
      simp only [ServiceModule.step, rumprunServiceIoctl, hset, Bool.false_eq_true, and_false,
        if_false, some.injEq] at hs
      exact hs ▸ h

end

/-- **When the calls do what they have to.** -/
theorem service_iff (calls : List Ioctl) :
    okRun step Meets start calls ↔ okRun step Plain start calls :=
  okRun_iff (fun _ call h => meets_iff h call) (fun _ _ _ h hmeets hs => h.step hmeets hs) calls
    start (inv_init [] rfl)

/-- A domain is bound to irq 5 and then to irq 7: irq 5 is notified. -/
theorem switch_notifies_first :
    (Trans.exec step start [.bind (some (1, 2)) 5, .bind (some (1, 3)) 7]).map
        (fun s => (latest s.binds 1, (rumprunServiceIoctl s.table (.switch (some (1, 0)))).notified))
      = some (some 7, some 5) ∧
      ¬ okRun step Meets start
        [.bind (some (1, 2)) 5, .bind (some (1, 3)) 7, .switch (some (1, 0))] := by
  refine ⟨by decide, ?_⟩
  intro h
  have hswitch := ((h.2 _ rfl).2 _ rfl).1
  exact absurd hswitch.1 (by decide)

end Librettos.ServiceModule
