/-
# `Core.JoinInv` — the invariant of joining and reaping

Every step of the program changes the face of one thread at most, and the scene by one
or two moves.  `Inv` has the pairs of all joinable threads and a sound scene, with what
ties the two together: the callbacks fit the control points, and whoever is at the join
of a thread is its joiner.

The steps of a joiner go through `Inv.joiner_step`, those of a thread in its own exit
through `Inv.exit_step`.
-/
import Librettos.Core.JoinScene
import Librettos.Core.JoinPair

namespace Librettos.Join

open Function (update update_eq_iff update_eq_self update_idem update_of_ne update_self)
open Function Places Rendezvous State

/-! ## The invariant -/

/-- How a waiter in `join_wait` stands in its scene. -/
def Pos.ofWaiter : Waiter → Pos
  | .before | .slow | .through => .busy
  | .leaving | .due => .leaving
  | .asleep => .asleep
  | .woken => .woken

section
variable {P T : Type}

def State.pos (s : State P T) (t : T) : Pos :=
  match s.pc t with
  | .run => .run
  | .join u => .ofWaiter (s.join u).waiter
  | .wait => .ofWaiter (s.exit t).waiter
  | .post _ | .exit | .bye => .busy
  | .dead => .dead

def State.scene (s : State P T) : Scene P T where
  freeq := s.freeq
  zombieq := s.zombieq
  runq := s.runq
  cur := s.cur
  leaving := Option.map Cb.thread ∘ s.cb
  hand := Option.map Hand.thread ∘ s.hand
  pos := s.pos

/-- A callback and the control point of the thread it is for. -/
def State.Fits (s : State P T) : Cb T → Prop
  | .yield t => s.pc t = .run
  | .join t u => s.pc t = .join u
  | .wait t => s.pc t = .wait
  | .exit t => s.pc t = .dead

theorem pos_congr {s s' : State P T} {j : T} (hpc : s'.pc j = s.pc j)
    (hjoin : ∀ u, s.pc j = .join u → (s'.join u).waiter = (s.join u).waiter)
    (hexit : s.pc j = .wait → (s'.exit j).waiter = (s.exit j).waiter) : s'.pos j = s.pos j := by
  unfold pos
  rw [hpc]
  cases hj : s.pc j with
  | join u => simp [hjoin u hj]
  | wait => simp [hexit hj]
  | _ => rfl

theorem State.Fits.congr {s s' : State P T} {c : Cb T} (h : s.Fits c)
    (hpc : s'.pc c.thread = s.pc c.thread) : s'.Fits c := by
  cases c <;> exact hpc.trans h

variable [DecidableEq T]

def State.side (s : State P T) (u : T) : Side :=
  match s.joiner u with
  | none => .none
  | some j => (s.pc j).side u

def State.face (s : State P T) (u : T) : Face T where
  who := (s.joiner u).getD u
  join := s.join u
  exit := s.exit u
  own := (s.pc u).own
  side := s.side u
  returned := s.returned u

theorem joiner_at {s : State P T} {u : T} (hn : s.side u ≠ .none) (hg : s.side u ≠ .gone) :
    ∃ j, s.joiner u = some j ∧ (s.side u = .joining → s.pc j = .join u) ∧
      (s.side u = .posting → s.pc j = .post u) := by
  cases hj : s.joiner u with
  | none => simp [side, hj] at hn
  | some j =>
    refine ⟨j, rfl, ?_⟩
    simp only [side, hj] at hg ⊢
    cases hpc : s.pc j with
    | join v | post v =>
      by_cases hv : v = u
      · simp [Pc.side, hv]
      · simp [hpc, Pc.side, hv] at hg
    | _ => simp [hpc, Pc.side] at hg

structure Inv (s : State P T) : Prop where
  scene : s.scene.Sound
  fits : ∀ p c, s.cb p = some c → s.Fits c
  back : ∀ t u, s.pc t = .join u ∨ s.pc t = .post u → s.joinable u = true ∧ s.joiner u = some t
  pairs : ∀ u, s.joinable u = true → Pair u (s.face u)
  plain : ∀ t, s.joinable t = false → s.pc t ≠ .exit ∧ s.pc t ≠ .wait
  slots : ∀ t ∈ s.freeq, s.joinable t = true → s.pc t = .dead
  freed : ∀ t, s.freed t = true → t ∈ s.freeq ∨ ∃ p, s.hand p = some (.put t)
  returned : ∀ u, s.returned u = true → s.joinable u = true

/-- What a step of the thread `t` leaves alone. -/
structure Frame (s s' : State P T) (t : T) : Prop where
  freeq : s'.freeq = s.freeq
  hand : s'.hand = s.hand
  freed : s'.freed = s.freed
  joinable : s'.joinable = s.joinable
  pc : ∀ j, j ≠ t → s'.pc j = s.pc j

/-- A step of the thread `t`, or for it, after which the callbacks fit and the scene is sound. -/
structure Turn (s s' : State P T) (t : T) : Prop extends Frame s s' t where
  notFree : t ∉ s.freeq
  fits : ∀ p c, s'.cb p = some c → s'.Fits c
  scene : s'.scene.Sound

namespace Inv

variable {s s' : State P T} {p : P} {t u : T}
variable {c : Cb T} {m : Meet T}

section
variable (h : Inv s)
include h

theorem sole {j : T} (hj : s.pc j = .join u ∨ s.pc j = .post u)
    (ht : s.pc t = .join u ∨ s.pc t = .post u) : j = t :=
  Option.some.inj ((h.back j u hj).2.symm.trans (h.back t u ht).2)

theorem side_of (ht : s.pc t = .join u ∨ s.pc t = .post u) : s.side u = (s.pc t).side u := by
  simp [side, (h.back t u ht).2]

theorem who_of (ht : s.pc t = .join u ∨ s.pc t = .post u) : (s.face u).who = t := by
  simp [face, (h.back t u ht).2]

theorem at_join (hpc : s.pc t = .join u) :
    (s.pc t = .join u ∨ s.pc t = .post u) ∧ s.side u = .joining ∧ Pair u (s.face u) := by
  have hat : s.pc t = .join u ∨ s.pc t = .post u := .inl hpc
  exact ⟨hat, by simp [h.side_of hat, hpc, Pc.side], h.pairs u (h.back t u hat).1⟩

theorem at_post (hpc : s.pc t = .post u) :
    (s.pc t = .join u ∨ s.pc t = .post u) ∧ s.side u = .posting ∧ Pair u (s.face u) := by
  have hat : s.pc t = .join u ∨ s.pc t = .post u := .inr hpc
  exact ⟨hat, by simp [h.side_of hat, hpc, Pc.side], h.pairs u (h.back t u hat).1⟩

theorem joinable_of_exit (hpc : s.pc t = .exit ∨ s.pc t = .wait) : s.joinable t = true := by
  by_contra hn
  have := h.plain t (by simpa using hn)
  tauto

theorem at_exit (hpc : s.pc t = .exit) : s.joinable t = true ∧ Pair t (s.face t) ∧
    (s.face t).own = .exit ∧ (s.exit t).waiter = .before := by
  have hj := h.joinable_of_exit (.inl hpc)
  have hown : (s.face t).own = .exit := by simp [face, hpc, Pc.own]
  exact ⟨hj, h.pairs t hj, hown, ((h.pairs t hj).own_eq hown).2⟩

theorem at_wait (hpc : s.pc t = .wait) :
    s.joinable t = true ∧ Pair t (s.face t) ∧ (s.face t).own = .wait := by
  have hj := h.joinable_of_exit (.inr hpc)
  exact ⟨hj, h.pairs t hj, by simp [face, hpc, Pc.own]⟩

/-- A running thread is not the one of any callback. -/
theorem thread_ne (hon : s.cur p = some t) {q : P} (hc : s.cb q = some c) : c.thread ≠ t := by
  rintro rfl
  exact h.scene.apart (r := .leaving q) (show s.scene.At c.thread (.on p) from hon) (by simp)
    (by simp [Scene.At, State.scene, hc])

theorem not_free (hon : s.cur p = some t) : t ∉ s.freeq :=
  h.scene.apart (r := .free) (show s.scene.At t (.on p) from hon) (by simp)

/-- The callbacks do not mind what a running thread does. -/
theorem on_turn (hon : s.cur p = some t) (hf : Frame s s' t) (hcb : s'.cb = s.cb)
    (hs : s'.scene.Sound) : Turn s s' t where
  toFrame := hf
  notFree := h.not_free hon
  fits := by
    intro q c hc
    rw [hcb] at hc
    exact (h.fits q c hc).congr (hf.pc _ (h.thread_ne hon hc))
  scene := hs

/-- A step of the thread `t`, or for it, that changes the face of `v` at most. -/
theorem act (hf : Turn s s' t) (hjoiner : ∀ u x, s.joiner u = some x → s'.joiner u = some x)
    (hback : ∀ u, s'.pc t = .join u ∨ s'.pc t = .post u →
      s.joinable u = true ∧ s'.joiner u = some t)
    (hplain : s.joinable t = false → s'.pc t ≠ .exit ∧ s'.pc t ≠ .wait) (v : T)
    (hothers : ∀ u, u ≠ v → s'.face u = s.face u)
    (hv : s.joinable v = true → Pair v (s'.face v))
    (hret : ∀ u, s'.returned u = true → s.returned u = true ∨ s.joinable u = true) : Inv s' where
  scene := hf.scene
  fits := hf.fits
  back := by
    intro j u hj
    rw [hf.joinable]
    by_cases hjt : j = t
    · subst hjt
      exact hback u hj
    · rw [hf.pc j hjt] at hj
      exact (h.back j u hj).imp_right (hjoiner u j)
  pairs := by
    intro u hu
    rw [hf.joinable] at hu
    by_cases huv : u = v
    · subst huv
      exact hv hu
    · rw [hothers u huv]
      exact h.pairs u hu
  plain := by
    intro j hj
    rw [hf.joinable] at hj
    by_cases hjt : j = t
    · subst hjt
      exact hplain hj
    · rw [hf.pc j hjt]
      exact h.plain j hj
  slots := by
    intro j hj
    rw [hf.freeq] at hj
    have hjt : j ≠ t := fun he => hf.notFree (he ▸ hj)
    rw [hf.joinable, hf.pc j hjt]
    exact h.slots j hj
  freed := by
    rw [hf.freed, hf.freeq, hf.hand]
    exact h.freed
  returned := by
    intro u hu
    rw [hf.joinable]
    exact (hret u hu).elim (h.returned u) id

theorem joiner_step (hf : Turn s s' t) (hat : s.pc t = .join u ∨ s.pc t = .post u)
    (hto : s'.pc t = .run ∨ s'.pc t = .join u ∨ s'.pc t = .post u) (hjoiner : s'.joiner = s.joiner)
    (hjoin : ∀ v, v ≠ u → s'.join v = s.join v) (hexit : ∀ v, v ≠ u → s'.exit v = s.exit v)
    (hret : ∀ v, v ≠ u → s'.returned v = s.returned v)
    (hpair : Pair u { s.face u with
      join := s'.join u
      exit := s'.exit u
      side := (s'.pc t).side u
      returned := s'.returned u }) : Inv s' := by
  obtain ⟨hjoinable, hwho⟩ := h.back t u hat
  have hown : ∀ v, (s'.pc v).own = (s.pc v).own := by
    intro v
    by_cases hv : v = t
    · subst hv
      rcases hat with ha | ha <;> rcases hto with hb | hb | hb <;> simp [ha, hb, Pc.own]
    · rw [hf.pc v hv]
  have hside : ∀ v, v ≠ u → (s'.pc t).side v = (s.pc t).side v := by
    intro v hv
    rcases hat with ha | ha <;> rcases hto with hb | hb | hb <;> simp [ha, hb, Pc.side, hv.symm]
  refine h.act hf (fun v x hx => by rw [hjoiner, hx]) (fun v hv => ?_) (fun _ => ?_) u
    (fun v hv => ?_) (fun _ => ?_) (fun v hv => ?_)
  · have : v = u := by rcases hto with hb | hb | hb <;> simp_all
    rw [this, hjoiner]
    exact ⟨hjoinable, hwho⟩
  · rcases hto with hb | hb | hb <;> simp [hb]
  · have hsv : s'.side v = s.side v := by
      unfold side
      rw [hjoiner]
      cases hj : s.joiner v with
      | none => rfl
      | some j =>
        by_cases hjt : j = t
        · subst hjt
          exact hside v hv
        · simp [hf.pc j hjt]
    simp only [face, hjoiner, hjoin v hv, hexit v hv, hown, hsv, hret v hv]
  · have hsu : s'.side u = (s'.pc t).side u := by simp [side, hjoiner, hwho]
    simpa only [face, hjoiner, hown, hsu] using hpair
  · by_cases hvu : v = u
    · exact .inr (hvu ▸ hjoinable)
    · exact .inl (hret v hvu ▸ hv)

theorem exit_step (hf : Turn s s' t)
    (hat : s.pc t = .run ∨ s.pc t = .exit ∨ s.pc t = .wait ∨ s.pc t = .bye)
    (hto : s'.pc t = .exit ∨ s'.pc t = .wait ∨ s'.pc t = .bye ∨ s'.pc t = .dead)
    (hplain : s'.pc t = .exit ∨ s'.pc t = .wait → s.joinable t = true)
    (hjoiner : s'.joiner = s.joiner) (hret : s'.returned = s.returned)
    (hjoin : ∀ v, v ≠ t → s'.join v = s.join v) (hexit : ∀ v, v ≠ t → s'.exit v = s.exit v)
    (hpair : s.joinable t = true → Pair t { s.face t with
      join := s'.join t
      exit := s'.exit t
      own := (s'.pc t).own }) : Inv s' := by
  have hside : s'.side = s.side := by
    funext v
    unfold side
    rw [hjoiner]
    cases hj : s.joiner v with
    | none => rfl
    | some j =>
      by_cases hjt : j = t
      · subst hjt
        have ha : (s.pc j).side v = .gone := by
          rcases hat with ha | ha | ha | ha <;> simp [ha, Pc.side]
        have hb : (s'.pc j).side v = .gone := by
          rcases hto with hb | hb | hb | hb <;> simp [hb, Pc.side]
        exact hb.trans ha.symm
      · simp [hf.pc j hjt]
  refine h.act hf (fun v x hx => by rw [hjoiner, hx]) (fun v hv => ?_) (fun hn => ?_) t
    (fun v hv => ?_) (fun hj => ?_) (fun v hv => .inl (hret ▸ hv))
  · rcases hto with hb | hb | hb | hb <;> simp [hb] at hv
  · have hno : ¬ (s'.pc t = .exit ∨ s'.pc t = .wait) := fun he => by simp [hplain he] at hn
    exact not_or.mp hno
  · simp only [face, hjoiner, hjoin v hv, hexit v hv, hf.pc v hv, hside, hret]
  · simpa only [face, hjoiner, hside, hret] using hpair hj

end

attribute [local simp] State.setJoin State.setExit State.setPc State.wake State.ret

omit [DecidableEq T] in
theorem idle_of_ready (hr : s.ready p) : s.scene.leaving p = none ∧ s.scene.hand p = none := by
  simp [State.scene, hr.1, hr.2]

section
variable (h : Inv s)
include h

section
variable (hon : s.cur p = some t)
include hon

section
variable (hr : s.ready p)
include hr

theorem scene_set
    (hs : s'.scene = { s.scene with pos := s'.pos }) (hothers : ∀ j, j ≠ t → s'.pos j = s.pos j)
    (hx : s'.pos t = .run ∨ s'.pos t = .busy) : s'.scene.Sound := by
  have hpos : s'.pos = update s.pos t (s'.pos t) :=
    eq_update_iff.mpr ⟨rfl, hothers⟩
  rw [hs, hpos]
  exact h.scene.set hon (idle_of_ready hr).1 (idle_of_ready hr).2 hx

theorem scene_wake {w : T} (hs : s'.scene = { s.scene with runq := s.runq ++ [w], pos := s'.pos })
    (hw : s.pos w = .asleep) (hw' : s'.pos w = .woken)
    (hothers : ∀ j, j ≠ t → j ≠ w → s'.pos j = s.pos j)
    (hx : s'.pos t = .run ∨ s'.pos t = .busy) : s'.scene.Sound := by
  have hpos : s'.pos = update (update s.pos w .woken) t (s'.pos t) := by
    refine eq_update_iff.mpr ⟨rfl, fun j hj => ?_⟩
    by_cases hjw : j = w
    · rw [hjw, hw', update_self]
    · rw [hothers j hj hjw, update_of_ne hjw]
  rw [hs, hpos]
  exact (h.scene.rouse hw).set hon (idle_of_ready hr).1 (idle_of_ready hr).2 hx

/-- The joiner goes on inside `join_wait`, or has come through. -/
theorem go_join (hpc : s.pc t = .join u) (hm : Good t m) (hp : m.poster = (s.join u).poster)
    (hw : m.waiter = .slow ∨ m.waiter = .through) :
    Inv ((s.setJoin u m).setPc t (if m.waiter = .through then .post u else .join u)) := by
  obtain ⟨hat, hside, hpair⟩ := h.at_join hpc
  rw [← h.who_of hat] at hm
  refine h.joiner_step (h.on_turn hon ⟨rfl, rfl, rfl, rfl, fun j hj => by simp [hj]⟩ rfl
    (h.scene_set hon hr rfl (fun j hj => ?_) ?_)) hat ?_ rfl
    (fun v hv => by simp [hv]) (fun _ _ => rfl) (fun _ _ => rfl) ?_
  · refine pos_congr (by simp [hj]) (fun v hv => ?_) (fun _ => rfl)
    have hvu : v ≠ u := fun he => hj (h.sole (.inl (he ▸ hv)) hat)
    simp [hvu]
  · rcases hw with hw | hw <;> simp [pos, hw, Pos.ofWaiter]
  · rcases hw with hw | hw <;> simp [hw]
  · rcases hw with hw | hw
    · simpa [hw, Pc.side, face, hside] using hpair.joining hside hm hp (by simp [hw])
    · simpa [hw, Pc.side, face] using hpair.posting hside hm hp hw

/-- The joiner has posted and returns. -/
theorem go_ret (hpc : s.pc t = .post u)
    (hp : (s.exit u).poster = .before) (hd : (s.exit u).post.poster = .done) :
    Inv ((s.setExit u (s.exit u).post).ret t u) := by
  obtain ⟨hat, hside, hpair⟩ := h.at_post hpc
  refine h.joiner_step (h.on_turn hon ⟨rfl, rfl, rfl, rfl, fun j hj => by simp [hj]⟩ rfl
    (h.scene_set hon hr rfl (fun j hj => ?_) ?_)) hat (.inl (by simp)) rfl
    (fun _ _ => rfl) (fun v hv => by simp [hv]) (fun v hv => by simp [hv]) ?_
  · refine pos_congr (by simp [hj]) (fun _ _ => rfl) (fun _ => ?_)
    by_cases hju : j = u
    · subst hju
      simp [Meet.post]
    · simp [hju]
  · simp [pos]
  · simpa [Pc.side, face] using hpair.returning hside (hpair.exit.post hp) hpair.own hd

/-- The joiner has posted and found the address of the exiting thread. -/
theorem go_call (hpc : s.pc t = .post u)
    (hp : (s.exit u).poster = .before) (hd : (s.exit u).post.poster ≠ .done) :
    Inv (s.setExit u (s.exit u).post) := by
  obtain ⟨hat, hside, hpair⟩ := h.at_post hpc
  refine h.joiner_step (h.on_turn hon ⟨rfl, rfl, rfl, rfl, fun _ _ => rfl⟩ rfl
    (h.scene_set hon hr rfl (fun j hj => ?_) ?_)) hat (.inr (.inr hpc)) rfl
    (fun _ _ => rfl) (fun v hv => by simp [hv]) (fun v hv => rfl) ?_
  · refine pos_congr rfl (fun _ _ => rfl) (fun _ => ?_)
    by_cases hju : j = u
    · subst hju
      simp [Meet.post]
    · simp [hju]
  · simp [pos, hpc]
  · simpa [Pc.side, face, hpc, hside] using hpair.calling hside (hpair.exit.post hp) rfl hd

/-- The joiner wakes the exiting thread and returns. -/
theorem go_wake {w : T} (hpc : s.pc t = .post u) (hp : (s.exit u).poster = .waking w) :
    Inv (((s.setExit u (s.exit u).wake).wake w).ret t u) := by
  obtain ⟨hat, hside, hpair⟩ := h.at_post hpc
  obtain ⟨rfl, hasleep⟩ := hpair.exit.waking hp
  have hown : (s.pc w).own = .wait := hpair.own_of_asleep hasleep
  have hwait : s.pc w = .wait := by cases hw : s.pc w <;> simp_all [Pc.own]
  have hwt : w ≠ t := by
    rintro rfl
    simp [hpc] at hwait
  refine h.joiner_step (h.on_turn hon ⟨rfl, rfl, rfl, rfl, fun j hj => by simp [hj]⟩ rfl
    (h.scene_wake hon hr rfl ?_ ?_ (fun j hj hjw => ?_) ?_)) hat (.inl (by simp)) rfl
    (fun _ _ => rfl) (fun v hv => by simp [hv]) (fun v hv => by simp [hv]) ?_
  · simp [pos, hwait, show (s.exit w).waiter = .asleep from hasleep, Pos.ofWaiter]
  · simp [pos, hwt, hwait, Meet.wake, Pos.ofWaiter]
  · exact pos_congr (by simp [hj]) (fun _ _ => rfl) (fun _ => by simp [hjw])
  · simp [pos]
  · have hown' : (s.face w).own.Fits (s.join w).poster .woken := by
      rw [show (s.face w).own = .wait from hown]
      exact ⟨(hpair.own_eq hown).1, by simp⟩
    simpa [Pc.side, face] using hpair.returning hside (hpair.exit.wake hp) hown' rfl

/-- The exiting thread has posted. -/
theorem go_exit (hpc : s.pc t = .exit)
    (hp : (s.join t).poster = .before) : Inv ((s.setJoin t (s.join t).post).setPc t
      (if (s.join t).post.poster = .done then .wait else .exit)) := by
  obtain ⟨hj, hpair, hown, hbefore⟩ := h.at_exit hpc
  have hm := hpair.join.post hp
  refine h.exit_step (h.on_turn hon ⟨rfl, rfl, rfl, rfl, fun j hj => by simp [hj]⟩ rfl
    (h.scene_set hon hr rfl (fun j hj => ?_) ?_)) (.inr (.inl hpc)) ?_
    (fun _ => hj) rfl rfl (fun v hv => by simp [hv]) (fun _ _ => rfl) (fun _ => ?_)
  · refine pos_congr (by simp [hj]) (fun v _ => ?_) (fun _ => rfl)
    by_cases hvt : v = t
    · subst hvt
      simp [Meet.post]
    · simp [hvt]
  · by_cases hd : (s.join t).post.poster = .done <;> simp [pos, hd, hbefore, Pos.ofWaiter]
  · by_cases hd : (s.join t).post.poster = .done <;> simp [hd]
  · by_cases hd : (s.join t).post.poster = .done
    · simpa [hd, Pc.own, face] using hpair.posted hown hm hpair.side hd
    · simpa [hd, Pc.own, face, hpc] using hpair.summoning hown hm rfl hd

/-- The exiting thread wakes its joiner. -/
theorem go_summon {w : T} (hpc : s.pc t = .exit) (hp : (s.join t).poster = .waking w) :
    Inv (((s.setJoin t (s.join t).wake).wake w).setPc t .wait) := by
  obtain ⟨hj, hpair, hown, hbefore⟩ := h.at_exit hpc
  obtain ⟨hwho, hasleep⟩ := hpair.join.waking hp
  have hasleep : (s.join t).waiter = .asleep := hasleep
  have hside : s.side t = .joining := hpair.side_of_asleep hasleep
  have hjoining : s.pc w = .join t := by
    obtain ⟨j, hwj, hpj, -⟩ := joiner_at (s := s) (u := t) (by simp [hside]) (by simp [hside])
    rw [hwho, show (s.face t).who = j by simp [face, hwj], hpj hside]
  have hwt : w ≠ t := by
    rintro rfl
    simp [hpc] at hjoining
  refine h.exit_step (h.on_turn hon ⟨rfl, rfl, rfl, rfl, fun j hj => by simp [hj]⟩ rfl
    (h.scene_wake hon hr rfl ?_ ?_ (fun j hj hjw => ?_) ?_)) (.inr (.inl hpc)) (by simp)
    (fun _ => hj) rfl rfl (fun v hv => by simp [hv]) (fun _ _ => rfl) (fun _ => ?_)
  · simp [pos, hjoining, hasleep, Pos.ofWaiter]
  · simp [pos, hjoining, hwt, Meet.wake, Pos.ofWaiter]
  · refine pos_congr (by simp [hj]) (fun v hv => ?_) (fun _ => rfl)
    have hvt : v ≠ t := fun he => hjw (h.sole (.inl (he ▸ hv)) (.inl hjoining))
    simp [hvt]
  · simp [pos, hbefore, Pos.ofWaiter]
  · have hside' : (s.face t).side.Fits .woken (s.exit t).poster (s.returned t) := by
      rw [show (s.face t).side = .joining from hside]
      exact ⟨by simp, (hpair.side_eq hside).2⟩
    simpa [Pc.own, face] using hpair.posted hown (hpair.join.wake hp) hside' rfl

/-- The exiting thread goes on inside `join_wait`, or has come through. -/
theorem go_wait (hpc : s.pc t = .wait) (hm : Good t m) (hp : m.poster = (s.exit t).poster)
    (hw : m.waiter = .slow ∨ m.waiter = .through) :
    Inv ((s.setExit t m).setPc t (if m.waiter = .through then .bye else .wait)) := by
  obtain ⟨hj, hpair, hown⟩ := h.at_wait hpc
  refine h.exit_step (h.on_turn hon ⟨rfl, rfl, rfl, rfl, fun j hj => by simp [hj]⟩ rfl
    (h.scene_set hon hr rfl (fun j hj => ?_) ?_)) (.inr (.inr (.inl hpc))) ?_
    (fun _ => hj) rfl rfl (fun _ _ => rfl) (fun v hv => by simp [hv]) (fun _ => ?_)
  · exact pos_congr (by simp [hj]) (fun _ _ => rfl) (fun _ => by simp [hj])
  · rcases hw with hw | hw <;> simp [pos, hw, Pos.ofWaiter]
  · rcases hw with hw | hw <;> simp [hw]
  · rcases hw with hw | hw
    · simpa [hw, Pc.own, face, hpc] using hpair.waiting hown hm hp (by simp [hw])
    · simpa [hw, Pc.own, face] using hpair.leaving hown hm hp hw

end

end

theorem exit_call (hruns : s.runs p t) :
    Inv (s.setPc t (if s.joinable t then .exit else .bye)) := by
  obtain ⟨hr, hon, hpc⟩ := hruns
  refine h.exit_step (h.on_turn hon ⟨rfl, rfl, rfl, rfl, fun j hj => by simp [hj]⟩ rfl
    (h.scene_set hon hr rfl (fun j hj => ?_) ?_)) (.inl hpc) ?_
    (fun hne => ?_) rfl rfl (fun _ _ => rfl) (fun _ _ => rfl) (fun hj => ?_)
  · exact pos_congr (by simp [hj]) (fun _ _ => rfl) (fun _ => rfl)
  · cases s.joinable t <;> simp [pos]
  · cases s.joinable t <;> simp
  · by_contra hn
    simp [hn] at hne
  · have hown : (s.face t).own = .alive := by simp [face, hpc, Pc.own]
    simpa [hj, Pc.own, face] using (h.pairs t hj).exiting hown

theorem join_call (hruns : s.runs p t) (hu : s.joinable u = true) (hnone : s.joiner u = none) :
    Inv { s.setPc t (.join u) with joiner := update s.joiner u (some t) } := by
  obtain ⟨hr, hon, hpc⟩ := hruns
  have hside : s.side u = .none := by simp [side, hnone]
  have hpair := h.pairs u hu
  have hbefore : (s.join u).waiter = .before := (hpair.side_eq hside).1
  have hown : ∀ v, (update s.pc t (.join u) v).own = (s.pc v).own := by
    intro v
    by_cases hv : v = t
    · subst hv
      simp [hpc, Pc.own]
    · simp [hv]
  refine h.act (h.on_turn hon ⟨rfl, rfl, rfl, rfl, fun j hj => by simp [hj]⟩ rfl
    (h.scene_set hon hr rfl (fun j hj => ?_) ?_)) (fun v x hx => ?_) (fun v hv => ?_) (fun _ => ?_) u
    (fun v hv => ?_) (fun _ => ?_) (fun _ => .inl)
  · exact pos_congr (by simp [hj]) (fun _ _ => rfl) (fun _ => rfl)
  · simp [pos, hbefore, Pos.ofWaiter]
  · have hvu : v ≠ u := by
      rintro rfl
      simp [hnone] at hx
    simpa [hvu] using hx
  · obtain rfl : u = v := by simpa using hv
    simpa using hu
  · simp
  · have hsv : side { s.setPc t (.join u) with
        joiner := update s.joiner u (some t) } v = s.side v := by
      simp only [side, setPc, update_of_ne hv]
      cases hj : s.joiner v with
      | none => rfl
      | some j =>
        by_cases hjt : j = t
        · subst hjt
          simp [hpc, Pc.side, hv.symm]
        · simp [hjt]
    simp only [face, hsv]
    simp [hv, hown]
  · have hsu : side { s.setPc t (.join u) with
        joiner := update s.joiner u (some t) } u = .joining := by
      simp [side, Pc.side]
    simp only [face, hsu]
    simpa [hown, face] using hpair.joined hside t

end

omit [DecidableEq T] in
theorem leaving_of (hc : s.cb p = some c) : s.scene.At c.thread (.leaving p) := by
  simp [Scene.At, State.scene, hc]

theorem callback_not_free (h : Inv s) (hc : s.cb p = some c) : c.thread ∉ s.freeq :=
  h.scene.apart (r := .free) (leaving_of hc) (by simp)

theorem pos_setJoin (h : Inv s) (hpc : s.pc t = .join u) (m : Meet T) :
    (s.setJoin u m).pos = update s.pos t (.ofWaiter m.waiter) := by
  refine eq_update_iff.mpr ⟨by simp [pos, hpc], fun j hj => ?_⟩
  refine pos_congr rfl (fun v hv => ?_) (fun _ => rfl)
  have hvu : v ≠ u := fun he => hj (h.sole (.inl (he ▸ hv)) (.inl hpc))
  simp [hvu]

theorem pos_setExit (hpc : s.pc t = .wait) (m : Meet T) :
    (s.setExit t m).pos = update s.pos t (.ofWaiter m.waiter) := by
  refine eq_update_iff.mpr ⟨by simp [pos, hpc], fun j hj => ?_⟩
  exact pos_congr rfl (fun _ _ => rfl) (fun _ => by simp [hj])

/-! ### Switches -/

variable [DecidableEq P]

theorem switch_eq {next : Option T} (hsw : s.switch p next c = some s') : ∃ q, s' = { s with
        runq := q
        cur := update s.cur p next
        cb := update s.cb p (some c) } ∧
      (next = none ∧ q = s.runq ∨ ∃ n ∈ s.runq, next = some n ∧ q = s.runq.erase n) := by
  cases next with
  | none => exact ⟨s.runq, (Option.some.inj hsw).symm, .inl ⟨rfl, rfl⟩⟩
  | some n =>
    obtain ⟨hn, ⟨⟩⟩ := Option.ite_none_right_eq_some.mp hsw
    exact ⟨s.runq.erase n, rfl, .inr ⟨n, hn, rfl, rfl⟩⟩

section
variable (h : Inv s)
include h

/-- The running thread gives up its processor, to a thread of the run queue or to the
idle thread. -/
theorem scene_switch {s₁ : State P T} {next : Option T}
    (hsw : s₁.switch p next c = some s') (hon : s.cur p = some t) (hr : s.ready p)
    (hc : c.thread = t) (hs : s₁.scene = { s.scene with pos := s₁.pos })
    (hothers : ∀ j, j ≠ t → s₁.pos j = s.pos j)
    (hx : s₁.pos t = .run ∨ s₁.pos t = .leaving ∨ s₁.pos t = .dead) : s'.scene.Sound := by
  obtain ⟨q, rfl, hq⟩ := switch_eq hsw
  have hpos : s₁.pos = update s.pos t (s₁.pos t) :=
    eq_update_iff.mpr ⟨rfl, hothers⟩
  have hpark := h.scene.park hon (idle_of_ready hr).1 hx
  have hscene : State.scene { s₁ with
        runq := q
        cur := update s₁.cur p next
        cb := update s₁.cb p (some c) } =
      { s.scene with
        runq := q
        cur := update s.cur p next
        leaving := update s.scene.leaving p (some t)
        pos := update s.pos t (s₁.pos t) } := by
    have hrw : State.scene { s₁ with
          runq := q
          cur := update s₁.cur p next
          cb := update s₁.cb p (some c) } =
        { s₁.scene with
          runq := q
          cur := update s₁.scene.cur p next
          leaving := update s₁.scene.leaving p (some t) } := by
      simp only [State.scene, comp_update, Option.map_some, hc]
      rfl
    rw [hrw, hs, ← hpos]
    rfl
  rw [hscene]
  have hrunq : s₁.runq = s.runq := congrArg Scene.runq hs
  rcases hq with ⟨rfl, rfl⟩ | ⟨n, hn, rfl, rfl⟩
  · rw [hrunq]
    exact hpark
  · rw [hrunq] at hn ⊢
    have htake := hpark.take (p := p) hn (by simp)
    simp only [update_idem] at htake
    exact htake

/-- The running thread gives up its processor after the step to `s₁`. -/
theorem switch_turn {s₁ : State P T} {next : Option T}
    (hsw : s₁.switch p next c = some s') (hon : s.cur p = some t) (hr : s.ready p)
    (hc : c.thread = t) (hf : Frame s s₁ t) (hcb : s₁.cb = s.cb) (hfit : s₁.Fits c)
    (hs : s₁.scene = { s.scene with pos := s₁.pos }) (hothers : ∀ j, j ≠ t → s₁.pos j = s.pos j)
    (hx : s₁.pos t = .run ∨ s₁.pos t = .leaving ∨ s₁.pos t = .dead) : Turn s s' t := by
  have hscene := h.scene_switch hsw hon hr hc hs hothers hx
  obtain ⟨_, rfl, -⟩ := switch_eq hsw
  refine { hf with notFree := h.not_free hon, fits := fun q d hd => ?_, scene := hscene }
  by_cases hq : q = p
  · subst hq
    obtain rfl : c = d := by simpa using hd
    exact hfit.congr rfl
  · have hd : s.cb q = some d := by simpa [hq, hcb] using hd
    exact (h.fits q d hd).congr (hf.pc _ (h.thread_ne hon hd))

theorem yield (hruns : s.runs p t) {next : Option T}
    (hsw : s.switch p next (.yield t) = some s') : Inv s' := by
  obtain ⟨hr, hon, hpc⟩ := hruns
  have hf := h.switch_turn hsw hon hr rfl ⟨rfl, rfl, rfl, rfl, fun _ _ => rfl⟩ rfl hpc rfl
    (fun _ _ => rfl) (.inl (by simp [pos, hpc]))
  obtain ⟨_, rfl, -⟩ := switch_eq hsw
  exact h.act hf (fun _ _ => id) (fun u => h.back t u) (h.plain t) t (fun _ _ => rfl) (h.pairs t)
    (fun _ => .inl)

theorem block_join (hon : s.cur p = some t) (hr : s.ready p) (hpc : s.pc t = .join u)
    (hw : (s.join u).waiter = .slow) {next : Option T}
    (hsw : (s.setJoin u (s.join u).leave).switch p next (.join t u) = some s') : Inv s' := by
  obtain ⟨hat, hside, hpair⟩ := h.at_join hpc
  have hf := h.switch_turn hsw hon hr rfl ⟨rfl, rfl, rfl, rfl, fun _ _ => rfl⟩ rfl hpc rfl
    (fun j hj => ?_) ?_
  obtain ⟨_, rfl, -⟩ := switch_eq hsw
  refine h.joiner_step hf hat (.inr hat) rfl
    (fun v hv => by simp [hv]) (fun _ _ => rfl) (fun _ _ => rfl) ?_
  · simpa [hpc, Pc.side, face, hside] using
      hpair.joining hside (hpair.join.leave hw) rfl (by simp [Meet.leave])
  · rw [h.pos_setJoin hpc, update_of_ne hj]
  · simp [pos, hpc, Meet.leave, Pos.ofWaiter]

theorem block_wait (hon : s.cur p = some t) (hr : s.ready p) (hpc : s.pc t = .wait)
    (hw : (s.exit t).waiter = .slow) {next : Option T}
    (hsw : (s.setExit t (s.exit t).leave).switch p next (.wait t) = some s') : Inv s' := by
  obtain ⟨hj, hpair, hown⟩ := h.at_wait hpc
  have hf := h.switch_turn hsw hon hr rfl ⟨rfl, rfl, rfl, rfl, fun _ _ => rfl⟩ rfl hpc rfl
    (fun j hj => ?_) ?_
  obtain ⟨_, rfl, -⟩ := switch_eq hsw
  refine h.exit_step hf (.inr (.inr (.inl hpc))) (.inr (.inl hpc))
    (fun _ => hj) rfl rfl (fun _ _ => rfl) (fun v hv => by simp [hv]) (fun _ => ?_)
  · simpa [hpc, Pc.own, face] using
      hpair.waiting hown (hpair.exit.leave hw) rfl (by simp [Meet.leave])
  · rw [pos_setExit hpc, update_of_ne hj]
  · simp [pos, hpc, Meet.leave, Pos.ofWaiter]

theorem block_bye (hon : s.cur p = some t) (hr : s.ready p) (hpc : s.pc t = .bye)
    {next : Option T} (hsw : (s.setPc t .dead).switch p next (.exit t) = some s') : Inv s' := by
  have hf := h.switch_turn hsw hon hr rfl ⟨rfl, rfl, rfl, rfl, fun j hj => by simp [hj]⟩ rfl
    (by simp [State.Fits]) rfl (fun j hj => ?_) (by simp [pos])
  obtain ⟨_, rfl, -⟩ := switch_eq hsw
  refine h.exit_step hf (.inr (.inr (.inr hpc))) (by simp)
    (by simp) rfl rfl (fun _ _ => rfl) (fun _ _ => rfl) (fun hj => ?_)
  · simpa [hpc, Pc.own, face] using h.pairs t hj
  · exact pos_congr (by simp [hj]) (fun _ _ => rfl) (fun _ => rfl)

theorem dispatch (hcur : s.cur p = none) (ht : t ∈ s.runq) :
    Inv { s with runq := s.runq.erase t, cur := update s.cur p (some t) } :=
  { h with
    scene := h.scene.take ht hcur
    fits := fun q c hc => (h.fits q c hc).congr rfl
    pairs := h.pairs }

/-! ### Callbacks -/

theorem fits_finish (hpc : s'.pc = s.pc) (hcb : s'.cb = update s.cb p none) :
    ∀ q d, s'.cb q = some d → s'.Fits d := by
  intro q d hd
  by_cases hq : q = p
  · subst hq
    simp [hcb] at hd
  · exact (h.fits q d (by simpa [hcb, hq] using hd)).congr (by rw [hpc])

omit [DecidableEq P] in
theorem callback_join (hc : s.cb p = some (.join t u))
    (hm : Good t (s.join u) → Good t m) (hp : m.poster = (s.join u).poster)
    (hw : m.waiter ≠ .through) (hs : s'.scene.Sound) (hfits : ∀ q d, s'.cb q = some d → s'.Fits d)
    (hs' : ∃ cb runq, s' = { s.setJoin u m with cb := cb, runq := runq }) : Inv s' := by
  obtain ⟨cb, runq, rfl⟩ := hs'
  have hpc : s.pc t = .join u := h.fits p _ hc
  obtain ⟨hat, hside, hpair⟩ := h.at_join hpc
  rw [← h.who_of hat] at hm
  refine h.joiner_step ⟨⟨rfl, rfl, rfl, rfl, fun _ _ => rfl⟩, h.callback_not_free hc, hfits, hs⟩ hat
    (.inr hat) rfl (fun v hv => by simp [hv]) (fun _ _ => rfl) (fun _ _ => rfl) ?_
  simpa [Cb.thread, hpc, Pc.side, face, hside] using hpair.joining hside (hm hpair.join) hp hw

omit [DecidableEq P] in
theorem callback_wait (hc : s.cb p = some (.wait t))
    (hm : Good t (s.exit t) → Good t m) (hp : m.poster = (s.exit t).poster)
    (hw : m.waiter ≠ .through) (hs : s'.scene.Sound) (hfits : ∀ q d, s'.cb q = some d → s'.Fits d)
    (hs' : ∃ cb runq, s' = { s.setExit t m with cb := cb, runq := runq }) : Inv s' := by
  obtain ⟨cb, runq, rfl⟩ := hs'
  have hpc : s.pc t = .wait := h.fits p _ hc
  obtain ⟨hj, hpair, hown⟩ := h.at_wait hpc
  refine h.exit_step ⟨⟨rfl, rfl, rfl, rfl, fun _ _ => rfl⟩, h.callback_not_free hc, hfits, hs⟩
    (.inr (.inr (.inl hpc))) (.inr (.inl hpc)) (fun _ => hj) rfl rfl (fun _ _ => rfl)
    (fun v hv => by simp [Cb.thread] at hv; simp [hv]) (fun _ => ?_)
  simpa [Cb.thread, hpc, Pc.own, face] using hpair.waiting hown (hm hpair.exit) hp hw

end

omit [DecidableEq T] in
theorem scene_finish (s : State P T) (p : P) :
    (s.finish p).scene = { s.scene with leaving := update s.scene.leaving p none } := by
  simp only [State.scene, State.finish, comp_update, Option.map_none]
  rfl

/-- The callback of a thread in `join_wait`: the exchange leaves it asleep or due, and if it
is due it is put on the run queue.  `set` writes its rendezvous. -/
theorem callback_meet (h : Inv s) (hc : s.cb p = some c) (m₀ : Meet T) (set : Meet T → State P T)
    (hscene : ∀ m, (set m).scene = { s.scene with pos := (set m).pos })
    (hset : ∀ m, (set m).pos = update s.pos c.thread (.ofWaiter m.waiter))
    (hkeep : ∀ m, (set m).pc = s.pc ∧ (set m).cb = s.cb)
    (hpos : s.pos c.thread = .ofWaiter m₀.waiter)
    (hst : (match m₀.waiter with
      | .leaving =>
        let m := m₀.settle c.thread
        if m.waiter = .due then some (set m) else some ((set m).finish p)
      | .due => some (((set m₀.requeue).wake c.thread).finish p)
      | _ => none) = some s') :
    ∃ m, (Good c.thread m₀ → Good c.thread m) ∧ m.poster = m₀.poster ∧ m.waiter ≠ .through ∧
      s'.scene.Sound ∧ (∀ q d, s'.cb q = some d → s'.Fits d) ∧
      ∃ cb runq, s' = { set m with cb := cb, runq := runq } := by
  have hfinish : ∀ m, ∀ q d, ((set m).finish p).cb q = some d → ((set m).finish p).Fits d :=
    fun m => h.fits_finish (hkeep m).1 (by rw [finish, (hkeep m).2])
  split at hst
  next hw =>
    have hm : Good c.thread m₀ → Good c.thread (m₀.settle c.thread) := fun hg => hg.settle hw
    rcases m₀.settle_waiter c.thread with hdue | hasleep
    · obtain rfl : set (m₀.settle c.thread) = s' := by simpa [hdue] using hst
      refine ⟨_, hm, rfl, by simp [hdue], ?_, fun q d hd => ?_, _, _, rfl⟩
      · rw [hscene, hset, hdue, show Pos.ofWaiter .due = s.pos c.thread by rw [hpos, hw]; rfl,
          update_eq_self]
        exact h.scene
      · exact (h.fits q d ((hkeep _).2 ▸ hd)).congr (by rw [(hkeep _).1])
    · obtain rfl : (set (m₀.settle c.thread)).finish p = s' := by simpa [hasleep] using hst
      refine ⟨_, hm, rfl, by simp [hasleep], ?_, hfinish _, _, _, rfl⟩
      rw [scene_finish, hscene, hset, hasleep]
      exact h.scene.sleep (leaving_of hc)
  next hw =>
    cases hst
    refine ⟨m₀.requeue, fun hg => hg.requeue hw, rfl, by simp [Meet.requeue], ?_, hfinish _, _, _,
      rfl⟩
    have hwake : ((set m₀.requeue).wake c.thread).scene =
        { (set m₀.requeue).scene with runq := (set m₀.requeue).scene.runq ++ [c.thread] } := rfl
    rw [scene_finish, hwake, hscene, hset]
    exact h.scene.requeue (leaving_of hc) (.inr rfl)
  next => cases hst

theorem callback_step (h : Inv s) (hc : s.cb p = some c)
    (hst : callback s p c = some s') : Inv s' := by
  have hpc := h.fits p c hc
  have hnf := h.callback_not_free hc
  cases c with
  | yield t =>
    cases hst
    have hs : ((s.wake t).finish p).scene.Sound := by
      have hrun : update s.pos t .run = s.pos :=
        update_eq_iff.mpr ⟨by simp [pos, show s.pc t = .run from hpc], fun _ _ => rfl⟩
      rw [scene_finish]
      change Scene.Sound { s.scene with
        runq := s.runq ++ [t], leaving := update s.scene.leaving p none, pos := s.pos }
      rw [← hrun]
      exact h.scene.requeue (leaving_of hc) (.inl rfl)
    exact h.act ⟨⟨rfl, rfl, rfl, rfl, fun _ _ => rfl⟩, hnf, h.fits_finish rfl rfl, hs⟩
      (fun _ _ => id) (fun u => h.back t u) (h.plain t) t (fun _ _ => rfl) (h.pairs t)
      (fun _ => .inl)
  | join t u =>
    obtain ⟨m, hm, hp, hw, hs, hfits, hs'⟩ := h.callback_meet hc (s.join u) (s.setJoin u)
      (fun _ => rfl) (h.pos_setJoin hpc) (fun _ => ⟨rfl, rfl⟩)
      (by simp [pos, Cb.thread, show s.pc t = .join u from hpc]) hst
    exact h.callback_join hc hm hp hw hs hfits hs'
  | wait t =>
    obtain ⟨m, hm, hp, hw, hs, hfits, hs'⟩ := h.callback_meet hc (s.exit t) (s.setExit t)
      (fun _ => rfl) (pos_setExit hpc) (fun _ => ⟨rfl, rfl⟩)
      (by simp [pos, Cb.thread, show s.pc t = .wait from hpc]) hst
    exact h.callback_wait hc hm hp hw hs hfits hs'
  | exit t =>
    cases hst
    have hdead : s.pos t = .dead := by simp [pos, show s.pc t = .dead from hpc]
    have hs : ({ s with zombieq := s.zombieq ++ [t] }.finish p).scene.Sound := by
      rw [scene_finish]
      exact h.scene.bury (leaving_of hc) hdead
    exact h.act ⟨⟨rfl, rfl, rfl, rfl, fun _ _ => rfl⟩, hnf, h.fits_finish rfl rfl, hs⟩
      (fun _ _ => id) (fun u => h.back t u) (h.plain t) t (fun _ _ => rfl) (h.pairs t)
      (fun _ => .inl)

/-! ### The reaper -/

section
omit [DecidableEq P] [DecidableEq T]

theorem pos_of_resumed (hr : s.resumed p = true) (hon : s.cur p = some t) :
    s.pos t = .run ∨ s.pos t = .woken := by
  simp only [resumed, hon] at hr
  cases hpc : s.pc t with
  | run => simp [pos, hpc]
  | join u =>
    have hw : (s.join u).waiter = .woken := by simpa [hpc] using hr
    simp [pos, hpc, hw, Pos.ofWaiter]
  | wait =>
    have hw : (s.exit t).waiter = .woken := by simpa [hpc] using hr
    simp [pos, hpc, hw, Pos.ofWaiter]
  | _ => simp [hpc] at hr

theorem pc_of_pos (hpos : s.pos t = .run ∨ s.pos t = .dead) : s.pc t = .run ∨ s.pc t = .dead := by
  have hbusy : ∀ w, Pos.ofWaiter w ≠ .run ∧ Pos.ofWaiter w ≠ .dead := by
    intro w
    cases w <;> simp [Pos.ofWaiter]
  cases hpc : s.pc t with
  | run => exact .inl rfl
  | dead => exact .inr rfl
  | join u =>
    have := hbusy (s.join u).waiter
    simp only [pos, hpc] at hpos
    tauto
  | wait =>
    have := hbusy (s.exit t).waiter
    simp only [pos, hpc] at hpos
    tauto
  | _ => simp [pos, hpc] at hpos

end

omit [DecidableEq T] in
theorem scene_hand (s : State P T) (p : P) (x : Option (Hand T)) :
    State.scene { s with hand := update s.hand p x } =
      { s.scene with hand := update s.scene.hand p (x.map Hand.thread) } := by
  simp only [State.scene, comp_update]
  rfl

theorem reap_grab (h : Inv s) (hr : s.resumed p = true) (hh : s.hand p = none) {rest : List T}
    (hz : s.zombieq = t :: rest) :
    Inv { s with zombieq := rest, hand := update s.hand p (some (.free t)) } :=
  { h with
    scene := by
      have hhand : s.scene.hand p = none := by simp [State.scene, hh]
      have := h.scene.grab hz hhand fun j hj => pos_of_resumed hr hj
      rwa [scene_hand { s with zombieq := rest }]
    fits := fun q c hc => (h.fits q c hc).congr rfl
    pairs := h.pairs
    freed := by
      intro j hj
      refine (h.freed j hj).imp_right fun ⟨q, hq⟩ => ⟨q, ?_⟩
      have hqp : q ≠ p := by
        rintro rfl
        simp [hh] at hq
      simpa [hqp] using hq }

theorem reap_free (h : Inv s) (hh : s.hand p = some (.free t)) :
    Inv { s with
      freed := if s.extStack t then s.freed else update s.freed t true
      hand := update s.hand p (some (.put t)) } :=
  { h with
    scene := by
      rw [scene_hand { s with freed := if s.extStack t then s.freed else update s.freed t true }]
      have hhand : update s.scene.hand p (some t) = s.scene.hand :=
        update_eq_iff.mpr ⟨by simp [State.scene, hh, Hand.thread], fun _ _ => rfl⟩
      change Scene.Sound { s.scene with hand := update s.scene.hand p (some t) }
      rw [hhand]
      exact h.scene
    fits := fun q c hc => (h.fits q c hc).congr rfl
    pairs := h.pairs
    freed := by
      intro j hj
      by_cases hjt : j = t
      · exact .inr ⟨p, by simp [hjt]⟩
      · have hold : s.freed j = true := by
          cases hx : s.extStack t <;> simpa [hx, hjt] using hj
        refine (h.freed j hold).imp_right fun ⟨q, hq⟩ => ⟨q, ?_⟩
        have hqp : q ≠ p := by
          rintro rfl
          simp [hh] at hq
        simpa [hqp] using hq }

theorem reap_put (h : Inv s) (hh : s.hand p = some (.put t)) :
    Inv { s with freeq := s.freeq ++ [t], hand := update s.hand p none } :=
  have hat : s.scene.At t (.hand p) := by simp [Scene.At, State.scene, hh, Hand.thread]
  { h with
    scene := by
      rw [scene_hand { s with freeq := s.freeq ++ [t] }]
      exact h.scene.release hat
    fits := fun q c hc => (h.fits q c hc).congr rfl
    pairs := h.pairs
    slots := by
      intro j hj hjoin
      rcases List.mem_append.mp hj with hj | hj
      · exact h.slots j hj hjoin
      · obtain rfl := List.mem_singleton.mp hj
        have hpos : s.pos j = .dead := h.scene.fits j _ hat
        refine (pc_of_pos (.inr hpos)).resolve_left fun hrun => ?_
        simp [pos, hrun] at hpos
    freed := by
      intro j hj
      rcases h.freed j hj with hf | ⟨q, hq⟩
      · exact .inl (by simp [hf])
      · by_cases hqp : q = p
        · subst hqp
          obtain rfl : t = j := by simpa [hh] using hq
          exact .inl (by simp)
        · exact .inr ⟨q, by simpa [hqp] using hq⟩ }

/-! ### New threads -/

omit [DecidableEq P] in
theorem alone (h : Inv s) (hf : t ∈ s.freeq) (j : T) : ¬ (s.pc j = .join t ∨ s.pc j = .post t) := by
  intro hj
  obtain ⟨hjoin, -⟩ := h.back j t hj
  have hdead := h.slots t hf hjoin
  have hgone : s.side t = .gone := (h.pairs t hjoin).gone (by simp [face, hdead, Pc.own])
  rw [h.side_of hj] at hgone
  rcases hj with hj | hj <;> simp [hj, Pc.side] at hgone

omit [DecidableEq P] in
theorem create (h : Inv s) (hf : t ∈ s.freeq) (joinable extStack : Bool) :
    Inv (create s t joinable extStack) := by
  have halone := h.alone hf
  have hpc := pc_of_pos (h.scene.fits t .free hf)
  constructor
  case scene =>
    have hpos : (Join.create s t joinable extStack).pos = update s.pos t .run := by
      refine eq_update_iff.mpr ⟨by simp [pos, Join.create], fun j hj => ?_⟩
      refine pos_congr (by simp [Join.create, hj]) (fun u hu => ?_)
        (fun _ => by simp [Join.create, hj])
      have hut : u ≠ t := fun he => halone j (.inl (he ▸ hu))
      simp [Join.create, hut]
    have hscene : (Join.create s t joinable extStack).scene = { s.scene with
        freeq := s.freeq.erase t
        runq := s.runq ++ [t]
        pos := update s.pos t .run } := by
      rw [← hpos]
      rfl
    rw [hscene]
    exact h.scene.create hf
  case fits =>
    intro q c hc
    refine (h.fits q c hc).congr ?_
    have hne : c.thread ≠ t := fun he => h.callback_not_free hc (he ▸ hf)
    simp [Join.create, hne]
  case back =>
    intro j u hj
    have hjt : j ≠ t := by
      rintro rfl
      simp [Join.create] at hj
    have hj' : s.pc j = .join u ∨ s.pc j = .post u := by simpa [Join.create, hjt] using hj
    have hut : u ≠ t := fun he => halone j (he ▸ hj')
    simpa [Join.create, hut] using h.back j u hj'
  case pairs =>
    intro u hu
    by_cases hut : u = t
    · subst hut
      simpa [face, side, Join.create, Pc.own] using Pair.fresh u
    · have hold : s.joinable u = true := by simpa [Join.create, hut] using hu
      have hside : (Join.create s t joinable extStack).side u = s.side u := by
        simp only [side, Join.create, update_of_ne hut]
        cases hj : s.joiner u with
        | none => rfl
        | some j =>
          by_cases hjt : j = t
          · subst hjt
            rcases hpc with hpc | hpc <;> simp [hpc, Pc.side]
          · simp [hjt]
      have hpair := h.pairs u hold
      simp only [face, hside]
      simpa [face, Join.create, hut] using hpair
  case plain =>
    intro j hj
    by_cases hjt : j = t
    · subst hjt
      simp [Join.create]
    · simpa [Join.create, hjt] using h.plain j (by simpa [Join.create, hjt] using hj)
  case slots =>
    intro j hj hjoin
    obtain ⟨hjt, hj⟩ := h.scene.freeq.mem_erase_iff.mp hj
    have hold : s.joinable j = true := by simpa [Join.create, hjt] using hjoin
    simpa [Join.create, hjt] using h.slots j hj hold
  case freed =>
    intro j hj
    have hjt : j ≠ t := by
      rintro rfl
      simp [Join.create] at hj
    have hold : s.freed j = true := by simpa [Join.create, hjt] using hj
    exact (h.freed j hold).imp_left fun hm => h.scene.freeq.mem_erase_iff.mpr ⟨hjt, hm⟩
  case returned =>
    intro j hj
    have hjt : j ≠ t := by
      rintro rfl
      simp [Join.create] at hj
    simpa [Join.create, hjt] using h.returned j (by simpa [Join.create, hjt] using hj)

end Inv

end

end Librettos.Join
