/-
# `Core.JoinSafe` — what joining and reaping guarantee

The invariant of `Core.JoinInv` holds in every state of every run.  `join_protocol` draws
the conclusions.  A join returns only after its target has posted; a thread is reaped
only when no processor executes on its stack and its joiner has finished with it; and
neither side stays blocked once the other one has posted, for the processor that has to
put it on the run queue is one or two steps away from doing so.
-/
import Librettos.Core.JoinInv

namespace Librettos.Join

open Option Places Rendezvous State Trans

section
variable {P T : Type} [DecidableEq P] [DecidableEq T] {s s' : State P T} {p : P} {t u : T}

/-! ## The invariant holds -/

omit [DecidableEq P] in
theorem Init.inv (h : Init s) : Inv s := by
  have hpos : ∀ t, s.pos t = .run := fun t => by simp [pos, h.pc]
  constructor
  case scene =>
    constructor
    case once =>
      obtain ⟨g, hg⟩ := h.once
      refine ⟨fun t => (g t).elim .free fun x => x.elim .queued .on, fun t q => ?_⟩
      have hfree : t ∈ s.freeq ↔ g t = none := by simpa [eq_comm] using hg t none
      have hqueued : t ∈ s.runq ↔ g t = some none := by simpa [eq_comm] using hg t (some none)
      have hon : ∀ p, s.cur p = some t ↔ g t = some (some p) := fun p => by
        simpa [eq_comm] using hg t (some (some p))
      rcases hgt : g t with _ | _ | p <;> cases q <;>
        simp [Scene.At, scene, hfree, hqueued, hon, hgt, h.zombieq, h.cb, h.hand, hpos, eq_comm]
    case freeq => exact h.freeq
    case zombieq => simp [scene, h.zombieq]
    case runq => exact h.runq
    case fits =>
      intro t q hq
      rw [show s.scene.pos t = .run from hpos t]
      cases q with
      | zombie => simp [Scene.At, scene, h.zombieq] at hq
      | hand p => simp [Scene.At, scene, h.hand] at hq
      | asleep => simp [Scene.At, scene, hpos] at hq
      | _ => exact .inl rfl
    case calm => exact fun p t _ => .inr (.inl (hpos t))
  case fits => exact fun p c hc => by simp [h.cb] at hc
  case back => exact fun t u hu => by simp [h.pc] at hu
  case pairs => exact fun u hu => by simp [h.joinable] at hu
  case plain => exact fun t _ => by simp [h.pc]
  case slots => exact fun t _ hj => by simp [h.joinable] at hj
  case freed => exact fun t ht => .inl (h.freed t ht)
  case returned => exact fun u hu => by simp [h.returned] at hu

omit [DecidableEq P] in
theorem go_inv (h : Inv s) (hon : s.cur p = some t) (hr : s.ready p) (hst : go s t = some s') :
    Inv s' := by
  unfold go at hst
  split at hst
  next u hpc =>
    have hat : s.pc t = .join u ∨ s.pc t = .post u := .inl hpc
    have hgood : Good t (s.join u) := h.who_of hat ▸ (h.pairs u (h.back t u hat).1).join
    split at hst
    next hw =>
      cases hst
      exact h.go_join hon hr hpc (hgood.wait hw) rfl (s.join u).wait_waiter
    next hw =>
      cases hst
      simpa [Meet.resume] using h.go_join hon hr hpc (hgood.resume hw) rfl (.inr rfl)
    next => cases hst
  next u hpc =>
    split at hst
    next hp =>
      simp only at hst
      split at hst
      next hd =>
        cases hst
        exact h.go_ret hon hr hpc hp hd
      next hd =>
        cases hst
        exact h.go_call hon hr hpc hp hd
    next w hp =>
      cases hst
      exact h.go_wake hon hr hpc hp
    next => cases hst
  next hpc =>
    split at hst
    next hp =>
      cases hst
      exact h.go_exit hon hr hpc hp
    next w hp =>
      cases hst
      exact h.go_summon hon hr hpc hp
    next => cases hst
  next hpc =>
    have hgood : Good t (s.exit t) := (h.pairs t (h.joinable_of_exit (.inr hpc))).exit
    split at hst
    next hw =>
      cases hst
      exact h.go_wait hon hr hpc (hgood.wait hw) rfl (s.exit t).wait_waiter
    next hw =>
      cases hst
      simpa [Meet.resume] using h.go_wait hon hr hpc (hgood.resume hw) rfl (.inr rfl)
    next => cases hst
  all_goals simp at hst

theorem block_inv {next : Option T} (h : Inv s) (hon : s.cur p = some t) (hr : s.ready p)
    (hst : block s p t next = some s') : Inv s' := by
  unfold block at hst
  split at hst
  next u hpc =>
    obtain ⟨hw, hsw⟩ := ite_none_right_eq_some.mp hst
    exact h.block_join hon hr hpc hw hsw
  next hpc =>
    obtain ⟨hw, hsw⟩ := ite_none_right_eq_some.mp hst
    exact h.block_wait hon hr hpc hw hsw
  next hpc => exact h.block_bye hon hr hpc hst
  all_goals simp at hst

theorem reap_inv (h : Inv s) (hr : s.resumed p = true) (hst : reap s p = some s') : Inv s' := by
  unfold reap at hst
  split at hst
  next hh =>
    split at hst
    next => cases hst
    next t rest hz =>
      cases hst
      exact h.reap_grab hr hh hz
  next t hh =>
    cases hst
    exact h.reap_free hh
  next t hh =>
    cases hst
    exact h.reap_put hh

theorem step_inv (h : Inv s) (a : Act P T) (hst : step s a = some s') : Inv s' := by
  cases a with
  | create p t joinable extStack =>
    obtain ⟨hc, ⟨⟩⟩ := ite_none_right_eq_some.mp hst
    exact h.create hc.2 joinable extStack
  | join p u =>
    cases hon : s.cur p with
    | none => simp [step, hon] at hst
    | some t =>
      simp only [step, hon] at hst
      obtain ⟨hc, ⟨⟩⟩ := ite_none_right_eq_some.mp hst
      exact h.join_call hc.1 hc.2.1 hc.2.2
  | exit p =>
    cases hon : s.cur p with
    | none => simp [step, hon] at hst
    | some t =>
      simp only [step, hon] at hst
      obtain ⟨hc, ⟨⟩⟩ := ite_none_right_eq_some.mp hst
      exact h.exit_call hc
  | go p =>
    cases hon : s.cur p with
    | none => simp [step, hon] at hst
    | some t =>
      simp only [step, hon] at hst
      obtain ⟨hr, hgo⟩ := ite_none_right_eq_some.mp hst
      exact go_inv h hon hr hgo
  | yield p next =>
    cases hon : s.cur p with
    | none => simp [step, hon] at hst
    | some t =>
      simp only [step, hon] at hst
      obtain ⟨hc, hsw⟩ := ite_none_right_eq_some.mp hst
      exact h.yield hc hsw
  | block p next =>
    cases hon : s.cur p with
    | none => simp [step, hon] at hst
    | some t =>
      simp only [step, hon] at hst
      obtain ⟨hr, hb⟩ := ite_none_right_eq_some.mp hst
      exact block_inv h hon hr hb
  | dispatch p t =>
    obtain ⟨hc, ⟨⟩⟩ := ite_none_right_eq_some.mp hst
    exact h.dispatch hc.2.1 hc.2.2
  | callback p =>
    cases hc : s.cb p with
    | none => simp [step, hc] at hst
    | some c =>
      simp only [step, hc] at hst
      exact h.callback_step hc hst
  | reap p =>
    obtain ⟨hc, hreap⟩ := ite_none_right_eq_some.mp hst
    exact reap_inv h hc.2 hreap

theorem inv_reach (h : Reach step any Init s) : Inv s :=
  Reach.inv (fun _ => Init.inv) (fun _ a _ hi _ hst => step_inv hi a hst) h

/-! ## Who unblocks whom -/

/-- One processor, by its next step or two, puts `t` on the run queue. -/
def Soon (s : State P T) (t : T) : Prop :=
  ∃ (p : P) (acts : List (Act P T)) (s' : State P T),
    (acts = [.go p] ∨ acts = [.callback p] ∨ acts = [.callback p, .callback p]) ∧
      Trans.exec step s acts = some s' ∧ t ∈ s'.runq

section
omit [DecidableEq P]

theorem Inv.executes (h : Inv s) (hb : s.pos t = .busy) : ∃ p, s.cur p = some t ∧ s.ready p := by
  obtain ⟨q, hq⟩ := h.scene.place t
  have hfits := h.scene.fits t q hq
  rw [show s.scene.pos t = .busy from hb] at hfits
  cases q with
  | on p =>
    have hcalm := h.scene.calm p t hq
    rw [show s.scene.pos t = .busy from hb] at hcalm
    exact ⟨p, hq, by simpa [State.scene, State.ready] using hcalm⟩
  | _ => simp [Place.allows] at hfits

theorem Inv.left (h : Inv s) (hl : s.pos t = .leaving) : ∃ p c, s.cb p = some c ∧ c.thread = t := by
  obtain ⟨q, hq⟩ := h.scene.place t
  have hfits := h.scene.fits t q hq
  rw [show s.scene.pos t = .leaving from hl] at hfits
  cases q with
  | leaving p =>
    obtain ⟨c, hc, ht⟩ := map_eq_some_iff.mp hq
    exact ⟨p, c, hc, ht⟩
  | _ => simp [Place.allows] at hfits

theorem Inv.left_join (h : Inv s) (hpc : s.pc t = .join u) (hl : s.pos t = .leaving) :
    ∃ p, s.cb p = some (.join t u) := by
  obtain ⟨p, c, hc, rfl⟩ := h.left hl
  have hfits := h.fits p c hc
  cases c with
  | join t v =>
    obtain rfl : v = u := Pc.join.inj (hfits.symm.trans hpc)
    exact ⟨p, hc⟩
  | _ => exact absurd (hfits.symm.trans hpc) (by simp)

theorem Inv.left_wait (h : Inv s) (hpc : s.pc t = .wait) (hl : s.pos t = .leaving) :
    ∃ p, s.cb p = some (.wait t) := by
  obtain ⟨p, c, hc, rfl⟩ := h.left hl
  have hfits := h.fits p c hc
  cases c with
  | wait t => exact ⟨p, hc⟩
  | _ => exact absurd (hfits.symm.trans hpc) (by simp)

end

theorem soon_go (hon : s.cur p = some u) (hr : s.ready p)
    (hgo : ∃ s', go s u = some s' ∧ t ∈ s'.runq) : Soon s t := by
  obtain ⟨s', hgo, ht⟩ := hgo
  refine ⟨p, [.go p], s', .inl rfl, ?_, ht⟩
  have hstep : step s (.go p) = some s' := by simp [step, hon, hr, hgo]
  exact (exec_cons hstep []).trans rfl

theorem soon_callback {c : Cb T} (hc : s.cb p = some c)
    (hcb : ∃ s', callback s p c = some s' ∧ t ∈ s'.runq) : Soon s t := by
  obtain ⟨s', hcb, ht⟩ := hcb
  refine ⟨p, [.callback p], s', .inr (.inl rfl), ?_, ht⟩
  have hstep : step s (.callback p) = some s' := by simp [step, hc, hcb]
  exact (exec_cons hstep []).trans rfl

theorem soon_callback_twice (s₁ : State P T) {c : Cb T} (hc : s.cb p = some c)
    (hc₁ : s₁.cb p = some c) (hcb : callback s p c = some s₁)
    (hcb₁ : ∃ s', callback s₁ p c = some s' ∧ t ∈ s'.runq) : Soon s t := by
  obtain ⟨s', hcb₁, ht⟩ := hcb₁
  refine ⟨p, [.callback p, .callback p], s', .inr (.inr rfl), ?_, ht⟩
  have hstep : step s (.callback p) = some s₁ := by simp [step, hc, hcb]
  have hstep₁ : step s₁ (.callback p) = some s' := by simp [step, hc₁, hcb₁]
  exact (exec_cons hstep _).trans ((exec_cons hstep₁ []).trans rfl)

omit [DecidableEq P] [DecidableEq T] in
theorem done_of_leaving {m : Meet T} (h : Good t m) (hw : m.waiter = .leaving)
    (hp : m.poster ≠ .before) : m.poster = .done := by
  cases hx : m.poster with
  | before => exact absurd hx hp
  | waking w => simp [(h.waking hx).2] at hw
  | done => rfl

theorem Inv.join_soon (h : Inv s) (hpc : s.pc t = .join u) (hp : (s.join u).poster ≠ .before)
    (hw : (s.join u).waiter = .leaving ∨ (s.join u).waiter = .asleep ∨ (s.join u).waiter = .due) :
    Soon s t := by
  have hat : s.pc t = .join u ∨ s.pc t = .post u := .inl hpc
  have hpair := h.pairs u (h.back t u hat).1
  have hgood : Good t (s.join u) := h.who_of hat ▸ hpair.join
  have hpos : s.pos t = .ofWaiter (s.join u).waiter := by simp [pos, hpc]
  rcases hw with hw | hw | hw
  · -- its callback will find that the word is 1
    obtain ⟨p, hc⟩ := h.left_join hpc (by rw [hpos, hw]; rfl)
    have hdue := hgood.late hw (done_of_leaving hgood hw hp)
    exact soon_callback_twice (s.setJoin u ((s.join u).settle t)) hc hc
      (by simp [callback, hw, hdue])
      (by simp [callback, hdue, setJoin, finish, wake])
  · -- the exiting thread has found its address
    have hx := (hgood.sleeping hw).resolve_left hp
    have hown : (s.pc u).own = .exit := hpair.own_of_waking hx
    have hexit : s.pc u = .exit := by cases hu : s.pc u <;> simp [hu, Pc.own] at hown ⊢
    obtain ⟨p, hon, hr⟩ := h.executes (t := u) (by simp [pos, hexit])
    exact soon_go hon hr (by simp [go, hexit, hx, setPc, wake])
  · obtain ⟨p, hc⟩ := h.left_join hpc (by rw [hpos, hw]; rfl)
    exact soon_callback hc (by simp [callback, hw, finish, wake])

/-- The joiner has posted: the exiting thread will run. -/
theorem Inv.exit_soon (h : Inv s) (hpc : s.pc t = .wait) (hp : (s.exit t).poster ≠ .before)
    (hw : (s.exit t).waiter = .leaving ∨ (s.exit t).waiter = .asleep ∨ (s.exit t).waiter = .due) :
    Soon s t := by
  have hpair := h.pairs t (h.joinable_of_exit (.inr hpc))
  have hgood : Good t (s.exit t) := hpair.exit
  have hpos : s.pos t = .ofWaiter (s.exit t).waiter := by simp [pos, hpc]
  rcases hw with hw | hw | hw
  · obtain ⟨p, hc⟩ := h.left_wait hpc (by rw [hpos, hw]; rfl)
    have hdue := hgood.late hw (done_of_leaving hgood hw hp)
    exact soon_callback_twice (s.setExit t ((s.exit t).settle t)) hc hc
      (by simp [callback, hw, hdue])
      (by simp [callback, hdue, setExit, finish, wake])
  · have hx := (hgood.sleeping hw).resolve_left hp
    have hside : s.side t = .posting := hpair.side_of_waking hx
    obtain ⟨j, -, -, hpj⟩ := joiner_at (s := s) (u := t) (by simp [hside]) (by simp [hside])
    obtain ⟨p, hon, hr⟩ := h.executes (t := j) (by simp [pos, hpj hside])
    exact soon_go hon hr (by simp [go, hpj hside, hx, ret, setPc, wake])
  · obtain ⟨p, hc⟩ := h.left_wait hpc (by rw [hpos, hw]; rfl)
    exact soon_callback hc (by simp [callback, hw, finish, wake])

/-! ## The result -/

/-- The slot `t` is being reaped, or has been. -/
def Reaped (s : State P T) (t : T) : Prop :=
  t ∈ s.freeq ∨ s.freed t = true ∨ ∃ p, s.hand p = some (.free t) ∨ s.hand p = some (.put t)

omit [DecidableEq P] in
/-- A reaped slot is nowhere near a processor, and if it was joinable it is dead. -/
theorem Inv.reaped (h : Inv s) (ht : Reaped s t) :
    (∀ p, s.cur p ≠ some t) ∧ (∀ p c, s.cb p = some c → c.thread ≠ t) ∧
      (s.joinable t = true → s.pc t = .dead) := by
  have hplace : t ∈ s.freeq ∨ ∃ p, s.scene.At t (.hand p) := by
    rcases ht with hfree | hfreed | ⟨p, hp | hp⟩
    · exact .inl hfree
    · refine (h.freed t hfreed).imp_right fun ⟨p, hp⟩ => ⟨p, ?_⟩
      simp [Scene.At, State.scene, hp, Hand.thread]
    · exact .inr ⟨p, by simp [Scene.At, State.scene, hp, Hand.thread]⟩
    · exact .inr ⟨p, by simp [Scene.At, State.scene, hp, Hand.thread]⟩
  rcases hplace with hfree | ⟨q, hq⟩
  · have hat : s.scene.At t .free := hfree
    refine ⟨fun p hp => h.scene.off hat (by simp) hp rfl, fun p c hc he => ?_, h.slots t hfree⟩
    exact h.scene.apart hat (by simp) (he ▸ leaving_of hc)
  · refine ⟨fun p hp => h.scene.off hq (by simp) hp rfl, fun p c hc he => ?_, fun _ => ?_⟩
    · exact h.scene.apart hq (by simp) (he ▸ leaving_of hc)
    · have hdead : s.pos t = .dead := h.scene.fits t _ hq
      refine (pc_of_pos (.inr hdead)).resolve_left fun hrun => ?_
      simp [pos, hrun] at hdead

/-- **Joining and reaping.**  In every state of every run: a join that has returned has been
posted to by its target; a slot that is being reaped, or has been, is on no processor and in
no switch, and if it was joinable its join has returned and nobody is at it; and a joiner or
an exiting thread that is blocked although the other side has posted is about to be put on
the run queue. -/
theorem join_protocol (h : Reach step Trans.any Init s) :
    (∀ u, s.returned u = true → (s.join u).poster = .done) ∧
    (∀ t, Reaped s t →
      (∀ p, s.cur p ≠ some t) ∧ (∀ p c, s.cb p = some c → c.thread ≠ t) ∧
      (s.joinable t = true →
        s.returned t = true ∧ ∀ j, ¬ (s.pc j = .join t ∨ s.pc j = .post t))) ∧
    (∀ t u, s.pc t = .join u → (s.join u).poster ≠ .before → (s.join u).waiter.blocked = true →
      Soon s t) ∧
    ∀ t, s.pc t = .wait → (s.exit t).poster ≠ .before → (s.exit t).waiter.blocked = true →
      Soon s t := by
  have hi := inv_reach h
  refine ⟨fun u hu => ?_, fun t ht => ?_, fun t u hpc hp hw => ?_, fun t hpc hp hw => ?_⟩
  · have hpair := hi.pairs u (hi.returned u hu)
    exact hpair.join.posted (hpair.through_of_returned hu)
  · obtain ⟨hcur, hcb, hdead⟩ := hi.reaped ht
    refine ⟨hcur, hcb, fun hj => ?_⟩
    have hpair := hi.pairs t hj
    have hgone : s.side t = .gone := hpair.gone (by simp [face, hdead hj, Pc.own])
    refine ⟨hpair.returned_of_gone hgone, fun j hat => ?_⟩
    rw [hi.side_of hat] at hgone
    rcases hat with hat | hat <;> simp [hat, Pc.side] at hgone
  · exact hi.join_soon hpc hp (Waiter.blocked_iff.mp hw)
  · exact hi.exit_soon hpc hp (Waiter.blocked_iff.mp hw)

end

/-- One processor and two slots: thread 0 runs, slot 1 is free. -/
def boot : State Unit (Fin 2) where
  freeq := [1]
  zombieq := []
  runq := []
  cur _ := some 0
  cb _ := none
  hand _ := none
  pc _ := .run
  join _ := .init
  exit _ := .init
  joinable _ := false
  extStack _ := false
  freed t := t = 1
  joiner _ := none
  returned _ := false

theorem boot_init : Init boot where
  once := by
    refine ⟨fun t => if t = 1 then none else some (some ()), fun t x => ?_⟩
    fin_cases t <;> rcases x with _ | _ | ⟨⟩ <;> simp [boot]
  freeq := by simp [boot]
  runq := by simp [boot]
  zombieq := rfl
  cb _ := rfl
  hand _ := rfl
  pc _ := rfl
  joinable _ := rfl
  freed := by
    intro t ht
    have : t = 1 := by simpa [boot] using ht
    simp [boot, this]
  returned _ := rfl

/-- Thread 0 creates thread 1 and joins it; both waits are slow; thread 1 is reaped. -/
def joinRun : List (Act Unit (Fin 2)) :=
  [.create () 1 true false, .join () 1, .go (), .block () (some 1), .callback (),
    .exit (), .go (), .go (), .go (), .block () (some 0), .callback (),
    .go (), .go (), .go (), .yield () (some 1), .callback (),
    .go (), .block () (some 0), .callback (), .reap (), .reap (), .reap ()]

theorem join_protocol_slow : ∃ s : State Unit (Fin 2), Reach step Trans.any Init s ∧
    s.returned 1 = true ∧ (s.join 1).poster = .done ∧ s.freed 1 = true ∧ s.cur () ≠ some 1 := by
  obtain ⟨s, hs, hret, hfreed⟩ := any_finds step Init
    (fun s : State Unit (Fin 2) => s.returned 1 = true ∧ s.freed 1 = true) joinRun boot_init (by decide)
  obtain ⟨hposted, hreaped, -⟩ := join_protocol hs
  exact ⟨s, hs, hret, hposted 1 hret, hfreed, (hreaped 1 (.inr (.inl hfreed))).1 ()⟩

end Librettos.Join
