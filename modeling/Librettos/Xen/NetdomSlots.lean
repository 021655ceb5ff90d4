/-
# `Xen.NetdomSlots` — where the slot indices are

A slot index is on the free ring, on the available ring, in the hands of a sender
or in the hands of the receiver.  `Conserved` says that each index of a ring set is
in exactly one of these places, and never twice on a ring.

An end reads its pointer several times for one packet.  `Conserved` is kept by every
step of an end whose control point names one generation only (`TxPc.Even`,
`RxPc.Even`).  Where the pointers are replaced only while nobody holds an index
this is always so, and then reconnecting mixes no generations
(`generations_apart`).  The code does not see to that: `generations_mixed` is a
run in which a sender publishes an index in a ring set it does not come from.
-/
import Librettos.Xen.NetdomGens
import Librettos.Lib.Places

namespace Librettos.Netdom

open Function (update update_of_ne update_self)
open Places Trans

/-! ## Places -/

/-- Where a slot index can be. -/
inductive Place (S : Type)
  | free
  | avail
  | tx (x : S)
  | rx

/-- The index a sender has in its hands, with the generation of the free ring it came
from. -/
def TxPc.held : TxPc → Option (ℕ × ℕ)
  | .ptrBuf gd i _ | .zero gd _ i _ | .add gd _ i _ _ | .copy gd _ i _ _ _ | .halt gd _ i
  | .ptrEnq gd _ i | .enq gd _ _ i => some (gd, i)
  | _ => none

/-- The index the receiver has in its hands, with the generation of the available ring
it came from. -/
def RxPc.held : RxPc → Option (ℕ × ℕ)
  | .got gd i | .len gd _ i | .deliver gd _ i _ | .ptrGive gd i | .give gd _ i => some (gd, i)
  | _ => none

section
variable {S H : Type}
variable {ring : ℕ → Rings}

/-- The index `i` of the generation `g` is there. -/
def At (s : State S H) (g i : ℕ) : Place S → Prop
  | .free => i ∈ (s.ring g).free
  | .avail => i ∈ (s.ring g).avail
  | .tx x => (s.tx x).held = some (g, i)
  | .rx => s.rx.held = some (g, i)

/-- The indices of the generation `g` are each in one place, and on a ring once. -/
structure Conserved (s : State S H) (g : ℕ) : Prop where
  once : Once (· < ringSize) (At s g)
  free : (s.ring g).free.Nodup
  avail : (s.ring g).avail.Nodup

theorem Conserved.apart {s : State S H} {g i : ℕ} {p q : Place S} (hs : Conserved s g)
    (hp : At s g i p) (hne : p ≠ q) : ¬ At s g i q := hs.once.apart hp hne

theorem Conserved.same {s s' : State S H} {g : ℕ} (hs : Conserved s g)
    (hfree : (s'.ring g).free = (s.ring g).free) (havail : (s'.ring g).avail = (s.ring g).avail)
    (htx : ∀ x i, (s'.tx x).held = some (g, i) ↔ (s.tx x).held = some (g, i))
    (hrx : ∀ i, s'.rx.held = some (g, i) ↔ s.rx.held = some (g, i)) : Conserved s' g where
  once := by
    refine hs.once.congr fun i p => ?_
    cases p with
    | free => simp only [At, hfree]
    | avail => simp only [At, havail]
    | tx x => simp only [At, htx]
    | rx => simp only [At, hrx]
  free := hfree ▸ hs.free
  avail := havail ▸ hs.avail

theorem conserved_new {s : State S H} {g : ℕ} {buf : Bytes.Mem} (hring : s.ring g = .init buf)
    (htx : ∀ x i, (s.tx x).held ≠ some (g, i)) (hrx : ∀ i, s.rx.held ≠ some (g, i)) :
    Conserved s g := by
  have hperm : (Lfring.fullQueue ringOrder).Perm (List.range ringSize) :=
    Lfring.fullIdx_perm (by decide) (by decide)
  constructor
  case once =>
    refine ⟨fun _ => .free, fun i p => ?_⟩
    cases p with
    | free => simp [At, hring, Rings.init, hperm.mem_iff]
    | avail => simp [At, hring, Rings.init]
    | tx x => simp [At, htx]
    | rx => simp [At, hrx]
  case free =>
    simpa only [hring, Rings.init] using hperm.nodup_iff.mpr List.nodup_range
  case avail =>
    rw [hring]
    exact List.nodup_nil

end

/-! ## The senders' steps -/

/-- The steps of a sender, by what they do with an index. -/
inductive TxSlots (ring : ℕ → Rings) (pc : TxPc) (o : TxOut) : Prop
  | keep (hfree : ∀ g, (o.ring g).free = (ring g).free)
      (havail : ∀ g, (o.ring g).avail = (ring g).avail) (hheld : o.pc.held = pc.held)
  | take (g i : ℕ) (rest : List ℕ) (hfree : (ring g).free = i :: rest)
      (hring : o.ring = onRing ring g fun r => { r with free := rest })
      (hheld : pc.held = none) (hheld' : o.pc.held = some (g, i))
  | put (g i : ℕ) (p : List UInt8)
      (hring : o.ring = onRing ring g fun r =>
        { r with avail := r.avail ++ [i], entered := r.entered ++ [p] })
      (hheld : pc.held = some (g, i)) (hheld' : o.pc.held = none)

/-- A control point that names one generation only. -/
def TxPc.Even (pc : TxPc) : Prop := ∀ g ∈ pc.gens, ∀ g' ∈ pc.gens, g' = g

theorem onRing_free {g : ℕ} {f : Rings → Rings} (hf : ∀ r, (f r).free = r.free)
    (g' : ℕ) : (onRing ring g f g').free = (ring g').free := by
  by_cases h : g' = g
  · simp [onRing, h, hf]
  · simp [onRing, update_of_ne h]

theorem onRing_avail {g : ℕ} {f : Rings → Rings}
    (hf : ∀ r, (f r).avail = r.avail) (g' : ℕ) : (onRing ring g f g').avail = (ring g').avail := by
  by_cases h : g' = g
  · simp [onRing, h, hf]
  · simp [onRing, update_of_ne h]

theorem txGo_slots {txp : Option ℕ} {flag : ℕ → ℤ} {pkt : List UInt8}
    {pc : TxPc} {o : TxOut} (h : txGo txp ring flag pkt pc = some o) (heven : pc.Even) :
    TxSlots ring pc o := by
  cases pc with
  | idle | halt => cases h
  | check c => cases txp <;> cases h <;> exact .keep (fun _ => rfl) (fun _ => rfl) rfl
  | ptrDeq | ptrBuf | ptrEnq | ptrLook =>
    obtain ⟨g', rfl, rfl⟩ := Option.map_eq_some_iff.mp h
    exact .keep (fun _ => rfl) (fun _ => rfl) rfl
  | deq g c =>
    simp only [txGo] at h
    split at h <;> cases h
    · exact .keep (fun _ => rfl) (fun _ => rfl) rfl
    · next i rest hfree => exact .take g i rest hfree rfl rfl rfl
  | zero | copy =>
    cases h
    exact .keep (onRing_free fun _ => rfl) (onRing_avail fun _ => rfl) rfl
  | add gd gb i off c =>
    cases c with
    | nil =>
      cases h
      exact .keep (fun _ => rfl) (fun _ => rfl) rfl
    | cons b c =>
      simp only [txGo] at h
      split at h <;> cases h <;>
        exact .keep (onRing_free fun _ => rfl) (onRing_avail fun _ => rfl) rfl
  | enq gd gb g i =>
    cases h
    obtain rfl : gd = g := heven g (by simp [TxPc.gens]) gd (by simp [TxPc.gens])
    exact .put gd i pkt rfl rfl rfl
  | look g =>
    cases h
    by_cases hf : flag g ≤ 0
    · exact .keep (fun _ => rfl) (fun _ => rfl) (by simp [hf, TxPc.held])
    · exact .keep (fun _ => rfl) (fun _ => rfl) (by simp [hf, TxPc.held])
  | notify =>
    cases h
    exact .keep (fun _ => rfl) (fun _ => rfl) rfl

/-! ## The receiver's steps -/

/-- The steps of the receiver, by what they do with an index. -/
inductive RxSlots {H : Type} (ring : ℕ → Rings) (pc : RxPc) (o : RxOut H) : Prop
  | keep (hfree : ∀ g, (o.ring g).free = (ring g).free)
      (havail : ∀ g, (o.ring g).avail = (ring g).avail) (hheld : o.pc.held = pc.held)
  | take (g i : ℕ) (rest : List ℕ) (havail : (ring g).avail = i :: rest)
      (hring : o.ring = onRing ring g fun r => { r with avail := rest })
      (hheld : pc.held = none) (hheld' : o.pc.held = some (g, i))
  | give (g i : ℕ) (hring : o.ring = onRing ring g fun r => { r with free := r.free ++ [i] })
      (hheld : pc.held = some (g, i)) (hheld' : o.pc.held = none)

def RxPc.Even (pc : RxPc) : Prop := ∀ g ∈ pc.gens, ∀ g' ∈ pc.gens, g' = g

theorem rxGo_slots {H : Type} {side : Side} {term : Bool} {rxp : ℕ}
    {bed : Sleeper.Bed ℕ H} {pc : RxPc} {o : RxOut H}
    (h : rxGo side term rxp ring bed pc = some o) (heven : pc.Even) : RxSlots ring pc o := by
  cases pc with
  | done => cases h
  | start | asleep =>
    cases h
    by_cases hs : side = .frontend ∧ term = true
    · exact .keep (fun _ => rfl) (fun _ => rfl) (by simp [hs, RxPc.held])
    · exact .keep (fun _ => rfl) (fun _ => rfl) (by simp [hs, RxPc.held])
  | deq f g =>
    simp only [rxGo] at h
    split at h <;> cases h
    · by_cases hf : f + 1 < 256
      · exact .keep (fun _ => rfl) (fun _ => rfl) (by simp [hf, RxPc.held])
      · exact .keep (fun _ => rfl) (fun _ => rfl) (by simp [hf, RxPc.held])
    · next i rest havail => exact .take g i rest havail rfl rfl rfl
  | deqLast g =>
    simp only [rxGo] at h
    split at h <;> cases h
    · exact .keep (fun _ => rfl) (fun _ => rfl) rfl
    · next i rest havail => exact .take g i rest havail rfl rfl rfl
  | deliver gd g i n =>
    cases h
    exact .keep (onRing_free fun _ => rfl) (onRing_avail fun _ => rfl) rfl
  | give gd g i =>
    cases h
    obtain rfl : gd = g := heven g (by simp [RxPc.gens]) gd (by simp [RxPc.gens])
    exact .give gd i rfl rfl rfl
  | _ =>
    cases h
    exact .keep (fun _ => rfl) (fun _ => rfl) rfl

/-! ## Conservation -/

section
variable {S H : Type}
variable {s s' : State S H} {g k i : ℕ}

/-- The index `i` of the generation `k` goes from one place to another. -/
theorem Conserved.move {p q : Place S} (hs : Conserved s g) (hp : At s k i p)
    (he : ∀ j r, At s' g j r ↔ At s g j r ∧ ¬ (g = k ∧ j = i ∧ r = p) ∨ g = k ∧ j = i ∧ r = q)
    (hfree : (s'.ring g).free.Nodup) (havail : (s'.ring g).avail.Nodup) : Conserved s' g := by
  refine ⟨?_, hfree, havail⟩
  by_cases hg : g = k
  · subst hg
    exact hs.once.move hp fun j r => by simpa using he j r
  · exact hs.once.congr fun j r => by simpa [hg] using he j r

theorem onRing_of {P : Rings → Prop} {ring : ℕ → Rings} {f : Rings → Rings} (h : P (ring g))
    (hf : g = k → P (f (ring g))) : P (onRing ring k f g) := by
  by_cases hg : g = k
  · simpa [onRing, hg] using hg ▸ hf hg
  · simpa [onRing, hg] using h

theorem mem_of_taken {l rest : List ℕ} (h : l = i :: rest) (hl : l.Nodup) (j : ℕ) :
    j ∈ rest ↔ j ∈ l ∧ j ≠ i := by
  subst h
  have hnot : j ∈ rest → j ≠ i := fun hj hji => (List.nodup_cons.mp hl).1 (hji ▸ hj)
  simp only [List.mem_cons]
  tauto

variable [DecidableEq S]

section
variable (hs : Conserved s g)
include hs

theorem Conserved.takeFree {x : S} {rest : List ℕ} (hfree : (s.ring k).free = i :: rest)
    (hring : s'.ring = onRing s.ring k fun r => { r with free := rest })
    (hother : ∀ y, y ≠ x → (s'.tx y).held = (s.tx y).held)
    (hheld : (s.tx x).held = none) (hheld' : (s'.tx x).held = some (k, i)) (hrx : s'.rx = s.rx) :
    Conserved s' g := by
  refine hs.move (k := k) (i := i) (p := .free) (q := .tx x) (by simp [At, hfree]) (fun j q => ?_) ?_
    (by simpa [hring, onRing_avail] using hs.avail)
  · cases q with
    | free =>
      by_cases hg : g = k
      · subst hg
        simp [At, hring, onRing, mem_of_taken hfree hs.free]
      · simp [At, hring, onRing, hg]
    | avail => simp [At, hring, onRing_avail]
    | tx y =>
      by_cases hy : y = x
      · simp [At, hy, hheld, hheld', eq_comm]
      · simp [At, hother y hy, hy]
    | rx => simp [At, hrx]
  · rw [hring]
    refine onRing_of (P := fun r => r.free.Nodup) hs.free ?_
    rintro rfl
    exact (hfree ▸ hs.free).of_cons

theorem Conserved.putAvail {x : S} {p : List UInt8} (hring : s'.ring = onRing s.ring k fun r =>
      { r with avail := r.avail ++ [i], entered := r.entered ++ [p] })
    (hother : ∀ y, y ≠ x → (s'.tx y).held = (s.tx y).held)
    (hheld : (s.tx x).held = some (k, i)) (hheld' : (s'.tx x).held = none) (hrx : s'.rx = s.rx) :
    Conserved s' g := by
  refine hs.move (p := .tx x) (q := .avail) hheld (fun j q => ?_)
    (by simpa [hring, onRing_free] using hs.free) ?_
  · cases q with
    | free => simp [At, hring, onRing_free]
    | avail => by_cases hg : g = k <;> simp [At, hring, onRing, hg]
    | tx y =>
      by_cases hy : y = x
      · simp [At, hy, hheld, hheld', eq_comm]
      · simp [At, hother y hy, hy]
    | rx => simp [At, hrx]
  · rw [hring]
    refine onRing_of (P := fun r => r.avail.Nodup) hs.avail ?_
    rintro rfl
    simpa using hs.avail.concat (hs.apart (p := .tx x) (q := .avail) hheld (by simp))

theorem Conserved.tx {x : S} {o : TxOut} (ht : TxSlots s.ring (s.tx x) o) (hring : s'.ring = o.ring)
    (htx : s'.tx = update s.tx x o.pc) (hrx : s'.rx = s.rx) : Conserved s' g := by
  have hother : ∀ y, y ≠ x → (s'.tx y).held = (s.tx y).held := fun y hy => by
    rw [htx, update_of_ne hy]
  have hself : (s'.tx x).held = o.pc.held := by rw [htx, update_self]
  cases ht with
  | keep hfree havail hheld =>
    refine hs.same (by rw [hring, hfree]) (by rw [hring, havail]) (fun y j => ?_) (by simp [hrx])
    by_cases hy : y = x
    · rw [hy, hself, hheld]
    · rw [hother y hy]
  | take g' i rest hfree hr hheld hheld' =>
    exact hs.takeFree hfree (hring.trans hr) hother hheld (hself.trans hheld') hrx
  | put g' i p hr hheld hheld' =>
    exact hs.putAvail (hring.trans hr) hother hheld (hself.trans hheld') hrx

omit [DecidableEq S] in
/-- The receiver takes an index from the available ring `k` or gives one back to the
free ring `k`. -/
theorem Conserved.rx {o : RxOut H}
    (hr : RxSlots s.ring s.rx o) (hring : s'.ring = o.ring) (hrx : s'.rx = o.pc)
    (htx : s'.tx = s.tx) : Conserved s' g := by
  have hheldrx : s'.rx.held = o.pc.held := by rw [hrx]
  cases hr with
  | keep hfree havail hheld =>
    exact hs.same (by rw [hring, hfree]) (by rw [hring, havail]) (by simp [htx])
      (by simp [hheldrx, hheld])
  | take k i rest havail hr hheld hheld' =>
    rw [hr] at hring
    rw [hheld'] at hheldrx
    refine hs.move (k := k) (i := i) (p := .avail) (q := .rx) (by simp [At, havail]) (fun j q => ?_)
      (by simpa [hring, onRing_free] using hs.free) ?_
    · cases q with
      | free => simp [At, hring, onRing_free]
      | avail =>
        by_cases hg : g = k
        · subst hg
          simp [At, hring, onRing, mem_of_taken havail hs.avail]
        · simp [At, hring, onRing, hg]
      | tx y => simp [At, htx]
      | rx => simp [At, hheld, hheldrx, eq_comm]
    · rw [hring]
      refine onRing_of (P := fun r => r.avail.Nodup) hs.avail ?_
      rintro rfl
      exact (havail ▸ hs.avail).of_cons
  | give k i hr hheld hheld' =>
    rw [hr] at hring
    rw [hheld'] at hheldrx
    refine hs.move (p := .rx) (q := .free) hheld (fun j q => ?_) ?_
      (by simpa [hring, onRing_avail] using hs.avail)
    · cases q with
      | free => by_cases hg : g = k <;> simp [At, hring, onRing, hg]
      | avail => simp [At, hring, onRing_avail]
      | tx y => simp [At, htx]
      | rx => simp [At, hheld, hheldrx, eq_comm]
    · rw [hring]
      refine onRing_of (P := fun r => r.free.Nodup) hs.free ?_
      rintro rfl
      simpa using hs.free.concat (hs.apart (p := .rx) (q := .free) hheld (by simp))

end

end

/-! ## Reconnecting -/

/-- A sender between its read of the pointer for the free ring and its enqueue. -/
def TxPc.busy : TxPc → Bool
  | .deq _ _ | .ptrBuf _ _ _ | .zero _ _ _ _ | .add _ _ _ _ _ | .copy _ _ _ _ _ _ | .halt _ _ _
  | .ptrEnq _ _ _ | .enq _ _ _ _ => true
  | _ => false

/-- The receiver between its read of the pointer for the available ring and its giving
the index back. -/
def RxPc.busy : RxPc → Bool
  | .deq _ _ | .got _ _ | .len _ _ _ | .deliver _ _ _ _ | .ptrGive _ _ | .give _ _ _
  | .deqLast _ => true
  | _ => false

theorem TxPc.busy_of_held {pc : TxPc} {g i : ℕ} (h : pc.held = some (g, i)) :
    pc.busy = true ∧ g ∈ pc.gens := by
  cases pc <;> simp_all [TxPc.held, TxPc.busy, TxPc.gens]

theorem TxPc.gens_ne_nil_of_busy {pc : TxPc} (h : pc.busy = true) : pc.gens ≠ [] := by
  cases pc <;> simp_all [TxPc.busy, TxPc.gens]

theorem RxPc.busy_of_held {pc : RxPc} {g i : ℕ} (h : pc.held = some (g, i)) :
    pc.busy = true ∧ g ∈ pc.gens := by
  cases pc <;> simp_all [RxPc.held, RxPc.busy, RxPc.gens]

theorem txGo_busy {txp : Option ℕ} {flag : ℕ → ℤ} {pkt : List UInt8}
    {pc : TxPc} {o : TxOut} (h : txGo txp ring flag pkt pc = some o) (hb : o.pc.busy = true) :
    pc.busy = true ∨ pc.gens = [] := by
  cases pc with
  | look g =>
    cases h
    by_cases hf : flag g ≤ 0 <;> simp [TxPc.busy, hf] at hb
  | _ => simp [TxPc.busy, TxPc.gens]

theorem rxGo_busy {H : Type} {side : Side} {term : Bool} {rxp : ℕ}
    {bed : Sleeper.Bed ℕ H} {pc : RxPc} {o : RxOut H} (h : rxGo side term rxp ring bed pc = some o)
    (hb : o.pc.busy = true) : pc.busy = true ∨ pc.gens = [] := by
  cases pc with
  | up g | store g =>
    cases h
    cases hb
  | _ => simp [RxPc.busy, RxPc.gens]

section
variable {S H : Type} [DecidableEq S] [DecidableEq H]
variable {s s' : State S H}

/-- The reconnecting code changes an end's pointer only while that end is not busy. -/
def steady (s : State S H) : Act S H → Prop
  | .setTx => s.txp = some (s.gen - 1) ∨ ∀ x, (s.tx x).busy = false
  | .setRx => s.rxp = s.gen - 1 ∨ s.rx.busy = false
  | _ => True

instance [Fintype S] (s : State S H) : (a : Act S H) → Decidable (steady s a)
  | .setTx => inferInstanceAs (Decidable (s.txp = some (s.gen - 1) ∨ ∀ x, (s.tx x).busy = false))
  | .setRx => inferInstanceAs (Decidable (s.rxp = s.gen - 1 ∨ s.rx.busy = false))
  | .send _ _ | .tx _ | .rx | .callback | .requeue | .resume | .event | .deliver _ | .handler _
  | .wake _ | .terminate _ | .bind | .unmask | .newRings => isTrue trivial

/-- A busy end is on the ring set its pointer points to. -/
structure Aligned (s : State S H) : Prop where
  gen : 0 < s.gen
  txp : ∀ g, s.txp = some g → g < s.gen
  rxp : s.rxp < s.gen
  tx : ∀ x, (s.tx x).busy = true → ∀ g ∈ (s.tx x).gens, s.txp = some g
  rx : s.rx.busy = true → ∀ g ∈ s.rx.gens, g = s.rxp

omit [DecidableEq S] [DecidableEq H] in
theorem aligned_init (h : Init s) : Aligned s where
  gen := by simp [h.gen]
  txp _ hg := absurd (h.txp.symm.trans hg) (by simp)
  rxp := by simp [h.rxp, h.gen]
  tx x := by simp [h.tx x, TxPc.busy]
  rx := by simp [h.rx, RxPc.busy]

theorem Aligned.step {side : Side} {a : Act S H} (hs : Aligned s)
    (hok : steady s a) (h : step side s a = some s') : Aligned s' := by
  cases step_moved h with
  | send x c =>
    refine { hs with tx := fun y => ?_ }
    by_cases hy : y = x
    · simp [hy, TxPc.busy]
    · simpa [update_of_ne hy] using hs.tx y
  | tx x h =>
    obtain ⟨o, _, _, hgo, rfl, -⟩ := stepTx_cases h
    refine { hs with tx := fun y hb g hg => ?_ }
    by_cases hy : y = x
    · simp only [hy, update_self] at hb hg
      rcases txGo_gens hgo hg with hold | hnew
      · rcases txGo_busy hgo hb with hb' | hnil
        · exact hs.tx x hb' g hold
        · exact absurd hold (by simp [hnil])
      · exact hnew
    · simp only [update_of_ne hy] at hb hg
      exact hs.tx y hb g hg
  | rx h =>
    obtain ⟨-, o, hgo, rfl⟩ := stepRx_cases h
    refine { hs with rx := fun hb g hg => ?_ }
    rcases rxGo_gens hgo hg with hold | hnew
    · rcases rxGo_busy hgo hb with hb' | hnil
      · exact hs.rx hb' g hold
      · exact absurd hold (by simp [hnil])
    · exact hnew
  | callback h => obtain ⟨-, ⟨-, rfl⟩ | ⟨g, -, rfl⟩⟩ := stepCallback_cases h <;> exact { hs with }
  | handler x h => obtain ⟨-, rfl⟩ | ⟨g, -, rfl⟩ := stepHandler_cases h <;> exact { hs with }
  | newRings =>
    exact ⟨Nat.succ_pos _, fun g hg => (hs.txp g hg).trans (Nat.lt_succ_self _),
      hs.rxp.trans (Nat.lt_succ_self _), hs.tx, hs.rx⟩
  | setTx =>
    refine { hs with txp := fun g hg => ?_, tx := fun x hb g hg => ?_ }
    · cases hg
      exact Nat.sub_lt hs.gen one_pos
    · rcases hok with hsame | hnot
      · exact hsame.symm.trans (hs.tx x hb g hg)
      · exact absurd hb (by simp [hnot x])
  | setRx =>
    refine { hs with rxp := Nat.sub_lt hs.gen one_pos, rx := fun hb g hg => ?_ }
    rcases hok with hsame | hnot
    · exact (hs.rx hb g hg).trans hsame
    · exact absurd hb (by simp [hnot])
  | event | deliver | terminate | requeue | resume | wake | bind | unmask => exact { hs with }

section
omit [DecidableEq S] [DecidableEq H]

theorem Aligned.tx_even (hs : Aligned s) (x : S) : (s.tx x).Even := by
  intro g hg g' hg'
  cases hb : (s.tx x).busy with
  | true => exact Option.some.inj ((hs.tx x hb g' hg').symm.trans (hs.tx x hb g hg))
  | false =>
    cases hpc : s.tx x <;> simp_all [TxPc.busy, TxPc.gens]

theorem Aligned.rx_even (hs : Aligned s) : s.rx.Even := by
  intro g hg g' hg'
  cases hb : s.rx.busy with
  | true => exact (hs.rx hb g' hg').trans (hs.rx hb g hg).symm
  | false =>
    cases hpc : s.rx <;> simp_all [RxPc.busy, RxPc.gens]

end

/-- What a step that makes no ring set keeps, if the ends' control points name one
generation each. -/
theorem Conserved.step {side : Side} {a : Act S H} {g : ℕ} (hs : Conserved s g)
    (htx : ∀ x, (s.tx x).Even) (hrx : s.rx.Even) (hnew : a = .newRings → g ≠ s.gen)
    (h : step side s a = some s') : Conserved s' g := by
  cases step_moved h with
  | send x c hidle =>
    refine hs.same rfl rfl (fun y j => ?_) fun _ => Iff.rfl
    by_cases hy : y = x
    · simp [hy, hidle, TxPc.held]
    · simp [update_of_ne hy]
  | tx x h =>
    obtain ⟨o, _, _, hgo, rfl, -⟩ := stepTx_cases h
    exact hs.tx (txGo_slots hgo (htx x)) rfl rfl rfl
  | rx h =>
    obtain ⟨-, o, hgo, rfl⟩ := stepRx_cases h
    exact hs.rx (rxGo_slots hgo hrx) rfl rfl rfl
  | callback h =>
    obtain ⟨-, ⟨-, rfl⟩ | ⟨g, -, rfl⟩⟩ := stepCallback_cases h <;>
      exact hs.same rfl rfl (fun _ _ => Iff.rfl) fun _ => Iff.rfl
  | handler x h =>
    obtain ⟨-, rfl⟩ | ⟨g, -, rfl⟩ := stepHandler_cases h <;>
      exact hs.same rfl rfl (fun _ _ => Iff.rfl) fun _ => Iff.rfl
  | newRings =>
    have hg := hnew rfl
    exact hs.same (by simp [update_of_ne hg]) (by simp [update_of_ne hg])
      (fun _ _ => Iff.rfl) fun _ => Iff.rfl
  | event | deliver | terminate | requeue | resume | wake | bind | unmask | setTx | setRx =>
    exact hs.same rfl rfl (fun _ _ => Iff.rfl) fun _ => Iff.rfl

omit [DecidableEq S] [DecidableEq H] in
theorem conserved_init (h : Init s) : Conserved s 0 :=
  conserved_new h.ring (by simp [h.tx, TxPc.held]) (by simp [h.rx, RxPc.held])

theorem gen_step {side : Side} {a : Act S H} (h : step side s a = some s')
    (hne : a ≠ .newRings) : s'.gen = s.gen := by
  cases step_moved h with
  | tx x h =>
    obtain ⟨o, _, _, -, rfl, -⟩ := stepTx_cases h
    rfl
  | rx h =>
    obtain ⟨-, o, -, rfl⟩ := stepRx_cases h
    rfl
  | callback h => obtain ⟨-, ⟨-, rfl⟩ | ⟨g, -, rfl⟩⟩ := stepCallback_cases h <;> rfl
  | handler x h => obtain ⟨-, rfl⟩ | ⟨g, -, rfl⟩ := stepHandler_cases h <;> rfl
  | newRings => exact absurd rfl hne
  | _ => rfl

/-- **Generations apart.**  In every run in which the pointers are replaced only while
their ends are not busy, the indices of every ring set made so far are each in one
place, an index goes back to or is published in the ring set it came from, and it is
published in the ring set whose buffer was filled. -/
theorem generations_apart {side : Side} {s : State S H}
    (hs : Reach (step side) steady Init s) :
    (∀ g < s.gen, Conserved s g) ∧
    (∀ x gd gb g i, s.tx x = .enq gd gb g i → gd = g ∧ gb = g) ∧
    ∀ gd g i, s.rx = .give gd g i → gd = g := by
  have hinv : Aligned s ∧ ∀ g < s.gen, Conserved s g := by
    refine Reach.inv (I := fun s => Aligned s ∧ ∀ g < s.gen, Conserved s g) (fun s h0 => ?_)
      (fun s a s' h1 hok hstep => ⟨h1.1.step hok hstep, fun g hg => ?_⟩) hs
    · refine ⟨aligned_init h0, fun g hg => ?_⟩
      obtain rfl : g = 0 := by
        rw [h0.gen] at hg
        omega
      exact conserved_init h0
    · obtain ⟨hal, hcons⟩ := h1
      by_cases hlt : g < s.gen
      · exact (hcons g hlt).step hal.tx_even hal.rx_even (fun _ => by omega) hstep
      · -- the step has made the ring set `g`, of which nobody can have heard
        by_cases hnew : a = .newRings
        · subst hnew
          cases step_moved hstep with
          | newRings =>
              obtain rfl : g = s.gen := by
                change g < s.gen + 1 at hg
                omega
              refine conserved_new (update_self s.gen _ s.ring) (fun x i hi => ?_)
                fun i hi => ?_
              · obtain ⟨hb, hmem⟩ := TxPc.busy_of_held hi
                exact hlt (hal.txp _ (hal.tx x hb _ hmem))
              · obtain ⟨hb, hmem⟩ := RxPc.busy_of_held hi
                exact hlt ((hal.rx hb _ hmem).trans_lt hal.rxp)
        · exact absurd hg (by rwa [gen_step hstep hnew])
  obtain ⟨hal, hcons⟩ := hinv
  refine ⟨hcons, fun x gd gb g i hpc => ?_, fun gd g i hpc => ?_⟩
  · have heven := hal.tx_even x
    rw [hpc] at heven
    exact ⟨heven g (by simp [TxPc.gens]) gd (by simp [TxPc.gens]),
      heven g (by simp [TxPc.gens]) gb (by simp [TxPc.gens])⟩
  · have heven := hal.rx_even
    rw [hpc] at heven
    exact heven g (by simp [RxPc.gens]) gd (by simp [RxPc.gens])

end

/-- A packet of two mbufs is published, the ring set is replaced, and the next packet is on
its way. -/
theorem generations_apart_twice : ∃ s : State Unit Unit,
    Reach (step .backend) steady Init s ∧ s.gen = 2 ∧ (s.tx ()).held = some (1, 0) ∧
    (s.ring 0).entered = [[1, 2, 3]] ∧ ∀ g < 2, Conserved s g := by
  obtain ⟨s, hs, hgen, hheld, hsent⟩ := run_finds (step .backend) steady Init
    (fun s => s.gen = 2 ∧ (s.tx ()).held = some (1, 0) ∧ (s.ring 0).entered = [[1, 2, 3]])
    ([.setTx, .send () [[1, 2], [3]]] ++ List.replicate 12 (.tx ()) ++
      [.newRings, .setTx, .tx (), .tx (), .tx (), .send () [[4]], .tx (), .tx (), .tx ()])
    (boot_init .open) (by decide +kernel) (by decide +kernel)
  exact ⟨s, hs, hgen, hheld, hsent, fun g hg => (generations_apart hs).1 g (by rwa [hgen])⟩

/-- A sender takes an index, the ring set is replaced, and the sender goes on. -/
def mixing : List (Act Unit Unit) :=
  [.setTx, .send () [], .tx (), .tx (), .tx (), .newRings, .setTx, .tx (), .tx (), .tx (), .tx (), .tx ()]

/-- **Generations mixed.**  The index `0` of the first ring set is published in the
second: there it is on both rings, and in the first it is nowhere. -/
theorem generations_mixed : ∃ s : State Unit Unit, Reach (step .backend) Trans.any Init s ∧
    At s 1 0 .free ∧ At s 1 0 .avail ∧ ∀ p, ¬ At s 0 0 p := by
  obtain ⟨s, hs, h1, h2, h3, h4, h5, h6⟩ := any_finds (step .backend) Init
    (fun s => 0 ∈ (s.ring 1).free ∧ 0 ∈ (s.ring 1).avail ∧ 0 ∉ (s.ring 0).free ∧
      0 ∉ (s.ring 0).avail ∧ (s.tx ()).held = none ∧ s.rx.held = none)
    mixing (boot_init .open) (by decide +kernel)
  refine ⟨s, hs, h1, h2, fun p => ?_⟩
  cases p with
  | free => exact h3
  | avail => exact h4
  | tx x => simp [At, h5]
  | rx => simp [At, h6]

end Librettos.Netdom
