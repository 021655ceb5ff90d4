/-
# `Rumpuser.RwLock` — the reader/writer lock of `rumpuser_synch.c`

A `rumpuser_rw` is two mutexes, a count of readers and a word that remembers
the mode.  `wait_mtx` serialises the threads that come in; `access_mtx` belongs
to the writer, or to the readers as a group: the first reader takes it and the
last one gives it back, whoever that is.  The mode word `type` is written next
to these changes, not with them, and `rumpuser_rw_exit` decides by it whether
its caller is a writer.

Every atomic operation on `readers` and `type` and every mutex operation of the
five functions is one step.  The two mutexes are taken as correct ones: an
enter goes through when the mutex is free, an exit frees it, and a tryenter may
report busy at any time (it does while a handoff is under way), never success
on a mutex that is taken.

## The one slip

`rumpuser_rw_tryenter` for a reader that finds `readers == 0` takes
`access_mtx`, stores 1 into `readers`, and then falls into the compare-exchange
of the loop with its local copy still 0.  That exchange fails, reloads 1, and
the second one makes it 2: the first reader is counted twice.  The invariant
below carries the surplus as a number `k`, so that the same induction serves
for the exclusion, which the surplus does not harm, and for the count, which is
exact as long as that branch is not taken.

**Proved here.**

    a writer is the only holder, and exit tests the caller's own mode     (`rw_writer_exclusion`)
    no first reader by tryenter  ⟹  readers is the number of readers      (`rw_readers_exact`)
    one tryenter by a first reader, and its exit, leave the lock taken     (`rw_tryenter_counts_twice`)
-/
import Librettos.Lib.Trans
import Librettos.Lib.Count

namespace Librettos.RwLock

open Function (update update_of_ne update_self)
open Count Option Trans

/-- `enum rumprwlock`: what the caller asks for, and holds. -/
inductive Mode where
  | writer | reader
  deriving DecidableEq, Repr

/-- `enum lock_rw_type`. -/
inductive RwType where
  | unknown | writer | reader
  deriving DecidableEq, Repr

/-- The value stored in the mode word. -/
def RwType.code : RwType → Nat
  | .unknown => 0
  | .writer => 1
  | .reader => 2

theorem RwType.code_unknown : RwType.unknown.code = 0 := rfl

theorem RwType.code_writer : RwType.writer.code = 1 := rfl

theorem RwType.code_reader : RwType.reader.code = 2 := rfl

theorem RwType.code_eq_one {ty : RwType} : ty.code = 1 ↔ ty = .writer := by
  cases ty <;> simp [RwType.code]

/-- `struct rumpuser_rw`, with the two mutexes as taken or free. -/
structure Rw where
  access : Bool
  wait : Bool
  readers : Nat
  type : RwType
  deriving DecidableEq, Repr

/-- The five entry points. -/
inductive Op where
  | rwEnter (m : Mode) | rwTryenter (m : Mode) | rwExit | rwDowngrade | rwTryupgrade
  deriving DecidableEq, Repr

/-- Where a thread stands.  `idle m` is between calls, holding the lock as `m`;
the mode in `exitWait` and `exitLoad` is what the thread holds there.  In
`tryCas n first`, `n` is the local `readers` and `first` remembers that this
call has taken `access_mtx`. -/
inductive Pc where
  | idle (m : Option Mode)
  | enterWait (m : Mode)
  | enterAccess
  | storeWriter
  | enterAdd
  | enterAccessR
  | storeReader
  | exitWait (m : Option Mode)
  | tryWait (m : Mode)
  | tryAccess
  | tryLoad
  | tryAccessR
  | tryStoreReaders
  | tryStoreReader
  | tryCas (n : Nat) (first : Bool)
  | exitLoad (m : Mode)
  | exitSub
  | exitStore
  | exitAccess
  | downStore
  | downAdd
  | downAccess
  | upCas
  | upStore
  deriving DecidableEq, Repr

/-- The lock and the threads that use it. -/
structure State (T : Type*) where
  rw : Rw
  pc : T → Pc

/-- A step: thread `t` calls a function, or takes its next atomic step; `fail`
says that a tryenter on a mutex reports busy although nobody owns the mutex. -/
inductive Act (T : Type*) where
  | call (t : T) (op : Op)
  | go (t : T) (fail : Bool)

/-- Which calls a thread holding `m` may make: the functions are used in
matching pairs, a downgrade is the writer's and an upgrade a reader's. -/
def start : Option Mode → Op → Option Pc
  | none, .rwEnter m => some (.enterWait m)
  | none, .rwTryenter m => some (.tryWait m)
  | some m, .rwExit => some (.exitLoad m)
  | some .writer, .rwDowngrade => some .downStore
  | some .reader, .rwTryupgrade => some .upCas
  | _, _ => none

/-- One atomic step of one thread: the lock and its point before, and after. -/
def go (rw : Rw) (fail : Bool) : Pc → Option (Rw × Pc)
  | .idle _ => none
  | .enterWait m =>
    if rw.wait then none
    else some ({ rw with wait := true }, match m with | .writer => .enterAccess | .reader => .enterAdd)
  | .enterAccess => if rw.access then none else some ({ rw with access := true }, .storeWriter)
  | .storeWriter => some ({ rw with type := .writer }, .exitWait (some .writer))
  | .enterAdd =>
    -- `atomic_fetch_add(&rw->readers, 1) == 0`
    some ({ rw with readers := rw.readers + 1 },
      if rw.readers = 0 then .enterAccessR else .exitWait (some .reader))
  | .enterAccessR => if rw.access then none else some ({ rw with access := true }, .storeReader)
  | .storeReader => some ({ rw with type := .reader }, .exitWait (some .reader))
  | .exitWait m => some ({ rw with wait := false }, .idle m)
  | .tryWait m =>
    if rw.wait || fail then some (rw, .idle none)
    else some ({ rw with wait := true }, match m with | .writer => .tryAccess | .reader => .tryLoad)
  | .tryAccess =>
    if rw.access || fail then some (rw, .exitWait none)
    else some ({ rw with access := true }, .storeWriter)
  | .tryLoad => some (rw, if rw.readers = 0 then .tryAccessR else .tryCas rw.readers false)
  | .tryAccessR =>
    if rw.access || fail then some (rw, .exitWait none)
    else some ({ rw with access := true }, .tryStoreReaders)
  | .tryStoreReaders => some ({ rw with readers := 1 }, .tryStoreReader)
  | .tryStoreReader => some ({ rw with type := .reader }, .tryCas 0 true)
  | .tryCas n first =>
    -- a failed exchange reloads the local `readers` and goes round the loop
    if rw.readers = n then some ({ rw with readers := n + 1 }, .exitWait (some .reader))
    else some (rw, if rw.readers = 0 then .tryAccessR else .tryCas rw.readers first)
  | .exitLoad _ => some (rw, if rw.type = .writer then .exitStore else .exitSub)
  | .exitSub =>
    -- `atomic_fetch_sub(&rw->readers, 1) == 1`
    some ({ rw with readers := rw.readers - 1 }, if rw.readers = 1 then .exitStore else .idle none)
  | .exitStore => some ({ rw with type := .unknown }, .exitAccess)
  | .exitAccess => some ({ rw with access := false }, .idle none)
  | .downStore => some ({ rw with type := .reader }, .downAdd)
  | .downAdd =>
    -- `atomic_fetch_add(&rw->readers, 1) != 0`
    some ({ rw with readers := rw.readers + 1 },
      if rw.readers = 0 then .idle (some .reader) else .downAccess)
  | .downAccess => some ({ rw with access := false }, .idle (some .reader))
  | .upCas =>
    if rw.readers = 1 then some ({ rw with readers := 0 }, .upStore)
    else some (rw, .idle (some .reader))
  | .upStore => some ({ rw with type := .writer }, .idle (some .writer))

/-- The transition function. -/
def step {T : Type*} [DecidableEq T] (s : State T) : Act T → Option (State T)
  | .call t op =>
    match s.pc t with
    | .idle m => (start m op).map fun p => { s with pc := update s.pc t p }
    | _ => none
  | .go t fail =>
    (go s.rw fail (s.pc t)).map fun x => { rw := x.1, pc := update s.pc t x.2 }

/-- `rumpuser_rw_init`, before any thread has called. -/
def Init {T : Type*} (s : State T) : Prop :=
  s.rw = { access := false, wait := false, readers := 0, type := .unknown } ∧
    ∀ t, s.pc t = .idle none

/-! ## Counting the threads

Seven weights, no two of them on the same thread except `inWait`.  Five of them
are the ways to stand towards `access_mtx`: a writer whose mode is in the word
(`typed`), a thread between its mode and the word (`typing`), a thread on its
way in or out without a mode (`passing`), a downgraded writer that still has to
give the mutex back to the reader it found waiting (`handing`), and a reader. -/

def typed : Pc → Nat
  | .idle (some .writer) | .exitLoad .writer | .exitWait (some .writer) | .downStore => 1
  | _ => 0

def typing : Pc → Nat
  | .storeWriter | .upStore | .exitStore => 1
  | _ => 0

def passing : Pc → Nat
  | .downAdd | .exitAccess | .tryStoreReaders => 1
  | _ => 0

def handing : Pc → Nat
  | .downAccess => 1
  | _ => 0

def reading : Pc → Nat
  | .idle (some .reader) | .exitLoad .reader | .exitWait (some .reader) => 1
  | .storeReader | .tryStoreReader | .tryCas _ true | .exitSub | .upCas => 1
  | _ => 0

/-- Counted in `readers` and waiting for `access_mtx`: a first reader. -/
def parked : Pc → Nat
  | .enterAccessR => 1
  | _ => 0

/-- Owns `wait_mtx`. -/
def inWait : Pc → Nat
  | .enterAccess | .storeWriter | .enterAdd | .enterAccessR | .storeReader | .exitWait _ => 1
  | .tryAccess | .tryLoad | .tryAccessR | .tryStoreReaders | .tryStoreReader | .tryCas _ _ => 1
  | _ => 0

/-- The numbers of threads, by weight. -/
structure Num where
  typed : Nat
  typing : Nat
  passing : Nat
  handing : Nat
  reading : Nat
  parked : Nat
  inWait : Nat

/-- The owners `access_mtx` can have, as a relation between the mutex, the reader
count and the numbers of threads: nobody, one thread (`own`), a downgraded
writer that is handing over, the readers.  `k` is the surplus of the count. -/
def Acc (k access readers own handing reading parked : Nat) : Prop :=
  (access = 0 ∧ own = 0 ∧ handing = 0 ∧ readers = reading + parked ∧
    (0 < reading → parked = 1) ∧ k = 0) ∨
  (access = 1 ∧ own = 1 ∧ handing = 0 ∧ reading = 0 ∧ readers = parked ∧ k = 0) ∨
  (access = 1 ∧ own = 0 ∧ handing = 1 ∧ reading = 0 ∧ parked = 1 ∧ readers = 2 ∧ k = 0) ∨
  (access = 1 ∧ own = 0 ∧ handing = 0 ∧ parked = 0 ∧ readers = reading + k ∧ 0 < readers)

/-- What the lock's words and the numbers of threads have to do with each other. -/
structure Good (k access wait readers type : Nat) (n : Num) : Prop where
  wait : n.inWait = wait
  acc : Acc k access readers (n.typed + n.typing + n.passing) n.handing n.reading n.parked
  typed : 0 < n.typed → type = 1
  type : type = 1 → 0 < n.typed + n.typing

/-- `Good` for the words of a lock. -/
def Rw.Ok (k : Nat) (rw : Rw) (n : Num) : Prop :=
  Good k rw.access.toNat rw.wait.toNat rw.readers rw.type.code n

section
variable {T : Type*} [Fintype T]

/-- The numbers of a state. -/
def State.num (s : State T) : Num :=
  { typed := wsum typed s.pc, typing := wsum typing s.pc, passing := wsum passing s.pc,
    handing := wsum handing s.pc, reading := wsum reading s.pc, parked := wsum parked s.pc,
    inWait := wsum inWait s.pc }

/-- The invariant, with surplus `k`. -/
structure Inv (k : Nat) (s : State T) : Prop where
  good : s.rw.Ok k s.num
  /-- a thread that has not taken `access_mtx` does not exchange from zero -/
  cas : ∀ t n, s.pc t = .tryCas n false → n ≠ 0

theorem inv_init {s : State T} (h : Init s) : Inv 0 s := by
  obtain ⟨hrw, hpc⟩ := h
  have hz : ∀ f : Pc → Nat, f (.idle none) = 0 → wsum f s.pc = 0 := fun f hf =>
    (wsum_eq_zero_iff _ _).mpr fun t => by rw [hpc t, hf]
  refine ⟨?_, fun t n ht => by simp [hpc t] at ht⟩
  have hn : s.num = ⟨0, 0, 0, 0, 0, 0, 0⟩ := by
    simp only [State.num, hz typed rfl, hz typing rfl, hz passing rfl, hz handing rfl,
      hz reading rfl, hz parked rfl, hz inWait rfl]
  rw [hn, hrw]
  constructor <;> simp [RwType.code, Acc]

/-- The numbers before and after one thread moved from `p` to `p'`. -/
structure Moved (n n' : Num) (p p' : Pc) : Prop where
  typed : n'.typed + RwLock.typed p = n.typed + RwLock.typed p'
  typing : n'.typing + RwLock.typing p = n.typing + RwLock.typing p'
  passing : n'.passing + RwLock.passing p = n.passing + RwLock.passing p'
  handing : n'.handing + RwLock.handing p = n.handing + RwLock.handing p'
  reading : n'.reading + RwLock.reading p = n.reading + RwLock.reading p'
  parked : n'.parked + RwLock.parked p = n.parked + RwLock.parked p'
  inWait : n'.inWait + RwLock.inWait p = n.inWait + RwLock.inWait p'
  /-- the moving thread is one of those counted -/
  le_typed : RwLock.typed p ≤ n.typed
  le_typing : RwLock.typing p ≤ n.typing
  le_passing : RwLock.passing p ≤ n.passing
  le_handing : RwLock.handing p ≤ n.handing
  le_reading : RwLock.reading p ≤ n.reading
  le_parked : RwLock.parked p ≤ n.parked
  /-- the parked threads are among those that own `wait_mtx` -/
  wait : n.parked + RwLock.inWait p ≤ n.inWait + RwLock.parked p

theorem wait_parked [DecidableEq T] (s : State T) (t : T) :
    wsum parked s.pc + inWait (s.pc t) ≤ wsum inWait s.pc + parked (s.pc t) := by
  have h1 := wsum_update parked s.pc t (.idle none)
  have h2 := wsum_update inWait s.pc t (.idle none)
  have h3 : wsum parked (update s.pc t (.idle none))
      ≤ wsum inWait (update s.pc t (.idle none)) :=
    wsum_mono (fun p => by cases p <;> simp [parked, inWait]) _
  have h5 : inWait (.idle none) = 0 := rfl
  omega

theorem moved [DecidableEq T] (s : State T) (rw' : Rw) (t : T) (p' : Pc) :
    Moved s.num (State.num ⟨rw', update s.pc t p'⟩) (s.pc t) p' :=
  ⟨wsum_update _ _ _ _, wsum_update _ _ _ _, wsum_update _ _ _ _, wsum_update _ _ _ _,
    wsum_update _ _ _ _, wsum_update _ _ _ _, wsum_update _ _ _ _, le_wsum _ _ _, le_wsum _ _ _,
    le_wsum _ _ _, le_wsum _ _ _, le_wsum _ _ _, le_wsum _ _ _, wait_parked s t⟩

end

/-! ## How `access_mtx` changes hands

One lemma for every step that touches the mutex or the reader count. -/

section
variable {k k' a a' rd rd' o o' h h' r r' p p' : Nat}

theorem Acc.cast (H : Acc k a rd o h r p) (e0 : k' = k) (e1 : a' = a) (e2 : rd' = rd)
    (e3 : o' = o) (e4 : h' = h) (e5 : r' = r) (e6 : p' = p) : Acc k' a' rd' o' h' r' p' := by
  subst e0 e1 e2 e3 e4 e5 e6
  exact H

/-- A thread takes the free mutex; with nobody parked there was no reader. -/
theorem Acc.take (H : Acc k 0 rd o h r 0) : Acc k 1 rd (o + 1) h r 0 := by
  rcases H with H | H | H | H
  · exact .inr (.inl (by omega))
  all_goals omega

/-- The first reader counts itself and parks. -/
theorem Acc.park (H : Acc k a 0 o h r 0) : Acc k a 1 o h r 1 := by
  rcases H with H | H | H | H
  · exact .inl (by omega)
  · exact .inr (.inl (by omega))
  all_goals omega

/-- A further reader joins the readers. -/
theorem Acc.join (H : Acc k a rd o h r 0) (hrd : rd ≠ 0) : Acc k a (rd + 1) o h (r + 1) 0 := by
  rcases H with H | H | H | H
  · omega
  · omega
  · omega
  · exact .inr (.inr (.inr (by omega)))

/-- The parked reader takes the free mutex for the readers. -/
theorem Acc.unpark (H : Acc k 0 rd o h r 1) : Acc k 1 rd o h (r + 1) 0 := by
  rcases H with H | H | H | H
  · exact .inr (.inr (.inr (by omega)))
  all_goals omega

/-- A first reader by tryenter stores its count. -/
theorem Acc.found (H : Acc k a rd (o + 1) h r 0) : Acc k a 1 o h (r + 1) 0 := by
  rcases H with H | H | H | H
  · omega
  · exact .inr (.inr (.inr (by omega)))
  all_goals omega

/-- A reader that is counted already counts itself again. -/
theorem Acc.again (H : Acc k a rd o h (r + 1) 0) : Acc (k + 1) a (rd + 1) o h (r + 1) 0 := by
  rcases H with H | H | H | H
  · omega
  · omega
  · omega
  · exact .inr (.inr (.inr (by omega)))

/-- The last reader leaves the count, or becomes a writer, and owns the mutex. -/
theorem Acc.last (H : Acc k a 1 o h (r + 1) p) : Acc k a 0 (o + 1) h r p := by
  rcases H with H | H | H | H
  · omega
  · omega
  · omega
  · exact .inr (.inl (by omega))

/-- A reader that is not the last leaves the count. -/
theorem Acc.leave (H : Acc k a rd o h (r + 1) p) (hrd : rd ≠ 1) : Acc k a (rd - 1) o h r p := by
  rcases H with H | H | H | H
  · exact .inl (by omega)
  · omega
  · omega
  · exact .inr (.inr (.inr (by omega)))

/-- The owner frees the mutex. -/
theorem Acc.free (H : Acc k a rd (o + 1) h r p) : Acc k 0 rd o h r p := by
  rcases H with H | H | H | H
  · omega
  · exact .inl (by omega)
  all_goals omega

/-- A writer becomes the only reader. -/
theorem Acc.down (H : Acc k a 0 (o + 1) h r p) : Acc k a 1 o h (r + 1) p := by
  rcases H with H | H | H | H
  · omega
  · exact .inr (.inr (.inr (by omega)))
  all_goals omega

/-- A writer becomes a reader beside the one that is parked. -/
theorem Acc.downBeside (H : Acc k a rd (o + 1) h r p) (hrd : rd ≠ 0) (hp : p ≤ 1) :
    Acc k a (rd + 1) o (h + 1) r p := by
  rcases H with H | H | H | H
  · omega
  · exact .inr (.inr (.inl (by omega)))
  all_goals omega

/-- The downgraded writer frees the mutex for the parked reader. -/
theorem Acc.handOver (H : Acc k a rd o (h + 1) r p) : Acc k 0 rd o h (r + 1) p := by
  rcases H with H | H | H | H
  · omega
  · omega
  · exact .inl (by omega)
  · omega

end

/-- The step that counts a first reader a second time. -/
def surplus (rw : Rw) : Pc → Nat
  | .tryCas n true => if rw.readers = n then 1 else 0
  | _ => 0

/-- **The quiet step.**  The thread keeps its standing towards `access_mtx` and
the words keep their values, except for `wait_mtx`. -/
theorem good_quiet {k : Nat} {rw rw' : Rw} {n n' : Num} {p p' : Pc} (h : rw.Ok k n)
    (hm : Moved n n' p p') (ha : rw'.access = rw.access) (hr : rw'.readers = rw.readers)
    (ht : rw'.type = rw.type) (hw : inWait p' + rw.wait.toNat = inWait p + rw'.wait.toNat)
    (h1 : typed p' = typed p) (h2 : typing p' = typing p) (h3 : passing p' = passing p)
    (h4 : handing p' = handing p) (h5 : reading p' = reading p) (h6 : parked p' = parked p) :
    rw'.Ok k n' := by
  obtain ⟨m1, m2, m3, m4, m5, m6, m7, l1, l2, l3, l4, l5, l6, l7⟩ := hm
  obtain ⟨g1, g2, g3, g4⟩ := h
  have ha' : rw'.access.toNat = rw.access.toNat := by rw [ha]
  have ht' : rw'.type.code = rw.type.code := by rw [ht]
  refine ⟨by omega, g2.cast rfl ha' hr ?_ ?_ ?_ ?_, ?_, ?_⟩ <;> omega

theorem type_of_mode {k : Nat} {rw : Rw} {n : Num} (h : rw.Ok k n) {m : Mode}
    (hm : match m with | .writer => 0 < n.typed | .reader => 0 < n.reading + n.handing) :
    rw.type = .writer ↔ m = .writer := by
  obtain ⟨g1, g2, g3, g4⟩ := h
  rw [← RwType.code_eq_one]
  cases m with
  | writer => simpa using g3 hm
  | reader =>
    refine ⟨fun hc => ?_, fun hc => nomatch hc⟩
    rcases g2 with g2 | g2 | g2 | g2 <;> simp only at hm <;> omega

/-- **The step at `access_mtx`.**  The mode word stays.  `o`, `hd`, `r` and `pk` are the numbers of the
other threads; nobody else is parked while the moving thread owns `wait_mtx`. -/
theorem good_access {k k' : Nat} {rw rw' : Rw} {n n' : Num} {p p' : Pc} (h : rw.Ok k n)
    (hm : Moved n n' p p') (ht : rw'.type = rw.type)
    (hw : inWait p' + rw.wait.toNat = inWait p + rw'.wait.toNat)
    (h1 : typed p' ≤ typed p) (h2 : typed p + typing p ≤ typed p' + typing p')
    (hacc : ∀ o hd r pk, pk ≤ 1 → (inWait p = 1 → pk = 0) →
      Acc k rw.access.toNat rw.readers (o + (typed p + typing p + passing p)) (hd + handing p)
        (r + reading p) (pk + parked p) →
      Acc k' rw'.access.toNat rw'.readers (o + (typed p' + typing p' + passing p'))
        (hd + handing p') (r + reading p') (pk + parked p')) : rw'.Ok k' n' := by
  obtain ⟨m1, m2, m3, m4, m5, m6, m7, l1, l2, l3, l4, l5, l6, l7⟩ := hm
  obtain ⟨g1, g2, g3, g4⟩ := h
  have hw1 : rw.wait.toNat ≤ 1 := Bool.toNat_le _
  have ht' : rw'.type.code = rw.type.code := by rw [ht]
  -- the numbers without the moving thread
  obtain ⟨o, ho⟩ := Nat.exists_eq_add_of_le' (add_le_add (add_le_add l1 l2) l3)
  obtain ⟨hd, hhd⟩ := Nat.exists_eq_add_of_le' l4
  obtain ⟨r, hr⟩ := Nat.exists_eq_add_of_le' l5
  obtain ⟨pk, hpk⟩ := Nat.exists_eq_add_of_le' l6
  have hnew := hacc o hd r pk (by omega) (by omega)
    (g2.cast rfl rfl rfl ho.symm hhd.symm hr.symm hpk.symm)
  refine ⟨by omega, hnew.cast rfl rfl rfl ?_ ?_ ?_ ?_, ?_, ?_⟩ <;> omega

/-- **One step of one thread.**  Every case is a step that writes the mode word, one that is quiet,
or one at `access_mtx`. -/
theorem good_go {k : Nat} {rw rw' : Rw} {n n' : Num} {fail : Bool} {p p' : Pc} (h : rw.Ok k n)
    (hcas : ∀ m, p = .tryCas m false → m ≠ 0) (hs : go rw fail p = some (rw', p'))
    (hm : Moved n n' p p') : rw'.Ok (k + surplus rw p) n' := by
  cases p with
  | idle m => cases hs
  | storeWriter | storeReader | tryStoreReader | exitStore | downStore | upStore =>
    -- the mode word is written; nobody else stands where it matters
    cases hs
    obtain ⟨m1, m2, m3, m4, m5, m6, m7, l1, l2, l3, l4, l5, l6, l7⟩ := hm
    obtain ⟨g1, g3, g4, g5⟩ := h
    simp only [Rw.Ok, surplus, typed, typing, passing, handing, reading, parked, inWait, RwType.code_unknown,
      RwType.code_writer, RwType.code_reader] at m1 m2 m3 m4 m5 m6 m7 l1 l2 l3 l4 l5 l6 l7 ⊢
    refine ⟨by omega, g3.cast ?_ ?_ ?_ ?_ ?_ ?_ ?_, ?_, ?_⟩ <;> (try omega)
    all_goals rcases g3 with g3 | g3 | g3 | g3 <;> omega
  | enterWait m =>
    simp only [go] at hs
    split at hs
    · simp at hs
    · next hw =>
      cases hs
      cases m <;> exact good_quiet h hm rfl rfl rfl (by simp [hw, inWait]) rfl rfl rfl rfl rfl rfl
  | exitWait m =>
    cases hs
    have hw : rw.wait.toNat = 1 := by
      have hw1 : rw.wait.toNat ≤ 1 := Bool.toNat_le _
      have hwait := hm.wait
      have heq := h.wait
      simp only [inWait, parked] at hwait
      omega
    rcases m with _ | _ | _ <;>
      exact good_quiet h hm rfl rfl rfl (by simp [hw, inWait]) rfl rfl rfl rfl rfl rfl
  | tryWait m =>
    simp only [go] at hs
    split at hs
    · obtain ⟨rfl, rfl⟩ := Prod.mk.inj (some.inj hs)
      exact good_quiet h hm rfl rfl rfl rfl rfl rfl rfl rfl rfl rfl
    · next hw =>
      obtain ⟨rfl, rfl⟩ := Prod.mk.inj (some.inj hs)
      simp only [Bool.or_eq_true, not_or, Bool.not_eq_true] at hw
      cases m <;>
        exact good_quiet h hm rfl rfl rfl (by simp [hw.1, inWait]) rfl rfl rfl rfl rfl rfl
  | tryLoad =>
    simp only [go] at hs
    split at hs <;> obtain ⟨rfl, rfl⟩ := Prod.mk.inj (some.inj hs) <;>
      exact good_quiet h hm rfl rfl rfl rfl rfl rfl rfl rfl rfl rfl
  | enterAccess =>
    simp only [go] at hs
    split at hs
    · simp at hs
    · next hw =>
      obtain ⟨rfl, rfl⟩ := Prod.mk.inj (some.inj hs)
      rw [Bool.not_eq_true] at hw
      refine good_access h hm rfl rfl (by decide) (by decide) fun o hd r pk _ hpk H => ?_
      obtain rfl := hpk rfl
      rw [hw] at H
      exact H.take
  | tryAccess | tryAccessR =>
    simp only [go] at hs
    split at hs
    · obtain ⟨rfl, rfl⟩ := Prod.mk.inj (some.inj hs)
      exact good_quiet h hm rfl rfl rfl rfl rfl rfl rfl rfl rfl rfl
    · next hw =>
      cases hs
      simp only [Bool.or_eq_true, not_or, Bool.not_eq_true] at hw
      refine good_access h hm rfl rfl (by decide) (by decide) fun o hd r pk _ hpk H => ?_
      obtain rfl := hpk rfl
      rw [hw.1] at H
      exact H.take
  | enterAdd =>
    cases hs
    by_cases h0 : rw.readers = 0
    · rw [if_pos h0] at hm
      refine good_access h hm rfl rfl (by decide) (by decide) fun o hd r pk _ hpk H => ?_
      obtain rfl := hpk rfl
      rw [h0] at H ⊢
      exact H.park
    · rw [if_neg h0] at hm
      refine good_access h hm rfl rfl (by decide) (by decide) fun o hd r pk _ hpk H => ?_
      obtain rfl := hpk rfl
      exact H.join h0
  | enterAccessR =>
    simp only [go] at hs
    split at hs
    · cases hs
    · next hw =>
      cases hs
      rw [Bool.not_eq_true] at hw
      refine good_access h hm rfl rfl (by decide) (by decide) fun o hd r pk _ hpk H => ?_
      obtain rfl := hpk rfl
      rw [hw] at H
      exact H.unpark
  | tryStoreReaders =>
    cases hs
    refine good_access h hm rfl rfl (by decide) (by decide) fun o hd r pk _ hpk H => ?_
    obtain rfl := hpk rfl
    exact H.found
  | tryCas m first =>
    simp only [go] at hs
    split at hs
    · next hn =>
      cases hs
      subst hn
      cases first with
      | false =>
        refine good_access h hm rfl rfl le_rfl le_rfl fun o hd r pk _ hpk H => ?_
        obtain rfl := hpk rfl
        exact H.join (hcas _ rfl)
      | true =>
        rw [surplus, if_pos rfl]
        refine good_access h hm rfl rfl le_rfl le_rfl fun o hd r pk _ hpk H => ?_
        obtain rfl := hpk rfl
        exact H.again
    · next hn =>
      cases hs
      cases first with
      | false =>
        split at hm <;> exact good_quiet h hm rfl rfl rfl rfl rfl rfl rfl rfl rfl rfl
      | true =>
        -- this call's own store is in the count, so the reload is not zero
        have h0 : rw.readers ≠ 0 := by
          have hacc := h.acc
          have hwait := hm.wait
          have hle := hm.le_reading
          simp only [inWait, parked, reading] at hwait hle
          rcases hacc with hacc | hacc | hacc | hacc <;> omega
        rw [if_neg h0] at hm
        rw [surplus, if_neg hn]
        exact good_quiet h hm rfl rfl rfl rfl rfl rfl rfl rfl rfl rfl
  | exitLoad m =>
    cases hs
    have hmode : rw.type = .writer ↔ m = .writer := type_of_mode h (by
      have htyped := hm.le_typed
      have hreading := hm.le_reading
      cases m <;> simp only [typed, reading] at htyped hreading ⊢ <;> omega)
    cases m with
    | reader =>
      rw [if_neg (by simp [hmode])] at hm
      exact good_quiet h hm rfl rfl rfl rfl rfl rfl rfl rfl rfl rfl
    | writer =>
      rw [if_pos (by simp [hmode])] at hm
      exact good_access h hm rfl rfl (by decide) (by decide) fun _ _ _ _ _ _ H => H
  | exitSub =>
    cases hs
    by_cases h1 : rw.readers = 1
    · rw [if_pos h1] at hm
      refine good_access h hm rfl rfl (by decide) (by decide) fun o hd r pk _ _ H => ?_
      rw [h1] at H ⊢
      exact H.last
    · rw [if_neg h1] at hm
      exact good_access h hm rfl rfl (by decide) (by decide) fun o hd r pk _ _ H => H.leave h1
  | exitAccess =>
    cases hs
    exact good_access h hm rfl rfl (by decide) (by decide) fun o hd r pk _ _ H => H.free
  | downAdd =>
    cases hs
    by_cases h0 : rw.readers = 0
    · rw [if_pos h0] at hm
      refine good_access h hm rfl rfl (by decide) (by decide) fun o hd r pk _ _ H => ?_
      rw [h0] at H ⊢
      exact H.down
    · rw [if_neg h0] at hm
      exact good_access h hm rfl rfl (by decide) (by decide) fun o hd r pk hle _ H =>
        H.downBeside h0 hle
  | downAccess =>
    cases hs
    exact good_access h hm rfl rfl (by decide) (by decide) fun o hd r pk _ _ H => H.handOver
  | upCas =>
    simp only [go] at hs
    split at hs
    · next h1 =>
      cases hs
      refine good_access h hm rfl rfl (by decide) (by decide) fun o hd r pk _ _ H => ?_
      rw [h1] at H
      exact H.last
    · obtain ⟨rfl, rfl⟩ := Prod.mk.inj (some.inj hs)
      exact good_quiet h hm rfl rfl rfl rfl rfl rfl rfl rfl rfl rfl

theorem good_call {k : Nat} {rw : Rw} {n n' : Num} {m : Option Mode} {op : Op} {p : Pc}
    (h : rw.Ok k n) (hs : start m op = some p) (hm : Moved n n' (.idle m) p) : rw.Ok k n' := by
  rcases m with _ | _ | _ <;> cases op <;> simp only [start, some.injEq, reduceCtorEq] at hs <;>
    subst hs <;> exact good_quiet h hm rfl rfl rfl rfl rfl rfl rfl rfl rfl rfl

section
variable {T : Type*} [Fintype T] [DecidableEq T] {s s' : State T}
variable {p p' : Pc}

/-- The surplus a step adds. -/
def State.surplus (s : State T) : Act T → Nat
  | .call _ _ => 0
  | .go t _ => RwLock.surplus s.rw (s.pc t)

omit [Fintype T] in
/-- Off the exchange loop, the side condition of the loop says nothing. -/
theorem cas_update {f : T → Pc} {t : T} (h : ∀ u n, f u = .tryCas n false → n ≠ 0)
    (hp : ∀ n, p = .tryCas n false → n ≠ 0) (u : T) (n : Nat)
    (hu : update f t p u = .tryCas n false) : n ≠ 0 := by
  by_cases hut : u = t
  · subst hut
    rw [update_self] at hu
    exact hp n hu
  · rw [update_of_ne hut] at hu
    exact h u n hu

theorem start_cas {m : Option Mode} {op : Op} (hs : start m op = some p) (n : Nat) :
    p ≠ .tryCas n false := by
  rcases m with _ | _ | _ <;> cases op <;> simp only [start, some.injEq, reduceCtorEq] at hs <;>
    subst hs <;> simp

theorem go_cas {rw rw' : Rw} {fail : Bool} (hs : go rw fail p = some (rw', p')) (n : Nat)
    (hn : p' = .tryCas n false) : n ≠ 0 := by
  cases p with
  | tryLoad =>
    cases hs
    split at hn
    · cases hn
    · next h0 => cases hn; exact h0
  | tryCas m first =>
    simp only [go] at hs
    split at hs
    · simp only [some.injEq, Prod.mk.injEq] at hs
      exact absurd (hs.2.trans hn) (by simp)
    · simp only [some.injEq, Prod.mk.injEq] at hs
      obtain ⟨rfl, rfl⟩ := hs
      split at hn
      · cases hn
      · next h0 => cases hn; exact h0
  | enterWait m | tryWait m => cases m <;> simp only [go] at hs <;> split at hs <;> simp_all
  | _ => simp only [go] at hs; first | (split at hs <;> simp_all) | simp_all

theorem inv_step {k : Nat} {a : Act T} (h : Inv k s) (hs : step s a = some s') :
    Inv (k + s.surplus a) s' := by
  cases a with
  | call t op =>
    simp only [step] at hs
    split at hs
    · next m hp =>
      obtain ⟨p, hp', rfl⟩ := map_eq_some_iff.mp hs
      have hm := moved s s.rw t p
      rw [hp] at hm
      exact ⟨good_call h.good hp' hm,
        cas_update h.cas fun n hn => absurd hn (start_cas hp' n)⟩
    · cases hs
  | go t fail =>
    obtain ⟨⟨rw', p'⟩, hg, rfl⟩ := map_eq_some_iff.mp hs
    exact ⟨good_go h.good (h.cas t) hg (moved s rw' t p'), cas_update h.cas (go_cas hg)⟩

theorem inv_reach (h : Reach step any Init s) : ∃ k, Inv k s :=
  h.inv (I := fun s => ∃ k, Inv k s) (fun _ hi => ⟨0, inv_init hi⟩)
    fun _ _ _ ⟨_, hk⟩ _ hs => ⟨_, inv_step hk hs⟩

/-! ## Writer exclusion -/

/-- What a thread holds, from the moment it has it to the moment it gives it up:
a writer from taking `access_mtx` on, a reader as long as it is in the count. -/
def holdsAs : Pc → Option Mode
  | .idle m | .exitWait m => m
  | .exitLoad m => some m
  | .storeWriter | .upStore | .downStore | .downAdd => some .writer
  | .storeReader | .tryStoreReader | .tryCas _ true | .exitSub | .upCas | .downAccess => some .reader
  | _ => none

/-- The weight of the threads that own `access_mtx` by themselves. -/
def own (p : Pc) : Nat := typed p + typing p + passing p

theorem own_of_writer (h : holdsAs p = some .writer) : own p = 1 := by
  cases p with
  | idle m | exitWait m => simp only [holdsAs] at h; subst h; rfl
  | exitLoad m => simp only [holdsAs, some.injEq] at h; subst h; rfl
  | tryCas n first => cases first <;> simp [holdsAs] at h
  | _ => first | rfl | simp [holdsAs] at h

theorem reading_of_reader (h : holdsAs p = some .reader) : reading p + handing p = 1 := by
  cases p with
  | idle m | exitWait m => simp only [holdsAs] at h; subst h; rfl
  | exitLoad m => simp only [holdsAs, some.injEq] at h; subst h; rfl
  | tryCas n first => cases first <;> simp [holdsAs, reading, handing] at h ⊢
  | _ => first | rfl | simp [holdsAs] at h

omit [DecidableEq T] in
theorem wsum_own (s : State T) : wsum own s.pc = s.num.typed + s.num.typing + s.num.passing := by
  simp only [wsum, own, State.num, Finset.sum_add_distrib]

/-- **A writer is alone, and knows it is a writer.**  In every reachable state a
thread that holds the lock as writer is the only holder of any kind, and
`rumpuser_rw_exit` goes where its caller's own mode sends it: a writer straight
to the release, a reader to the count. -/
theorem rw_writer_exclusion (h : Reach step Trans.any Init s) :
    (∀ t u, holdsAs (s.pc t) = some .writer → holdsAs (s.pc u) ≠ none → u = t) ∧
    (∀ t m fail s', s.pc t = .exitLoad m → step s (.go t fail) = some s' →
      s'.pc t = match m with | .writer => .exitStore | .reader => .exitSub) := by
  obtain ⟨k, hi⟩ := inv_reach h
  have hacc := hi.good.acc
  rw [← wsum_own] at hacc
  refine ⟨fun t u ht hu => ?_, fun t m fail s' hp hs => ?_⟩
  · have ho := own_of_writer ht
    have hle : own (s.pc t) ≤ wsum own s.pc := le_wsum _ _ _
    have hone : wsum own s.pc = 1 ∧ s.num.reading = 0 ∧ s.num.handing = 0 := by
      rcases hacc with hacc | hacc | hacc | hacc <;> omega
    cases hm : holdsAs (s.pc u) with
    | none => exact absurd hm hu
    | some m =>
        cases m with
        | writer =>
            exact (eq_of_wsum_le_one (f := own) (g := s.pc) (by omega) (by omega)
              (by rw [own_of_writer hm]; omega)).symm
        | reader =>
            have hr := reading_of_reader hm
            have h1 : reading (s.pc u) ≤ s.num.reading := le_wsum _ _ _
            have h2 : handing (s.pc u) ≤ s.num.handing := le_wsum _ _ _
            omega
  · have h1 : typed (s.pc t) ≤ s.num.typed := le_wsum _ _ _
    have h2 : reading (s.pc t) ≤ s.num.reading := le_wsum _ _ _
    rw [hp] at h1 h2
    have hmode : s.rw.type = .writer ↔ m = .writer := type_of_mode hi.good (by
      cases m <;> simp only [typed, reading] at h1 h2 ⊢ <;> omega)
    simp only [step, hp, go, map_some, some.injEq] at hs
    subst hs
    cases m <;> simp [hmode]

/-- Threads that are not in a call, and a lock just initialised. -/
def fresh (n : Nat) : State (Fin n) :=
  { rw := { access := false, wait := false, readers := 0, type := .unknown },
    pc := fun _ => .idle none }

theorem fresh_init (n : Nat) : Init (fresh n) := ⟨rfl, fun _ => rfl⟩

/-- A writer that is about to leave: the other thread holds nothing, and the exit
takes the writer's branch. -/
theorem rw_writer_leaves_alone : ∃ s s' : State (Fin 2), Reach step Trans.any Init s ∧
    holdsAs (s.pc 0) = some .writer ∧ holdsAs (s.pc 1) = none ∧
    step s (.go 0 false) = some s' ∧ s'.pc 0 = .exitStore := by
  obtain ⟨s, hr, hpc⟩ := any_finds step Init
    (fun s : State (Fin 2) => s.pc 0 = .exitLoad .writer)
    (.call 0 (.rwEnter .writer) :: (List.replicate 4 (Act.go 0 false)).append [.call 0 .rwExit])
    (fresh_init 2) (by decide)
  have key := rw_writer_exclusion hr
  refine ⟨s, _, hr, by rw [hpc]; rfl, ?_, by simp [step, hpc, go]; rfl, ?_⟩
  · by_contra h1
    exact absurd (key.1 0 1 (by rw [hpc]; rfl) h1) (by decide)
  · exact key.2 0 .writer false _ hpc (by simp [step, hpc, go])

/-! ## The count of readers -/

/-- No call is in progress. -/
def State.Quiet (s : State T) : Prop := ∀ t, ∃ m, s.pc t = .idle m

/-- The threads that hold the lock as readers. -/
def State.readers (s : State T) : Finset T :=
  Finset.univ.filter fun t => s.pc t = .idle (some .reader)

/-- The condition on a step: a tryenter for a reader that found `readers == 0`
does not get `access_mtx`. -/
def noFirstTry (s : State T) : Act T → Prop
  | .go t fail => s.pc t = .tryAccessR → s.rw.access = true ∨ fail = true
  | .call _ _ => True

instance (s : State T) : (a : Act T) → Decidable (noFirstTry s a)
  | .go t fail => inferInstanceAs (Decidable (s.pc t = .tryAccessR → s.rw.access = true ∨ fail = true))
  | .call _ _ => isTrue trivial

/-- In the branch that counts twice. -/
def firstTry : Pc → Bool
  | .tryStoreReaders | .tryStoreReader | .tryCas _ true => true
  | _ => false

theorem surplus_of_firstTry {rw : Rw} (h : firstTry p = false) : surplus rw p = 0 := by
  cases p with
  | tryCas n first => cases first <;> simp_all [firstTry, surplus]
  | _ => rfl

/-- The branch is entered by taking `access_mtx` and in no other way. -/
theorem go_firstTry {rw rw' : Rw} {fail : Bool} (hs : go rw fail p = some (rw', p'))
    (hp : firstTry p = false) (hok : p = .tryAccessR → rw.access = true ∨ fail = true) :
    firstTry p' = false := by
  cases p with
  | tryAccessR =>
    have hbusy : (rw.access || fail) = true := by simpa using hok rfl
    simp only [go, hbusy, if_true, some.injEq, Prod.mk.injEq] at hs
    rw [← hs.2]; rfl
  | tryLoad | enterAdd | exitLoad | exitSub | downAdd =>
    simp only [go, some.injEq, Prod.mk.injEq] at hs
    rw [← hs.2]; split <;> rfl
  | tryCas n first =>
    cases first with
    | true => cases hp
    | false =>
      simp only [go] at hs
      split at hs <;> simp only [some.injEq, Prod.mk.injEq] at hs <;> rw [← hs.2]
      · rfl
      · split <;> rfl
  | enterWait m | tryWait m =>
    cases m <;> simp only [go] at hs <;> split at hs <;>
      simp only [some.injEq, Prod.mk.injEq, reduceCtorEq] at hs <;> rw [← hs.2] <;> rfl
  | enterAccess | enterAccessR | tryAccess | upCas =>
    simp only [go] at hs
    split at hs <;> simp only [some.injEq, Prod.mk.injEq, reduceCtorEq] at hs <;>
      rw [← hs.2] <;> rfl
  | tryStoreReaders | tryStoreReader => cases hp
  | idle _ => cases hs
  | _ =>
    simp only [go, some.injEq, Prod.mk.injEq] at hs
    rw [← hs.2]; rfl

theorem inv_zero_reach (h : Reach step noFirstTry Init s) :
    Inv 0 s ∧ ∀ t, firstTry (s.pc t) = false := by
  refine h.inv (I := fun s => Inv 0 s ∧ ∀ t, firstTry (s.pc t) = false)
    (fun s hi => ⟨inv_init hi, fun t => by rw [hi.2 t]; rfl⟩) ?_
  rintro s a s' ⟨hk, hf⟩ hok hs
  have hinv := inv_step hk hs
  cases a with
  | call t op =>
    refine ⟨by simpa [State.surplus] using hinv, ?_⟩
    simp only [step] at hs
    split at hs
    · next m hp =>
      obtain ⟨p, hp', rfl⟩ := map_eq_some_iff.mp hs
      refine (Function.forall_update_iff s.pc fun _ q => firstTry q = false).mpr
        ⟨?_, fun u _ => hf u⟩
      rcases m with _ | _ | _ <;> cases op <;>
        simp only [start, some.injEq, reduceCtorEq] at hp' <;> subst hp' <;> rfl
    · cases hs
  | go t fail =>
    rw [State.surplus, surplus_of_firstTry (hf t)] at hinv
    refine ⟨hinv, ?_⟩
    obtain ⟨⟨rw', p'⟩, hg, rfl⟩ := map_eq_some_iff.mp hs
    exact (Function.forall_update_iff s.pc fun _ q => firstTry q = false).mpr
      ⟨go_firstTry hg (hf t) hok, fun u _ => hf u⟩

omit [DecidableEq T] in
theorem State.Quiet.num (hq : s.Quiet) :
    s.num.typing = 0 ∧ s.num.passing = 0 ∧ s.num.handing = 0 ∧ s.num.parked = 0 ∧
      s.num.inWait = 0 := by
  have hz : ∀ f : Pc → Nat, (∀ m, f (.idle m) = 0) → wsum f s.pc = 0 := fun f hf =>
    (wsum_eq_zero_iff _ _).mpr fun t => by
      obtain ⟨m, hm⟩ := hq t
      rw [hm, hf]
  exact ⟨hz _ fun _ => rfl, hz _ fun _ => rfl, hz _ fun _ => rfl, hz _ fun _ => rfl,
    hz _ fun _ => rfl⟩

omit [DecidableEq T] in
theorem State.Quiet.card_readers (hq : s.Quiet) : s.num.reading = s.readers.card := by
  have : ∀ t, reading (s.pc t) = if s.pc t = .idle (some .reader) then 1 else 0 := fun t => by
    obtain ⟨m, hm⟩ := hq t
    rw [hm]
    rcases m with _ | _ | _ <;> simp [reading]
  simp only [State.num, wsum, this, State.readers, Finset.card_filter]

/-- **The count is exact where no first reader came in by tryenter.**  In every
run none of whose steps is that branch, in every state between calls, `readers`
is the number of threads that hold the lock as readers; and when nobody holds or
waits for the lock it is 0, both mutexes are free, and a writer gets in. -/
theorem rw_readers_exact (h : Reach step noFirstTry Init s) (hq : s.Quiet) :
    s.rw.readers = s.readers.card ∧
    ((∀ t, s.pc t = .idle none) → s.rw.readers = 0 ∧ s.rw.access = false ∧ s.rw.wait = false ∧
      ∀ t, ∃ s', Trans.exec step s [.call t (.rwEnter .writer), .go t false, .go t false,
        .go t false, .go t false] = some s' ∧ s'.pc t = .idle (some .writer)) := by
  obtain ⟨hi, -⟩ := inv_zero_reach h
  obtain ⟨h1, h2, h3, h4, h5⟩ := hq.num
  have hacc := hi.good.acc
  have hwait := hi.good.wait
  have hcard := hq.card_readers
  refine ⟨by rcases hacc with hacc | hacc | hacc | hacc <;> omega, fun hnone => ?_⟩
  have hz : ∀ f : Pc → Nat, f (.idle none) = 0 → wsum f s.pc = 0 := fun f hf =>
    (wsum_eq_zero_iff _ _).mpr fun t => by rw [hnone t, hf]
  have hr : s.num.reading = 0 := hz reading rfl
  have ht : s.num.typed = 0 := hz typed rfl
  have hfree : s.rw.access.toNat = 0 ∧ s.rw.readers = 0 := by
    rcases hacc with hacc | hacc | hacc | hacc <;> omega
  have ha : s.rw.access = false := by simpa using hfree.1
  have hw : s.rw.wait = false := by
    rw [h5] at hwait
    simpa using hwait.symm
  refine ⟨hfree.2, ha, hw, fun t => ?_⟩
  simp [exec, step, hnone t, start, go, hw, ha]

end

/-- Three readers have entered and one of them has left. -/
theorem rw_readers_exact_two : ∃ s : State (Fin 3), Reach step noFirstTry Init s ∧
    (∀ t, s.pc t = .idle (if t = 1 then none else some .reader)) ∧ s.rw.readers = 2 := by
  obtain ⟨s, hr, hpc⟩ := run_finds step noFirstTry Init
    (fun s : State (Fin 3) => ∀ t, s.pc t = .idle (if t = 1 then none else some .reader))
    (.call 0 (.rwEnter .reader) :: (List.replicate 5 (Act.go 0 false)).append
      [.call 1 (.rwEnter .reader), .go 1 false, .go 1 false, .call 2 (.rwEnter .reader),
       .go 1 false, .go 2 false, .go 2 false, .call 1 .rwExit, .go 2 false, .go 1 false, .go 1 false])
    (fresh_init 3) (by decide) (by decide)
  refine ⟨s, hr, hpc, ?_⟩
  rw [(rw_readers_exact hr fun t => ⟨_, hpc t⟩).1, State.readers]
  simp only [hpc]
  decide

/-- **The first reader by tryenter is counted twice.**  One thread that calls
`rumpuser_rw_tryenter` for a reader on a fresh lock holds it alone and leaves
`readers` at 2; after its exit nobody holds the lock, `readers` is 1 and
`access_mtx` is taken for good. -/
theorem rw_tryenter_counts_twice :
    (∃ s : State (Fin 1), Reach step Trans.any Init s ∧ s.Quiet ∧
      s.rw.readers = 2 ∧ s.readers = {0}) ∧
    (∃ s : State (Fin 1), Reach step Trans.any Init s ∧ (∀ t, s.pc t = .idle none) ∧
      s.rw.readers = 1 ∧ s.rw.access = true) := by
  constructor
  · obtain ⟨s, hr, hcount, hreaders, hpc⟩ := any_finds step Init
      (fun s : State (Fin 1) => s.rw.readers = 2 ∧ s.readers = {0} ∧
        ∀ t, s.pc t = .idle (some .reader))
      (.call 0 (.rwTryenter .reader) :: List.replicate 8 (.go 0 false)) (fresh_init 1) (by decide)
    exact ⟨s, hr, fun t => ⟨_, hpc t⟩, hcount, hreaders⟩
  · exact any_finds step Init _
      (.call 0 (.rwTryenter .reader) :: (List.replicate 8 (Act.go 0 false)).append
        [.call 0 .rwExit, .go 0 false, .go 0 false]) (fresh_init 1) (by decide)

end Librettos.RwLock
