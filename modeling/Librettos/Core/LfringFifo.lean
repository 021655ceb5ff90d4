/-
# `Core.LfringFifo` — the lock-free ring with one caller is a queue

`lfring_enqueue` and `lfring_dequeue` called one after another, from either
initialisation.  Each call runs on the words of `Core.Lfring` until it returns;
the specification is a list.

**Proved here.** `lfring_fifo`: the answers of any sequence of calls are those
of a first-in first-out queue, and every call returns within eight operations.
-/
import Librettos.Core.Lfring
import Librettos.Lib.ScqFifo

namespace Librettos.Lfring

open Scq (Ret)

/-! ## Calls -/

/-- The operations of one caller from a point to its return, if they are fewer
than the fuel. -/
def run (order : ℕ) (nonempty : Bool) : ℕ → Ring → Pc → Option (Ring × Ret)
  | 0, _, _ => none
  | _ + 1, q, .idle v => some (q, v)
  | n + 1, q, p => (go order nonempty q false p).bind fun m => run order nonempty n m.1 m.2

def lfringEnqueue (fuel : ℕ) (q : Ring) (order eidx : ℕ) (nonempty : Bool) : Option (Ring × Ret) :=
  run order nonempty fuel q (.enq eidx)

def lfringDequeue (fuel : ℕ) (q : Ring) (order : ℕ) (nonempty : Bool) : Option (Ring × Ret) :=
  run order nonempty fuel q .deq

inductive Op
  | enqueue (eidx : ℕ)
  | dequeue
deriving DecidableEq, Repr

def call (fuel order : ℕ) (q : Ring) : Op → Option (Ring × Ret)
  | .enqueue eidx => lfringEnqueue fuel q order eidx false
  | .dequeue => lfringDequeue fuel q order false

/-- A sequence of calls and their answers. -/
def calls (fuel order : ℕ) : Ring → List Op → Option (Ring × List Ret)
  | q, [] => some (q, [])
  | q, op :: ops => (call fuel order q op).bind fun m =>
    (calls fuel order m.1 ops).map fun rest => (rest.1, m.2 :: rest.2)

/-! ## The specification -/

/-- One call on a queue. -/
def fifoStep : List ℕ → Op → List ℕ × Ret
  | q, .enqueue x => (q ++ [x], .enqueued)
  | [], .dequeue => ([], .empty)
  | x :: q, .dequeue => (q, .value x)

/-- The answers of a queue to a sequence of calls. -/
def fifo : List ℕ → List Op → List Ret
  | _, [] => []
  | q, op :: ops => (fifoStep q op).2 :: fifo (fifoStep q op).1 ops

/-- The callers enqueue indices below `2 ^ order` and never more than `2 ^ order`
elements at a time. -/
def fits (order : ℕ) : List ℕ → List Op → Bool
  | _, [] => true
  | q, .enqueue x :: ops =>
    decide (x < 2 ^ order) && decide (q.length < 2 ^ order) && fits order (q ++ [x]) ops
  | q, .dequeue :: ops => fits order (fifoStep q .dequeue).1 ops

/-- The counters of the ring are below `2 ^ 62` before and after every call. -/
def countersBelow (fuel order : ℕ) : Ring → List Op → Bool
  | q, ops =>
    decide (q.head.toNat < 2 ^ 62) && decide (q.tail.toNat < 2 ^ 62) &&
      match ops with
      | [] => true
      | op :: ops =>
        match call fuel order q op with
        | none => true
        | some m => countersBelow fuel order m.1 ops

/-- The queue that `lfring_init_full` leaves. -/
def fullQueue (order : ℕ) : List ℕ := (List.range (2 ^ order)).map (fullIdx order)

/-! ## One call -/

section
variable {o : ℕ} (hmin : lfringMin ≤ o) (ho : o ≤ 61)

theorem run_succ {n : ℕ} {q : Ring} {p : Pc} {m : Ring × Pc} (h : go o false q false p = some m) :
    run o false (n + 1) q p = run o false n m.1 m.2 := by
  cases p with
  | idle v => simp [go] at h
  | _ => simp only [run, h, Option.bind_some]

include hmin ho

theorem run_sim {n : ℕ} {r r' : Scq.Ring} {p' : Scq.Pc ℕ Scq.Entry} {v : Ret}
    (hrun : Scq.Runs (2 ^ o) (2 ^ 62) n r p' r' v) :
    ∀ {q : Ring} {p : Pc}, Rel o q r → RelPc o p p' →
      ∃ q', run o false n q p = some (q', v) ∧ Rel o q' r' := by
  induction hrun with
  | done =>
    intro q p hq hp
    cases hp
    exact ⟨q, rfl, hq⟩
  | step hb hgo _ ih =>
    intro q p hq hp
    have hsim := go_sim hmin ho false hq hp hb
    rw [hgo] at hsim
    rcases hm : go o false q false p with _ | m
    · rw [hm] at hsim
      cases hsim
    · rw [hm] at hsim
      cases hsim with
      | some hrel =>
        rw [run_succ hm]
        exact ih hrel.1 hrel.2

/-- **One call** on a ring that holds the queue `xs`. -/
theorem call_fifo {q : Ring} {r : Scq.Ring} {xs : List ℕ} (hq : Rel o q r)
    (hf : Scq.Fifo (2 ^ o) r xs) (hhead : q.head.toNat < 2 ^ 62) (htail : q.tail.toNat < 2 ^ 62)
    (op : Op) (hop : ∀ x, op = .enqueue x → x < 2 ^ o ∧ xs.length < 2 ^ o) :
    ∃ q' r', call 8 o q op = some (q', (fifoStep xs op).2) ∧ Rel o q' r' ∧
      Scq.Fifo (2 ^ o) r' (fifoStep xs op).1 := by
  rw [hq.head] at hhead
  rw [hq.tail] at htail
  cases op with
  | enqueue x =>
    obtain ⟨hx, hlen⟩ := hop x rfl
    obtain ⟨r', hrun, hf'⟩ := hf.enqueue hlen hhead.le htail x
    obtain ⟨q', hrun', hq'⟩ := run_sim hmin ho hrun hq (.enq hx)
    exact ⟨q', r', hrun', hq', hf'⟩
  | dequeue =>
    cases xs with
    | nil =>
      obtain ⟨r', hrun, hf'⟩ := hf.dequeue_empty (Nat.two_pow_pos o) hhead
      obtain ⟨q', hrun', hq'⟩ := run_sim hmin ho hrun hq .deq
      exact ⟨q', r', hrun', hq', hf'⟩
    | cons x xs =>
      obtain ⟨r', hrun, hf'⟩ := hf.dequeue hhead htail.le
      obtain ⟨q', hrun', hq'⟩ := run_sim hmin ho hrun hq .deq
      exact ⟨q', r', hrun', hq', hf'⟩

/-- **A sequence of calls** on a ring that holds the queue `xs`. -/
theorem calls_fifo (ops : List Op) : ∀ {q : Ring} {r : Scq.Ring} {xs : List ℕ}, Rel o q r →
    Scq.Fifo (2 ^ o) r xs → fits o xs ops = true → countersBelow 8 o q ops = true →
    ∃ q', calls 8 o q ops = some (q', fifo xs ops) := by
  induction ops with
  | nil => exact fun {q} _ _ _ _ _ _ => ⟨q, rfl⟩
  | cons op ops ih =>
    intro q r xs hq hf hfits hcount
    have hop : (∀ x, op = .enqueue x → x < 2 ^ o ∧ xs.length < 2 ^ o) ∧
        fits o (fifoStep xs op).1 ops = true := by
      cases op with
      | enqueue x =>
        simp only [fits, Bool.and_eq_true, decide_eq_true_eq] at hfits
        refine ⟨fun y hy => ?_, hfits.2⟩
        obtain rfl : x = y := Op.enqueue.inj hy
        exact hfits.1
      | dequeue => exact ⟨fun x hx => by simp at hx, hfits⟩
    rw [countersBelow] at hcount
    simp only [Bool.and_eq_true, decide_eq_true_eq] at hcount
    obtain ⟨⟨hhead, htail⟩, hrest⟩ := hcount
    obtain ⟨q', r', hcall, hq', hf'⟩ := call_fifo hmin ho hq hf hhead htail op hop.1
    rw [hcall] at hrest
    obtain ⟨q'', hcalls⟩ := ih hq' hf' hop.2 hrest
    exact ⟨q'', by simp only [calls, hcall, Option.bind_some, hcalls, Option.map_some, fifo]⟩

end

/-! ## The result -/

/-- **The ring is a queue.**  From `lfring_init_empty` it is empty and from
`lfring_init_full` it holds every index once; the answers to any sequence of
calls are those of the queue, and no call takes more than eight operations. -/
theorem lfring_fifo {order : ℕ} (hmin : lfringMin ≤ order) (hmax : order ≤ 61)
    (array : Word → Word) (ops : List Op) :
    (fits order [] ops = true → countersBelow 8 order initEmpty ops = true →
      ∃ q, calls 8 order initEmpty ops = some (q, fifo [] ops)) ∧
    (fullQueue order).Perm (List.range (2 ^ order)) ∧
    (fits order (fullQueue order) ops = true →
      countersBelow 8 order (initFull order array) ops = true →
      ∃ q, calls 8 order (initFull order array) ops = some (q, fifo (fullQueue order) ops)) := by
  have htop : (-1 : ℤ) ≤ Scq.top (2 ^ order) := by
    have := Nat.two_pow_pos order
    unfold Scq.top
    omega
  refine ⟨fun hfits hcount => ?_, fullIdx_perm hmin (by omega), fun hfits hcount => ?_⟩
  · have hf : Scq.Fifo (2 ^ order) (Scq.start 0 id (-1) : Scq.Sys _ _ _ Unit).ring [] :=
      Scq.fifo_start (Nat.zero_le _) ⟨le_rfl, htop⟩ (fun h => absurd h (Nat.lt_irrefl 0))
    exact calls_fifo hmin hmax ops (rel_initEmpty hmax id) hf hfits hcount
  · have hf : Scq.Fifo (2 ^ order)
        (Scq.start (2 ^ order) (fullIdx order) (Scq.top (2 ^ order)) : Scq.Sys _ _ _ Unit).ring
        (fullQueue order) := Scq.fifo_start le_rfl ⟨htop, le_rfl⟩ (fun _ => rfl)
    exact calls_fifo hmin hmax ops (rel_initFull hmin hmax array) hf hfits hcount

/-- Two elements go in and come out in order, and the ring is empty again. -/
theorem lfring_fifo_two :
    ∃ q, calls 8 4 initEmpty [.enqueue 3, .enqueue 7, .dequeue, .dequeue, .dequeue]
      = some (q, [.enqueued, .enqueued, .value 3, .value 7, .empty]) :=
  (lfring_fifo (by decide) (by decide) (fun _ => 0)
    [.enqueue 3, .enqueue 7, .dequeue, .dequeue, .dequeue]).1 (by decide) (by decide +kernel)

end Librettos.Lfring
