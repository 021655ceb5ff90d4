/-
# `Core.SchedCreate` — a thread that cannot be created

`bmk_sched_create` (`sched.c`) takes four things for a thread, in this order:

    the TLS area       bmk_sched_tls_alloc, as an argument of the call; not tested, and filled
                       in at once
    the structure      from the ring freeq; tested: NULL is returned
    the stack          stackalloc, unless the caller has one; not tested, and a frame is put on it
    the block node     from the ring nodes; tested: the machine is halted

So the one failure that is reported comes after the first acquisition, which is not undone
(`create_leaks`), and the two allocations that can fail are used as if they had not.  A call
behaves as it should if and only if nothing is short (`create_clean_iff`).

Heap and page allocator are those of `Core.Memalloc`.  Their answers are part of the call.
-/
import Librettos.Core.Memalloc

namespace Librettos.SchedCreate

/-- `MAXCPUS` -/
def maxcpus : Nat := 64

/-- What is configured and linked: `bmk_numcpus`, `bmk_stackpageorder`, `TLSAREASIZE` and
`TCBOFFSET`. -/
structure Config where
  numcpus : Nat
  stackpageorder : Nat
  tlsareasize : Nat
  tcboffset : Nat

/-- `struct bmk_thread`, as far as it is filled in from what has been taken. -/
structure Thread where
  cpuidx : Nat
  stackbase : Nat
  extstack : Bool
  mustjoin : Bool
  tlsarea : Nat
  blockNode : Nat
deriving DecidableEq, Repr

/-- The rings from their heads on.  `wilds` counts what is written through a base that is null. -/
structure State where
  freeq : List Nat
  nodes : List Nat
  runq : Nat → List Nat
  threads : Nat → Option Thread
  heap : Memalloc.State
  wilds : Nat

/-- The arguments that are looked at. -/
structure Args where
  joinable : Bool
  cpuidx : Int
  /-- `none` is `NULL` -/
  stackBase : Option Nat
  stackSize : Nat
deriving DecidableEq, Repr

inductive Outcome
  | null
  | created (idx : Nat)
  /-- an assertion has failed, or `bmk_platform_halt` was called -/
  | halted
deriving DecidableEq, Repr

/-- `bt_cpuidx` -/
def Config.cpuidx (cfg : Config) (cpuidx : Int) : Nat :=
  if cfg.numcpus = 1 then 0
  else if cpuidx = -1 then maxcpus
  else (cpuidx % 2 ^ 32).toNat

/-- Something is written at a base. -/
def State.writeAt (s : State) (base : Option Nat) : State :=
  if base = none then { s with wilds := s.wilds + 1 } else s

/-- `bmk_sched_tls_alloc`: the area that was found.  It is filled in there. -/
def tlsAlloc (cfg : Config) (s : State) (page : Option Nat) : Option (State × Option Nat) :=
  (Memalloc.memalloc s.heap cfg.tlsareasize 0 .wiredbmk page).map fun r =>
    (State.writeAt { s with heap := r.1 } r.2, r.2)

/-- The end of `do_sched_create_withtls`: the structure is filled in, a node is taken, and the
thread can run. -/
def finish (s : State) (idx : Nat) (thread : Thread) : State × Outcome :=
  match s.nodes with
  | [] => (s, .halted)
  | node :: nodes =>
    ({ s with
        nodes := nodes
        threads := Function.update s.threads idx (some { thread with blockNode := node })
        runq := Function.update s.runq thread.cpuidx (s.runq thread.cpuidx ++ [idx]) },
      .created idx)

/-- `do_sched_create_withtls` -/
def createWithtls (cfg : Config) (s : State) (args : Args) (tlsarea : Nat) (page : Option Nat) :
    State × Outcome :=
  match s.freeq with
  | [] => (s, .null)
  | idx :: freeq =>
    let s := { s with freeq := freeq }
    let cpuidx := cfg.cpuidx args.cpuidx
    if maxcpus < cpuidx then (s, .halted)
    else
      match args.stackBase with
      | some base => finish s idx ⟨cpuidx, base, true, args.joinable, tlsarea, 0⟩
      | none =>
        if args.stackSize ≠ 0 then (s, .halted)
        else
          match Memalloc.pgalloc s.heap cfg.stackpageorder page with
          | none => (s, .halted)
          | some (heap, base) =>
            finish (State.writeAt { s with heap := heap } base) idx
              ⟨cpuidx, base.getD 0, false, args.joinable, tlsarea, 0⟩

/-- `bmk_sched_create` -/
def bmkSchedCreate (cfg : Config) (s : State) (args : Args) (tlsPage stackPage : Option Nat) :
    State × Outcome :=
  match tlsAlloc cfg s tlsPage with
  | none => (s, .halted)
  | some (s, tlsmem) => createWithtls cfg s args (tlsmem.getD 0 + cfg.tcboffset) stackPage

/-! ## What a call needs -/

/-- There is memory for the TLS area. -/
def tlsFound (cfg : Config) (s : State) (tlsPage : Option Nat) : Prop :=
  ∃ heap p, Memalloc.memalloc s.heap cfg.tlsareasize 0 .wiredbmk tlsPage = some (heap, some p)

/-- The call gets to `stackalloc`: the caller has no stack, and the rest of the arguments is in
order. -/
def asksStack (cfg : Config) (args : Args) : Prop :=
  args.stackBase = none ∧ args.stackSize = 0 ∧ cfg.cpuidx args.cpuidx ≤ maxcpus

/-- There is no memory for the stack that is asked for, once the heap has the area. -/
def stackMissing (cfg : Config) (s : State) (args : Args) (tlsPage stackPage : Option Nat) : Prop :=
  asksStack cfg args ∧ ∀ heap p,
    Memalloc.memalloc s.heap cfg.tlsareasize 0 .wiredbmk tlsPage = some (heap, some p) →
      ∀ heap' base, Memalloc.pgalloc heap cfg.stackpageorder stackPage ≠ some (heap', some base)

/-- What a failure is to look like: `NULL`, and everything as before; and where memory is short,
`NULL` and not a thread with a null base. -/
structure FailsClean (cfg : Config) (s : State) (args : Args) (tlsPage stackPage : Option Nat) :
    Prop where
  null : (bmkSchedCreate cfg s args tlsPage stackPage).2 = .null →
    (bmkSchedCreate cfg s args tlsPage stackPage).1.freeq = s.freeq ∧
    (bmkSchedCreate cfg s args tlsPage stackPage).1.nodes = s.nodes ∧
    (bmkSchedCreate cfg s args tlsPage stackPage).1.heap = s.heap
  short : ¬tlsFound cfg s tlsPage ∨ stackMissing cfg s args tlsPage stackPage →
    (bmkSchedCreate cfg s args tlsPage stackPage).2 = .null ∧
    (bmkSchedCreate cfg s args tlsPage stackPage).1.wilds = s.wilds

section
variable {cfg : Config} {s : State} {args : Args} {tlsPage stackPage : Option Nat}

/-! ## The steps of a call -/

theorem wilds_writeAt (s : State) (base : Option Nat) : s.wilds ≤ (s.writeAt base).wilds := by
  rw [State.writeAt]
  split
  · exact Nat.le_succ _
  · exact le_rfl

theorem finish_ne_null (s : State) (idx : Nat) (thread : Thread) :
    (finish s idx thread).2 ≠ .null := by
  unfold finish
  split <;> simp

theorem wilds_finish (s : State) (idx : Nat) (thread : Thread) :
    (finish s idx thread).1.wilds = s.wilds := by
  unfold finish
  split <;> rfl

theorem createWithtls_null_iff {tlsarea : Nat} :
    (createWithtls cfg s args tlsarea stackPage).2 = .null ↔ s.freeq = [] := by
  unfold createWithtls
  cases s.freeq with
  | nil => simp
  | cons idx freeq =>
    dsimp only
    split
    · simp
    · cases args.stackBase with
      | some base => simp [finish_ne_null]
      | none =>
        dsimp only
        split
        · simp
        · cases Memalloc.pgalloc s.heap cfg.stackpageorder stackPage <;> simp [finish_ne_null]

theorem createWithtls_of_nil {tlsarea : Nat} (h : s.freeq = []) :
    createWithtls cfg s args tlsarea stackPage = (s, .null) := by
  simp [createWithtls, h]

theorem wilds_createWithtls (s : State) (tlsarea : Nat) :
    s.wilds ≤ (createWithtls cfg s args tlsarea stackPage).1.wilds := by
  unfold createWithtls
  cases s.freeq with
  | nil => exact le_rfl
  | cons idx freeq =>
    dsimp only
    split
    · exact le_rfl
    · cases args.stackBase with
      | some base =>
        dsimp only
        rw [wilds_finish]
      | none =>
        dsimp only
        split
        · exact le_rfl
        · cases Memalloc.pgalloc s.heap cfg.stackpageorder stackPage with
          | none => exact le_rfl
          | some r =>
            dsimp only
            rw [wilds_finish]
            refine le_trans ?_ (wilds_writeAt _ _)
            exact le_rfl

theorem bmkSchedCreate_of_found {heap : Memalloc.State} {p : Nat}
    (h : Memalloc.memalloc s.heap cfg.tlsareasize 0 .wiredbmk tlsPage = some (heap, some p)) :
    bmkSchedCreate cfg s args tlsPage stackPage =
      createWithtls cfg { s with heap := heap } args (p + cfg.tcboffset) stackPage := by
  simp [bmkSchedCreate, tlsAlloc, h, State.writeAt]

/-- The area has not been found, and is filled in all the same. -/
theorem wilds_of_not_tlsFound (h : ¬tlsFound cfg s tlsPage)
    (hnull : (bmkSchedCreate cfg s args tlsPage stackPage).2 = .null) :
    s.wilds < (bmkSchedCreate cfg s args tlsPage stackPage).1.wilds := by
  unfold bmkSchedCreate at hnull ⊢
  cases hmem : Memalloc.memalloc s.heap cfg.tlsareasize 0 .wiredbmk tlsPage with
  | none => simp [tlsAlloc, hmem] at hnull
  | some r =>
    obtain ⟨heap, area⟩ := r
    cases area with
    | some p => exact absurd ⟨heap, p, hmem⟩ h
    | none =>
      simp only [tlsAlloc, hmem, Option.map_some, State.writeAt, if_true]
      refine Nat.lt_of_lt_of_le ?_ (wilds_createWithtls _ _)
      exact Nat.lt_succ_self _

theorem heap_ne_of_found {heap : Memalloc.State} {p : Nat}
    (h : Memalloc.memalloc s.heap cfg.tlsareasize 0 .wiredbmk tlsPage = some (heap, some p)) :
    heap ≠ s.heap := by
  obtain ⟨a, hlive, -⟩ := Memalloc.memalloc_live h
  rintro rfl
  exact absurd (congrArg List.length hlive) (by simp)

/-- **A clean failure.**  A call that fails leaves everything as it was, and one that finds no
memory fails, if and only if there is memory for the TLS area, a structure, and memory for the
stack if one is asked for: that is, if nothing fails. -/
theorem create_clean_iff (cfg : Config) (s : State) (args : Args) (tlsPage stackPage : Option Nat) :
    FailsClean cfg s args tlsPage stackPage ↔
      tlsFound cfg s tlsPage ∧ s.freeq ≠ [] ∧ ¬stackMissing cfg s args tlsPage stackPage := by
  constructor
  · intro h
    have hfound : tlsFound cfg s tlsPage := by
      by_contra hnot
      obtain ⟨hnull, hwilds⟩ := h.short (.inl hnot)
      exact absurd hwilds (wilds_of_not_tlsFound hnot hnull).ne'
    obtain ⟨heap, p, hmem⟩ := hfound
    have heq : bmkSchedCreate cfg s args tlsPage stackPage =
        createWithtls cfg { s with heap := heap } args (p + cfg.tcboffset) stackPage :=
      bmkSchedCreate_of_found hmem
    have hfreeq : s.freeq ≠ [] := by
      intro hnil
      have hcall := heq.trans (createWithtls_of_nil (s := { s with heap := heap }) hnil)
      have hnull := h.null (congrArg Prod.snd hcall)
      rw [hcall] at hnull
      exact heap_ne_of_found hmem hnull.2.2
    refine ⟨⟨heap, p, hmem⟩, hfreeq, fun hmissing => ?_⟩
    have hnull := (h.short (.inr hmissing)).1
    rw [heq, createWithtls_null_iff] at hnull
    exact hfreeq hnull
  · rintro ⟨hfound, hfreeq, hstack⟩
    constructor
    case null =>
      intro hnull
      obtain ⟨heap, p, hmem⟩ := hfound
      rw [bmkSchedCreate_of_found hmem, createWithtls_null_iff] at hnull
      exact absurd hnull hfreeq
    case short =>
      rintro (hnot | hmissing)
      · exact absurd hfound hnot
      · exact absurd hmissing hstack

end

/-- One processor; stacks of four pages; an area of 128 bytes, the thread pointer in its middle. -/
def small : Config := ⟨1, 2, 128, 64⟩

/-- A heap from which nothing has been taken yet. -/
def fresh (freeq : List Nat) : State :=
  ⟨freeq, [0], fun _ => [], fun _ => none, ⟨fun _ => [], fun _ => none, ∅, [], false⟩, 0⟩

/-- **A failure that leaks, and one that goes on.**  Without a free structure the call returns
`NULL`, and the TLS area stays allocated.  Without memory for the stack a thread is created whose
stack is at 0; without memory for the area it is filled in at 0. -/
theorem create_leaks :
    ((bmkSchedCreate small (fresh []) ⟨false, -1, none, 0⟩ (some 0x10000) none).2 = .null ∧
      (bmkSchedCreate small (fresh []) ⟨false, -1, none, 0⟩ (some 0x10000) none).1.heap.live =
        [⟨128, 0, .wiredbmk, 0x10010, 0x10000, 3⟩]) ∧
    ((bmkSchedCreate small (fresh [7]) ⟨false, -1, none, 0⟩ (some 0x10000) none).2 = .created 7 ∧
      ((bmkSchedCreate small (fresh [7]) ⟨false, -1, none, 0⟩ (some 0x10000) none).1.threads 7).map
        Thread.stackbase = some 0) ∧
    (bmkSchedCreate small (fresh [7]) ⟨false, -1, some 0x20000, 0x4000⟩ none none).2 = .created 7 ∧
      (bmkSchedCreate small (fresh [7]) ⟨false, -1, some 0x20000, 0x4000⟩ none none).1.wilds = 1 := by
  decide +kernel

end Librettos.SchedCreate
