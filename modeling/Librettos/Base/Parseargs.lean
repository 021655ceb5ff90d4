/-
# `Base.Parseargs` — splitting a command line in place

`rumprun_parseargs` (`parseargs.c`) goes over a string once.  A backslash takes the next character
as it is, quotes keep blanks together, and what remains of an argument is written back into the
string: `out` starts where the argument starts and follows `p`.  `makeargv` (`config.c`) calls it
twice, first to count and then with an array for the addresses.

The same automaton with its output apart is `splitInto`.  It reads the string and nothing else.
Reading and writing in one place comes to the same because `out` never catches up with `p`, so that
only what has been read is overwritten (`parseargs_in_place`).

`writes` is a ghost: where a byte was written and where `p` was then, the last one first.  The
`int` counter `nargs` is a natural number; it never passes the number of bytes read, so for strings
of less than 2^31 bytes it does not overflow.
-/
import Librettos.Lib.CStr

namespace Librettos.Parseargs

open Function (update update_of_ne update_self)
open Bytes List Nat

def backslash : UInt8 := 92

/-- `' '`, `'\n'` or `'\t'` -/
def blank (c : UInt8) : Bool := c == 32 || c == 10 || c == 9

/-- `'\''` or `'"'` -/
def quoteChar (c : UInt8) : Bool := c == 39 || c == 34

/-- `quote`: -1, 0, or the character -/
inductive Quote
  | outside
  | plain
  | quoted (c : UInt8)
deriving DecidableEq, Repr

structure Write where
  pos : ℕ
  p : ℕ
deriving DecidableEq, Repr

/-- The variables.  `outarray` has the last address first. -/
structure Scan where
  mem : Mem
  p : ℕ
  out : Option ℕ
  quote : Quote
  nargs : ℕ
  outarray : List ℕ
  writes : List Write

/-- `if (out) *out++ = c` -/
def Scan.put (s : Scan) (c : UInt8) : Scan :=
  match s.out with
  | none => s
  | some o =>
    { s with
      mem := update s.mem o c
      out := some (o + 1)
      writes := ⟨o, s.p⟩ :: s.writes }

/-- Starting an argument; `fill` is whether there is an `outarray`. -/
def Scan.start (fill : Bool) (s : Scan) : Scan :=
  let s := { s with nargs := s.nargs + 1, quote := .plain }
  if fill then { s with outarray := (s.p - 1) :: s.outarray, out := some (s.p - 1) } else s

/-- The quotes, and what is written. -/
def Scan.inside (s : Scan) (ac rc : UInt8) : Scan :=
  if s.quote = .quoted ac then { s with quote := .plain }
  else if quoteChar ac then { s with quote := .quoted ac }
  else s.put rc

/-- The body of the loop from the test for a new argument on. -/
def Scan.char (fill : Bool) (s : Scan) (ac rc : UInt8) : Scan :=
  Scan.inside (if s.quote = .outside then s.start fill else s) ac rc

/-- Ending an argument. -/
def Scan.finish (s : Scan) : Scan := { s.put 0 with quote := .outside }

/-- The body of the loop; `true` is `break`. -/
def body (fill : Bool) (s : Scan) : Scan × Bool :=
  let ac := s.mem s.p
  let rc := if ac = backslash then s.mem (s.p + 1) else ac
  let s := { s with p := if ac = backslash then s.p + 2 else s.p + 1 }
  if rc = 0 then (s.finish, true)
  else if blank ac then
    let s := if s.quote = .plain then s.finish else s
    if s.quote = .outside then (s, false) else (s.char fill ac rc, false)
  else (s.char fill ac rc, false)

/-- The loop, for at most so many rounds. -/
def loop (fill : Bool) : ℕ → Scan → Option Scan
  | 0, _ => none
  | n + 1, s =>
    match body fill s with
    | (s', true) => some s'
    | (s', false) => loop fill n s'

/-- `rumprun_parseargs` -/
def rumprunParseargs (fuel : ℕ) (mem : Mem) (p : ℕ) (fill : Bool) : Option Scan :=
  loop fill fuel ⟨mem, p, none, .outside, 0, [], []⟩

/-! ## With the output apart -/

/-- The state of the automaton and the arguments, the last one first. -/
structure Split where
  quote : Quote
  args : List (List UInt8)
deriving DecidableEq, Repr

def Split.put (t : Split) (c : UInt8) : Split :=
  match t.args with
  | [] => t
  | a :: args => { t with args := (a ++ [c]) :: args }

def Split.start (t : Split) : Split := ⟨.plain, [] :: t.args⟩

def Split.inside (t : Split) (ac rc : UInt8) : Split :=
  if t.quote = .quoted ac then { t with quote := .plain }
  else if quoteChar ac then { t with quote := .quoted ac }
  else t.put rc

def Split.char (t : Split) (ac rc : UInt8) : Split :=
  Split.inside (if t.quote = .outside then t.start else t) ac rc

/-- A blank ends an argument, or is a part of it. -/
def Split.blank (t : Split) (ac : UInt8) : Split :=
  match t.quote with
  | .quoted _ => t.char ac ac
  | _ => { t with quote := .outside }

/-- A character that is not escaped. -/
def Split.next (t : Split) (ac : UInt8) : Split :=
  if Parseargs.blank ac then t.blank ac else t.char ac ac

/-- The automaton over the characters up to the terminating zero. -/
def splitInto : Split → List UInt8 → Split
  | t, [] => { t with quote := .outside }
  | t, ac :: s =>
    if ac = backslash then
      match s with
      | [] => { t with quote := .outside }
      | rc :: s => splitInto (t.char ac rc) s
    else splitInto (t.next ac) s

/-- The arguments of a command line. -/
def split (s : List UInt8) : List (List UInt8) := (splitInto ⟨.outside, []⟩ s).args.reverse

section
variable {fill : Bool} {s s' : Scan} {t : Split} {m : Mem} {b n : ℕ} {ac rc c : UInt8}
variable {rest : List UInt8}
variable {starts : List ℕ} {args : List (List UInt8)} {q : Quote}

/-! ## One round of the loop -/

/-- `p` moves on. -/
def Scan.skip (s : Scan) (k : ℕ) : Scan := { s with p := s.p + k }

/-- A blank: it ends an argument, or is a part of it. -/
def Scan.blank (fill : Bool) (s : Scan) (ac : UInt8) : Scan :=
  match s.quote with
  | .outside => s
  | .plain => s.finish
  | .quoted _ => s.char fill ac ac

/-- A character that is not escaped. -/
def Scan.next (fill : Bool) (s : Scan) (ac : UInt8) : Scan :=
  if Parseargs.blank ac then s.blank fill ac else s.char fill ac ac

@[simp] theorem Scan.p_put (s : Scan) (c : UInt8) : (s.put c).p = s.p := by
  unfold Scan.put
  split <;> rfl

@[simp] theorem Scan.p_finish (s : Scan) : s.finish.p = s.p := s.p_put 0

@[simp] theorem Scan.p_start (fill : Bool) (s : Scan) : (s.start fill).p = s.p := by
  cases fill <;> rfl

@[simp] theorem Scan.p_char (fill : Bool) (s : Scan) (ac rc : UInt8) :
    (s.char fill ac rc).p = s.p := by
  unfold Scan.char Scan.inside
  split <;> (split; · simp) <;> split <;> simp

@[simp] theorem Scan.p_next (fill : Bool) (s : Scan) (ac : UInt8) : (s.next fill ac).p = s.p := by
  unfold Scan.next Scan.blank
  split
  · split <;> simp
  · simp

theorem body_zero (h : s.mem s.p = 0) : body fill s = ((s.skip 1).finish, true) := by
  have hne : ¬(0 : UInt8) = backslash := by decide
  simp [body, h, hne, Scan.skip]

theorem body_escaped_zero (h : s.mem s.p = backslash) (h' : s.mem (s.p + 1) = 0) :
    body fill s = ((s.skip 2).finish, true) := by
  simp [body, h, h', Scan.skip]

theorem body_escaped (h : s.mem s.p = backslash) (h' : s.mem (s.p + 1) = rc) (h0 : rc ≠ 0) :
    body fill s = ((s.skip 2).char fill backslash rc, false) := by
  have hb : Parseargs.blank backslash = false := by decide
  simp [body, h, h', h0, hb, Scan.skip]

theorem body_next (h : s.mem s.p = ac) (hne : ac ≠ backslash) (h0 : ac ≠ 0) :
    body fill s = ((s.skip 1).next fill ac, false) := by
  simp only [body, h, if_neg hne, if_neg h0, Scan.next]
  split
  · next hb =>
    cases hq : s.quote <;> simp [Scan.blank, Scan.skip, hq, Scan.finish]
  · rfl

/-! ## Following the automaton -/

theorem splitInto_escaped (t : Split) (rc : UInt8) (rest : List UInt8) :
    splitInto t (backslash :: rc :: rest) = splitInto (t.char backslash rc) rest := by
  exact if_pos rfl

theorem splitInto_backslash (t : Split) : splitInto t [backslash] = { t with quote := .outside } := by
  exact if_pos rfl

theorem splitInto_next (h : ac ≠ backslash) :
    splitInto t (ac :: rest) = splitInto (t.next ac) rest := by
  rw [splitInto.eq_def]
  exact if_neg h

/-- **The simulation rule.**  A relation that a round keeps, as long as what lies ahead of `p` is as
it was, holds between the loop and the automaton until the string ends; the loop does end. -/
theorem loop_follows {R E : Scan → Split → Prop}
    (hahead : ∀ s t, R s t → ∀ x, s.p ≤ x → s.mem x = m x)
    (hchar : ∀ s t k ac rc, 0 < k → rc ≠ 0 → R s t → R ((s.skip k).char fill ac rc) (t.char ac rc))
    (hnext : ∀ s t ac, ac ≠ 0 → R s t → R ((s.skip 1).next fill ac) (t.next ac))
    (hend : ∀ s t k, 0 < k → R s t → E (s.skip k).finish { t with quote := .outside }) :
    ∀ (n : ℕ) {rest : List UInt8} {s : Scan} {t : Split}, R s t → CStr m s.p rest →
      rest.length < n → ∃ s', loop fill n s = some s' ∧ E s' (splitInto t rest) ∧
        s'.p = s.p + rest.length + 1
  | 0, _, _, _, _, _, hn => by omega
  | n + 1, [], s, t, h, hc, _ => by
    have hz : s.mem s.p = 0 := (hahead s t h s.p le_rfl).trans hc.stop
    refine ⟨(s.skip 1).finish, ?_, hend s t 1 one_pos h, by simp [Scan.skip]⟩
    rw [loop, body_zero hz]
  | n + 1, ac :: rest, s, t, h, hc, hn => by
    have hac : s.mem s.p = ac := (hahead s t h s.p le_rfl).trans hc.text.1
    have h0 : ac ≠ 0 := fun h0 => hc.nonzero (h0 ▸ mem_cons_self)
    have htail := hc.tail
    rw [length_cons] at hn
    by_cases hbs : ac = backslash
    · subst hbs
      cases rest with
      | nil =>
        have hz : s.mem (s.p + 1) = 0 := (hahead s t h _ (by omega)).trans htail.stop
        refine ⟨(s.skip 2).finish, ?_, ?_, by simp [Scan.skip]⟩
        · rw [loop, body_escaped_zero hac hz]
        · rw [splitInto_backslash]
          exact hend s t 2 two_pos h
      | cons rc rest =>
        have hrc : s.mem (s.p + 1) = rc := (hahead s t h _ (by omega)).trans htail.text.1
        have hrc0 : rc ≠ 0 := fun h0 => htail.nonzero (h0 ▸ mem_cons_self)
        have hstep := hchar s t 2 backslash rc two_pos hrc0 h
        rw [length_cons] at hn
        obtain ⟨s', hs', he, hp⟩ := loop_follows hahead hchar hnext hend n hstep
          (by simpa [Scan.skip] using htail.tail) (by omega)
        refine ⟨s', ?_, ?_, ?_⟩
        · rw [loop, body_escaped hac hrc hrc0]
          exact hs'
        · rw [splitInto_escaped]
          exact he
        · rw [hp]
          simp only [Scan.p_char, Scan.skip, length_cons]
          omega
    · have hstep := hnext s t ac h0 h
      obtain ⟨s', hs', he, hp⟩ := loop_follows hahead hchar hnext hend n hstep
        (by simpa [Scan.skip] using htail) (by omega)
      refine ⟨s', ?_, ?_, ?_⟩
      · rw [loop, body_next hac hbs h0]
        exact hs'
      · rw [splitInto_next hbs]
        exact he
      · rw [hp]
        simp only [Scan.p_next, Scan.skip, length_cons]
        omega

/-! ## Counting -/

@[simp] theorem Split.length_put (t : Split) (c : UInt8) :
    (t.put c).args.length = t.args.length := by
  unfold Split.put
  split <;> simp [*]

@[simp] theorem Split.quote_put (t : Split) (c : UInt8) : (t.put c).quote = t.quote := by
  unfold Split.put
  split <;> rfl

/-- Without an array nothing is written. -/
structure Counts (m : Mem) (s : Scan) (t : Split) : Prop where
  mem : s.mem = m
  out : s.out = none
  writes : s.writes = []
  quote : s.quote = t.quote
  nargs : s.nargs = t.args.length

section
variable (h : Counts m s t)
include h

theorem Counts.skip (k : ℕ) : Counts m (s.skip k) t :=
  { h with }

theorem Counts.put_eq (c : UInt8) : s.put c = s := by
  rw [Scan.put, h.out]

theorem Counts.finish : Counts m s.finish { t with quote := .outside } := by
  rw [Scan.finish, h.put_eq]
  exact { h with quote := rfl }

theorem Counts.inside : Counts m (s.inside ac rc) (t.inside ac rc) := by
  rw [Scan.inside, Split.inside, h.quote]
  split
  · exact { h with quote := rfl }
  · split
    · exact { h with quote := rfl }
    · rw [h.put_eq]
      exact ⟨h.mem, h.out, h.writes, by simp [h.quote], by simp [h.nargs]⟩

theorem Counts.char : Counts m (s.char false ac rc) (t.char ac rc) := by
  rw [Scan.char, Split.char, h.quote]
  split
  · refine Counts.inside ⟨h.mem, h.out, h.writes, rfl, ?_⟩
    simp [Scan.start, Split.start, h.nargs]
  · exact h.inside

theorem Counts.next : Counts m (s.next false ac) (t.next ac) := by
  unfold Scan.next Split.next Scan.blank Split.blank
  rw [h.quote]
  split
  · cases hq : t.quote with
    | outside => exact { h with quote := h.quote.trans hq }
    | plain => exact h.finish
    | quoted c => exact h.char
  · exact h.char

end

/-! ## Filling

`Stored` are the arguments that have been ended, the last one first, each before the next one. -/

def Stored (m : Mem) (b : ℕ) : ℕ → List ℕ → List (List UInt8) → Prop
  | _, [], [] => True
  | hi, a :: starts, arg :: args =>
    b ≤ a ∧ CStr m a arg ∧ a + arg.length < hi ∧ Stored m b a starts args
  | _, _, _ => False

/-- Where `out` is: no argument yet, behind the last one, or at the end of the one at hand. -/
inductive Last (m : Mem) (b : ℕ) : Quote → Option ℕ → List ℕ → List (List UInt8) → Prop
  | none : Last m b .outside none [] []
  | ended {a : ℕ} {arg : List UInt8} {starts : List ℕ} {args : List (List UInt8)} :
      Stored m b (a + arg.length + 1) (a :: starts) (arg :: args) →
      Last m b .outside (some (a + arg.length + 1)) (a :: starts) (arg :: args)
  | started {q : Quote} {a : ℕ} {arg : List UInt8} {starts : List ℕ} {args : List (List UInt8)} :
      q ≠ .outside → b ≤ a → Text m a arg → 0 ∉ arg → Stored m b a starts args →
      Last m b q (some (a + arg.length)) (a :: starts) (arg :: args)

/-- What is written goes into a byte that has been read, and behind everything that was written. -/
structure Wrote (b : ℕ) (s : Scan) : Prop where
  read : ∀ w ∈ s.writes, b ≤ w.pos ∧ w.pos < w.p ∧ w.p ≤ s.p
  out : ∀ w ∈ s.writes, ∃ o, s.out = some o ∧ w.pos < o
  order : s.writes.Pairwise fun w w' => w'.pos < w.pos

structure InPlace (m : Mem) (b : ℕ) (s : Scan) (t : Split) : Prop where
  quote : s.quote = t.quote
  nargs : s.nargs = t.args.length
  unread : ∀ x, s.p ≤ x → s.mem x = m x
  below : ∀ x, x < b → s.mem x = m x
  base : b ≤ s.p
  out : ∀ o, s.out = some o → o ≤ s.p
  last : Last s.mem b s.quote s.out s.outarray t.args
  wrote : Wrote b s

theorem Stored.update {x : ℕ} : ∀ {hi : ℕ} {starts : List ℕ} {args : List (List UInt8)},
    Stored m b hi starts args → hi ≤ x → Stored (update m x c) b hi starts args
  | _, [], [], _, _ => trivial
  | hi, a :: starts, arg :: args, h, hx => by
    obtain ⟨hb, hstr, hlt, hrest⟩ := h
    exact ⟨hb, hstr.update (by omega), hlt, hrest.update (by omega)⟩

theorem Stored.mono {hi hi' : ℕ}
    (h : Stored m b hi starts args) (hle : hi ≤ hi') : Stored m b hi' starts args := by
  cases starts <;> cases args
  case nil.nil => trivial
  case cons.cons => exact ⟨h.1, h.2.1, h.2.2.1.trans_le hle, h.2.2.2⟩
  all_goals exact h.elim

theorem Stored.forall₂ : ∀ {hi : ℕ} {starts : List ℕ} {args : List (List UInt8)},
    Stored m b hi starts args → List.Forall₂ (CStr m) starts args
  | _, [], [], _ => .nil
  | _, _ :: _, _ :: _, h => .cons h.2.1 h.2.2.2.forall₂

theorem Last.stored {o : Option ℕ}
    (h : Last m b q o starts args) (hq : q = .outside) {hi : ℕ} (hhi : ∀ x, o = some x → x ≤ hi) :
    Stored m b hi starts args := by
  cases h with
  | none => trivial
  | ended h => exact h.mono (hhi _ rfl)
  | started hne => exact absurd hq hne

theorem InPlace.skip (h : InPlace m b s t) (k : ℕ) : InPlace m b (s.skip k) t := { h with
  unread := fun x hx => h.unread x (le_trans (le_add_right _ _) hx)
  base := h.base.trans (le_add_right _ _)
  out := fun o ho => (h.out o ho).trans (le_add_right _ _)
  wrote := by
    refine ⟨fun w hw => ?_, h.wrote.out, h.wrote.order⟩
    obtain ⟨hb, hp, hle⟩ := h.wrote.read w hw
    exact ⟨hb, hp, hle.trans (le_add_right _ _)⟩ }

theorem Scan.put_some {o : ℕ} (h : s.out = some o) (c : UInt8) : s.put c =
    { s with mem := update s.mem o c, out := some (o + 1), writes := ⟨o, s.p⟩ :: s.writes } := by
  rw [Scan.put, h]

theorem Wrote.put {o : ℕ} (h : Wrote b s) (ho : s.out = some o) (hb : b ≤ o) (hp : o < s.p)
    (c : UInt8) : Wrote b (s.put c) := by
  have hlt : ∀ w ∈ s.writes, w.pos < o := by
    intro w hw
    obtain ⟨o', ho', hlt⟩ := h.out w hw
    rw [ho] at ho'
    exact hlt.trans_eq (Option.some.inj ho').symm
  rw [Scan.put_some ho]
  constructor
  case read =>
    intro w hw
    rcases mem_cons.mp hw with rfl | hw
    · exact ⟨hb, hp, le_rfl⟩
    · exact h.read w hw
  case out =>
    intro w hw
    refine ⟨o + 1, rfl, ?_⟩
    rcases mem_cons.mp hw with rfl | hw
    · exact lt_succ_self o
    · exact (hlt w hw).trans (lt_succ_self o)
  case order => exact pairwise_cons.mpr ⟨hlt, h.order⟩

/-- A byte is written behind `b` and before `p`; what is left to show is where `out` is then. -/
theorem InPlace.write {o : ℕ} {t' : Split} (h : InPlace m b s t) (ho : s.out = some o)
    (hb : b ≤ o) (hp : o < s.p) (hq : q = t'.quote) (hargs : t.args.length = t'.args.length)
    (hlast : Last (update s.mem o c) b q (some (o + 1)) s.outarray t'.args) :
    InPlace m b { s.put c with quote := q } t' := by
  have hwrote := h.wrote.put ho hb hp c
  rw [Scan.put_some ho] at hwrote ⊢
  constructor
  case quote => exact hq
  case nargs => exact h.nargs.trans hargs
  case unread =>
    intro x hx
    exact (update_of_ne (by dsimp only at hx; omega) _ _).trans (h.unread x hx)
  case below =>
    intro x hx
    exact (update_of_ne (by omega) _ _).trans (h.below x hx)
  case base => exact h.base
  case out =>
    intro o' ho'
    cases ho'
    exact hp
  case last => exact hlast
  case wrote => exact { hwrote with }

theorem Last.inside {o : Option ℕ} (h : Last m b q o starts args) (hq : q ≠ .outside) :
    ∃ a arg starts' args', o = some (a + arg.length) ∧ starts = a :: starts' ∧ args = arg :: args' ∧
      b ≤ a ∧ Text m a arg ∧ 0 ∉ arg ∧ Stored m b a starts' args' := by
  cases h with
  | none | ended => exact absurd rfl hq
  | started _ hb htext h0 hstored => exact ⟨_, _, _, _, rfl, rfl, rfl, hb, htext, h0, hstored⟩

section
variable (h : InPlace m b s t)
include h

theorem InPlace.setQuote (hq : s.quote ≠ .outside)
    (hq' : q ≠ .outside) : InPlace m b { s with quote := q } { t with quote := q } := by
  obtain ⟨a, arg, starts, args, hout, hstarts, hargs, hb, htext, h0, hstored⟩ := h.last.inside hq
  refine ⟨rfl, h.nargs, h.unread, h.below, h.base, h.out, ?_, h.wrote.read, h.wrote.out,
    h.wrote.order⟩
  rw [hout, hstarts, hargs]
  exact .started hq' hb htext h0 hstored

theorem InPlace.put (hq : s.quote ≠ .outside) (hc : c ≠ 0)
    (hp : ∀ o, s.out = some o → o < s.p) : InPlace m b (s.put c) (t.put c) := by
  obtain ⟨a, arg, starts, args, hout, hstarts, hargs, hb, htext, h0, hstored⟩ := h.last.inside hq
  have hput : (t.put c).args = (arg ++ [c]) :: args := by rw [Split.put, hargs]
  have hsame : s.put c = { s.put c with quote := s.quote } := by rw [Scan.put_some hout]
  rw [hsame]
  refine h.write hout (by omega) (hp _ hout) (by simpa using h.quote) (by simp) ?_
  rw [hstarts, hput, show a + arg.length + 1 = a + (arg ++ [c]).length by simp; rfl]
  refine .started hq hb htext.push ?_ (hstored.update (by omega))
  rw [mem_append, mem_singleton]
  rintro (h | h)
  · exact h0 h
  · exact hc h.symm

theorem InPlace.finish (hq : s.quote ≠ .outside)
    (hp : ∀ o, s.out = some o → o < s.p) : InPlace m b s.finish { t with quote := .outside } := by
  obtain ⟨a, arg, starts, args, hout, hstarts, hargs, hb, htext, h0, hstored⟩ := h.last.inside hq
  refine h.write hout (by omega) (hp _ hout) rfl rfl ?_
  rw [hstarts, hargs]
  exact .ended ⟨hb, ⟨htext.update (.inr le_rfl), update_self _ _ _, h0⟩,
    lt_succ_self _, hstored.update (by omega)⟩

theorem InPlace.start (hq : s.quote = .outside) (hb : b < s.p)
    (hp : ∀ o, s.out = some o → o < s.p) : InPlace m b (s.start true) t.start := { h with
  quote := by rfl
  nargs := by simp [Scan.start, Split.start, h.nargs]
  out := by
    intro o ho
    cases ho
    exact sub_le _ _
  last := by
    have hstored : Stored s.mem b (s.p - 1) s.outarray t.args :=
      h.last.stored hq fun o ho => le_sub_one_of_lt (hp o ho)
    have hlast : Last s.mem b .plain (some (s.p - 1 + ([] : List UInt8).length))
        ((s.p - 1) :: s.outarray) ([] :: t.args) :=
      .started nofun (le_sub_one_of_lt hb) trivial not_mem_nil hstored
    exact hlast
  wrote := by
    refine ⟨h.wrote.read, fun w hw => ?_, h.wrote.order⟩
    obtain ⟨o, ho, hlt⟩ := h.wrote.out w hw
    exact ⟨s.p - 1, rfl, hlt.trans_le (le_sub_one_of_lt (hp o ho))⟩ }

theorem InPlace.inside (hq : s.quote ≠ .outside) (hc : rc ≠ 0)
    (hp : ∀ o, s.out = some o → o < s.p) : InPlace m b (s.inside ac rc) (t.inside ac rc) := by
  rw [Scan.inside, Split.inside, h.quote]
  split
  · exact h.setQuote hq nofun
  · split
    · exact h.setQuote hq nofun
    · exact h.put hq hc hp

theorem InPlace.out_lt {k : ℕ} (hk : 0 < k) (o : ℕ)
    (ho : (s.skip k).out = some o) : o < (s.skip k).p :=
  (h.out o ho).trans_lt (Nat.lt_add_of_pos_right hk)

theorem InPlace.char {k : ℕ} (hk : 0 < k) (hc : rc ≠ 0) :
    InPlace m b ((s.skip k).char true ac rc) (t.char ac rc) := by
  have hskip := h.skip k
  have hout := h.out_lt hk
  rw [Scan.char, Split.char, ← hskip.quote]
  split
  · next hq =>
    have hb : b < (s.skip k).p := h.base.trans_lt (Nat.lt_add_of_pos_right hk)
    refine (hskip.start hq hb hout).inside nofun hc fun o ho => ?_
    cases ho
    exact sub_one_lt_of_lt hb
  · next hq => exact hskip.inside hq hc hout

theorem InPlace.next (hc : ac ≠ 0) : InPlace m b ((s.skip 1).next true ac) (t.next ac) := by
  have hskip := h.skip 1
  unfold Scan.next Split.next Scan.blank Split.blank
  rw [← hskip.quote]
  split
  · cases hq : (s.skip 1).quote with
    | outside =>
      have hsame : { t with quote := .outside } = t := by rw [← hq, hskip.quote]
      rw [hsame]
      exact hskip
    | plain => exact hskip.finish (hq ▸ nofun) (h.out_lt one_pos)
    | quoted c => exact h.char one_pos hc
  · exact h.char one_pos hc

/-! ## The end of the string -/

/-- What is known when the loop is left. -/
structure Ended (m : Mem) (b : ℕ) (s : Scan) (t : Split) : Prop where
  nargs : s.nargs = t.args.length
  unread : ∀ x, s.p ≤ x → s.mem x = m x
  below : ∀ x, x < b → s.mem x = m x
  stored : ∃ hi, Stored s.mem b hi s.outarray t.args
  wrote : Wrote b s

theorem InPlace.ended (hq : s.quote = .outside) : Ended m b s t :=
  ⟨h.nargs, h.unread, h.below, ⟨s.p, h.last.stored hq h.out⟩, h.wrote⟩

end

theorem Last.base_le {o : ℕ} (h : Last m b q (some o) starts args) : b ≤ o := by
  generalize ho : some o = o' at h
  cases h with
  | none => cases ho
  | ended hstored =>
    cases ho
    exact hstored.1.trans (by omega)
  | started _ hb =>
    cases ho
    exact hb.trans (by omega)

/-- At the terminating zero a zero is written at `out`, also where no argument is at hand: there it
goes behind the last one. -/
theorem InPlace.stop {k : ℕ} (h : InPlace m b s t) (hk : 0 < k) :
    Ended m b (s.skip k).finish { t with quote := .outside } := by
  have hskip := h.skip k
  by_cases hq : (s.skip k).quote = .outside
  · cases ho : (s.skip k).out with
    | none =>
      have hput : (s.skip k).put 0 = s.skip k := by rw [Scan.put, ho]
      rw [Scan.finish, hput]
      obtain ⟨hnargs, hunread, hbelow, hstored, hwrote⟩ := hskip.ended hq
      exact ⟨hnargs, hunread, hbelow, hstored, hwrote.read, hwrote.out, hwrote.order⟩
    | some o =>
      have hlast := hskip.last
      rw [ho] at hlast
      have hlt := h.out_lt hk o ho
      have hwrote := hskip.wrote.put ho hlast.base_le hlt 0
      have hstored : Stored (s.skip k).mem b o (s.skip k).outarray t.args :=
        hlast.stored hq fun x hx => (Option.some.inj hx).ge
      rw [Scan.finish]
      rw [Scan.put_some ho] at hwrote ⊢
      constructor
      case nargs => exact hskip.nargs
      case unread =>
        intro x hx
        exact (update_of_ne (by dsimp only at hx; omega) _ _).trans (hskip.unread x hx)
      case below =>
        intro x hx
        have hb := hlast.base_le
        exact (update_of_ne (by omega) _ _).trans (hskip.below x hx)
      case stored => exact ⟨o, hstored.update le_rfl⟩
      case wrote => exact { hwrote with }
  · exact (hskip.finish hq (h.out_lt hk)).ended rfl

/-! ## Main result -/

/-- What a call has done when it returns; the string had its zero at `stop`. -/
structure Filled (m : Mem) (b stop : ℕ) (s : Scan) (args : List (List UInt8)) : Prop where
  nargs : s.nargs = args.length
  strings : List.Forall₂ (CStr s.mem) s.outarray.reverse args
  /-- a byte that is written has been read, and is in the string -/
  writes : ∀ w ∈ s.writes, b ≤ w.pos ∧ w.pos < w.p ∧ w.pos ≤ stop
  /-- none is written twice -/
  once : s.writes.Pairwise fun w w' => w'.pos < w.pos
  apart : ∀ x, x < b ∨ stop < x → s.mem x = m x

theorem count_pass {str : List UInt8} (h : CStr m b str) (hn : str.length < n) :
    ∃ s, rumprunParseargs n m b false = some s ∧ s.nargs = (split str).length ∧ s.mem = m ∧
      s.writes = [] := by
  have hstart : Counts m ⟨m, b, none, .outside, 0, [], []⟩ ⟨.outside, []⟩ :=
    ⟨rfl, rfl, rfl, rfl, rfl⟩
  obtain ⟨s, hs, hcounts, -⟩ := loop_follows
    (fun s t h x _ => by rw [h.mem]) (fun s t k ac rc _ _ h => (h.skip k).char)
    (fun s t ac _ h => (h.skip 1).next) (fun s t k _ h => (h.skip k).finish) n hstart h hn
  exact ⟨s, hs, by rw [hcounts.nargs, split, length_reverse], hcounts.mem, hcounts.writes⟩

theorem fill_pass {str : List UInt8} (h : CStr m b str) (hn : str.length < n) :
    ∃ s, rumprunParseargs n m b true = some s ∧ Filled m b (b + str.length) s (split str) := by
  have hstart : InPlace m b ⟨m, b, none, .outside, 0, [], []⟩ ⟨.outside, []⟩ :=
    ⟨rfl, rfl, fun _ _ => rfl, fun _ _ => rfl, le_rfl, nofun, .none, nofun, nofun, .nil⟩
  obtain ⟨s, hs, hend, hp⟩ := loop_follows
    (fun s t h => h.unread) (fun s t k ac rc hk hc h => h.char hk hc)
    (fun s t ac hc h => h.next hc) (fun s t k hk h => h.stop hk) n hstart h hn
  refine ⟨s, hs, ?_⟩
  constructor
  case nargs => rw [hend.nargs, split, length_reverse]
  case strings =>
    obtain ⟨hi, hstored⟩ := hend.stored
    rw [split, forall₂_reverse_iff]
    exact hstored.forall₂
  case writes =>
    intro w hw
    obtain ⟨hb, hlt, hle⟩ := hend.wrote.read w hw
    dsimp only at hp
    exact ⟨hb, hlt, by omega⟩
  case once => exact hend.wrote.order
  case apart =>
    rintro x (hx | hx)
    · exact hend.below x hx
    · dsimp only at hp
      exact hend.unread x (by omega)

/-- **In place.**  For every string, both passes return, the counting pass leaves memory alone, and
both count the same arguments.  The filling pass writes inside the string only, only to bytes it
has read, to none of them twice, and leaves the arguments that the automaton makes with its
output apart. -/
theorem parseargs_in_place {str : List UInt8} (h : CStr m b str) (hn : str.length < n) :
    ∃ c s, rumprunParseargs n m b false = some c ∧ rumprunParseargs n m b true = some s ∧
      c.nargs = s.nargs ∧ c.mem = m ∧ c.writes = [] ∧
      Filled m b (b + str.length) s (split str) := by
  obtain ⟨c, hc, hnargs, hmem, hwrites⟩ := count_pass h hn
  obtain ⟨s, hs, hfilled⟩ := fill_pass h hn
  exact ⟨c, s, hc, hs, hnargs.trans hfilled.nargs.symm, hmem, hwrites, hfilled⟩

end

/-- `a 'b c' d\`: the last backslash is before the zero. -/
theorem parseargs_in_place_three :
    ∃ s, rumprunParseargs 11 (ofList [97, 32, 39, 98, 32, 99, 39, 32, 100, 92]) 0 true = some s ∧
      List.Forall₂ (CStr s.mem) s.outarray.reverse [[97], [98, 32, 99], [100]] := by
  have hstr : CStr (ofList [97, 32, 39, 98, 32, 99, 39, 32, 100, 92]) 0
      [97, 32, 39, 98, 32, 99, 39, 32, 100, 92] := by decide
  obtain ⟨c, s, -, hs, -, -, -, hfilled⟩ := parseargs_in_place (n := 11) hstr (by decide)
  exact ⟨s, hs, hfilled.strings⟩

end Librettos.Parseargs
