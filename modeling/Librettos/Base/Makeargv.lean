/-
# `Base.Makeargv` — command lines that come back as they were written

`makeargv` (`config.c`) makes an entry of `rumprun_execs` from a command line.  An argument can be
written in three ways: with a backslash before each character, in double quotes, or in single quotes,
where in quotes a backslash is needed before a backslash and before the quote.

    it's        \i\t\'\s      "it's"      'it\'s'

The second of these does not come back.  Inside quotes `rumprun_parseargs` takes the other quote
character for the beginning of a quoted part: it drops the character, and the quote that was to end
the argument begins another part, which goes on behind the argument (`quote_dropped`).  The
command lines that do come back are those without it (`makeargv_yields_iff`).
-/
import Librettos.Base.Parseargs

namespace Librettos.Makeargv

open Bytes List Parseargs

/-- `rre_flags`: 0, or one of `RUMPRUN_EXEC_BACKGROUND`, `_PIPE` and `_CMDLINE` -/
inductive Flags
  | zero
  | background
  | pipe
  | cmdline
deriving DecidableEq, Repr

/-- `struct rumprun_exec`; `none` is `NULL`. -/
structure Exec where
  flags : Flags
  argc : ℕ
  argv : List (Option ℕ)
deriving DecidableEq, Repr

/-- `makeargv`, with what `malloc` answers.  The result is memory and `rumprun_execs`. -/
def makeargv (fuel : ℕ) (malloc : Bool) (mem : Mem) (argvstr : ℕ) (execs : List Exec) :
    Option (Except String (Mem × List Exec)) :=
  (rumprunParseargs fuel mem argvstr false).bind fun count =>
    if malloc = false then some (.error "could not allocate rre")
    else
      (rumprunParseargs fuel count.mem argvstr true).map fun s =>
        .ok (s.mem, execs ++ [⟨.cmdline, s.nargs, s.outarray.reverse.map some ++ [none]⟩])

/-! ## Writing a command line -/

inductive Style
  | escaped
  | double
  | single
deriving DecidableEq, Repr

def doubleQuote : UInt8 := 34

def singleQuote : UInt8 := 39

/-- A character inside the quotes `q`. -/
def escape (q c : UInt8) : List UInt8 := if c = backslash ∨ c = q then [backslash, c] else [c]

def quotedBy (q : UInt8) (arg : List UInt8) : List UInt8 := q :: (arg.flatMap (escape q) ++ [q])

def Style.write : Style → List UInt8 → List UInt8
  | .escaped, arg => arg.flatMap fun c => [backslash, c]
  | .double, arg => quotedBy doubleQuote arg
  | .single, arg => quotedBy singleQuote arg

/-- An argument with the way it is written, and what is between it and the one before. -/
structure Item where
  style : Style
  text : List UInt8
  gap : List UInt8
  nonzero : 0 ∉ text
  nonempty : style = .escaped → text ≠ []
  gap_ne : gap ≠ []
  gap_blank : ∀ c ∈ gap, blank c = true

def Item.written (x : Item) : List UInt8 := x.style.write x.text

/-- The rest of a command line, with the gap before each argument. -/
def remaining (items : List Item) : List UInt8 := items.flatMap fun y => y.gap ++ y.written

def commandLine : List Item → List UInt8
  | [] => []
  | x :: items => x.written ++ remaining items

/-- In quotes there is no quote character of the other kind. -/
def Item.clean (x : Item) : Prop :=
  match x.style with
  | .escaped => True
  | .double => singleQuote ∉ x.text
  | .single => doubleQuote ∉ x.text

instance (x : Item) : Decidable x.clean :=
  match h : x.style with
  | .escaped => isTrue (by rw [Item.clean, h]; trivial)
  | .double => decidable_of_iff (singleQuote ∉ x.text) (by rw [Item.clean, h])
  | .single => decidable_of_iff (doubleQuote ∉ x.text) (by rw [Item.clean, h])

/-! ## The automaton, one character at a time -/

section
variable {q q' c : UInt8} {a u v w rest : List UInt8} {args : List (List UInt8)} {t : Split}
variable {x : Item} {items : List Item}
variable {o : Quote}

/-- The two quote characters. -/
structure Quotes (q q' : UInt8) : Prop where
  mine : quoteChar q = true
  other : quoteChar q' = true
  ne : q ≠ q'
  only : ∀ c, quoteChar c = true → c = q ∨ c = q'

theorem quotes_double : Quotes doubleQuote singleQuote := by
  refine ⟨by decide, by decide, by decide, fun c hc => ?_⟩
  simp only [quoteChar, Bool.or_eq_true, beq_iff_eq] at hc
  exact hc.symm

theorem quotes_single : Quotes singleQuote doubleQuote := by
  refine ⟨by decide, by decide, by decide, fun c hc => ?_⟩
  simp only [quoteChar, Bool.or_eq_true, beq_iff_eq] at hc
  exact hc

theorem quoteChar_spec (h : quoteChar c = true) : blank c = false ∧ c ≠ backslash := by
  simp only [quoteChar, Bool.or_eq_true, beq_iff_eq] at h
  rcases h with rfl | rfl <;> exact ⟨by decide, by decide⟩

theorem blank_spec (h : blank c = true) : quoteChar c = false ∧ c ≠ backslash := by
  simp only [blank, Bool.or_eq_true, beq_iff_eq] at h
  rcases h with (rfl | rfl) | rfl <;> exact ⟨by decide, by decide⟩

theorem char_put {ac rc : UInt8} (ho : o ≠ .outside) (hac : quoteChar ac = false)
    (hne : o ≠ .quoted ac) : Split.char ⟨o, a :: args⟩ ac rc = ⟨o, (a ++ [rc]) :: args⟩ := by
  simp [Split.char, Split.inside, Split.put, ho, hac, hne]

theorem escaped_put (ho : o ≠ .outside) (hne : o ≠ .quoted backslash) :
    splitInto ⟨o, a :: args⟩ (backslash :: c :: rest) = splitInto ⟨o, (a ++ [c]) :: args⟩ rest := by
  rw [splitInto_escaped, char_put ho (by decide) hne]

theorem quote_next (ho : o ≠ .outside) (hq : quoteChar q = true) :
    splitInto ⟨o, a :: args⟩ (q :: rest) =
      splitInto ⟨if o = .quoted q then .plain else .quoted q, a :: args⟩ rest := by
  obtain ⟨hblank, hne⟩ := quoteChar_spec hq
  rw [splitInto_next hne, Split.next, hblank]
  simp only [Bool.false_eq_true, if_false, Split.char, if_neg ho, Split.inside, hq, if_true]
  split <;> rfl

theorem quote_starts (hq : quoteChar q = true) :
    splitInto ⟨.outside, args⟩ (q :: rest) = splitInto ⟨.quoted q, [] :: args⟩ rest := by
  obtain ⟨hblank, hne⟩ := quoteChar_spec hq
  rw [splitInto_next hne, Split.next, hblank]
  simp [Split.char, Split.inside, Split.start, hq]

theorem quoted_put (hc : c ≠ backslash) (hq : quoteChar c = false) (hne : c ≠ q) :
    splitInto ⟨.quoted q, a :: args⟩ (c :: rest) =
      splitInto ⟨.quoted q, (a ++ [c]) :: args⟩ rest := by
  have hput : Split.char ⟨.quoted q, a :: args⟩ c c = ⟨.quoted q, (a ++ [c]) :: args⟩ :=
    char_put nofun hq (by simp [hne.symm])
  rw [splitInto_next hc, Split.next, Split.blank]
  simp only [hput, ite_self]

theorem blank_ends (hc : blank c = true) :
    splitInto ⟨.plain, args⟩ (c :: rest) = splitInto ⟨.outside, args⟩ rest := by
  rw [splitInto_next (blank_spec hc).2, Split.next, if_pos hc, Split.blank]

theorem blank_skips (hc : blank c = true) :
    splitInto ⟨.outside, args⟩ (c :: rest) = splitInto ⟨.outside, args⟩ rest := by
  rw [splitInto_next (blank_spec hc).2, Split.next, if_pos hc, Split.blank]

/-! ## Arguments that come back -/

theorem split_escaped : ∀ (arg a : List UInt8),
    splitInto ⟨.plain, a :: args⟩ ((arg.flatMap fun c => [backslash, c]) ++ rest) =
      splitInto ⟨.plain, (a ++ arg) :: args⟩ rest
  | [], a => by simp
  | c :: arg, a => by
    rw [flatMap_cons, append_assoc, cons_append, cons_append, nil_append,
      escaped_put (by simp) (by simp), split_escaped arg, append_assoc]
    rfl

/-- A part of an argument in quotes, without the other quote. -/
theorem split_quoted (hq : Quotes q q') : ∀ (arg a : List UInt8), q' ∉ arg →
    splitInto ⟨.quoted q, a :: args⟩ (arg.flatMap (escape q) ++ rest) =
      splitInto ⟨.quoted q, (a ++ arg) :: args⟩ rest
  | [], a, _ => by simp
  | c :: arg, a, hnot => by
    rw [mem_cons, not_or] at hnot
    have hone : splitInto ⟨.quoted q, a :: args⟩ (escape q c ++ (arg.flatMap (escape q) ++ rest)) =
        splitInto ⟨.quoted q, (a ++ [c]) :: args⟩ (arg.flatMap (escape q) ++ rest) := by
      rw [escape]
      split
      · have hqb : q ≠ backslash := (quoteChar_spec hq.mine).2
        exact escaped_put nofun (by simp [hqb])
      · next hc =>
        rw [not_or] at hc
        refine quoted_put hc.1 ?_ hc.2
        rw [← Bool.not_eq_true]
        intro hquote
        rcases hq.only c hquote with h | h
        · exact hc.2 h
        · exact hnot.1 h.symm
    rw [flatMap_cons, append_assoc, hone, split_quoted hq arg _ hnot.2, append_assoc]
    rfl

theorem split_quotedBy (hq : Quotes q q') (hnot : q' ∉ u) :
    splitInto ⟨.outside, args⟩ (quotedBy q u ++ rest) = splitInto ⟨.plain, u :: args⟩ rest := by
  have hlast : quotedBy q u ++ rest = q :: (u.flatMap (escape q) ++ q :: rest) := by
    simp [quotedBy]
  rw [hlast, quote_starts hq.mine, split_quoted hq u [] hnot, quote_next (by simp) hq.mine,
    if_pos rfl, nil_append]

theorem Item.clean.split (hx : x.clean) :
    splitInto ⟨.outside, args⟩ (x.written ++ rest) = splitInto ⟨.plain, x.text :: args⟩ rest := by
  unfold Item.clean at hx
  rw [Item.written]
  cases hstyle : x.style with
  | escaped =>
    cases htext : x.text with
    | nil => exact absurd htext (x.nonempty hstyle)
    | cons c arg =>
      refine (splitInto_escaped _ _ _).trans ?_
      exact split_escaped arg [c]
  | double =>
    rw [hstyle] at hx
    exact split_quotedBy quotes_double hx
  | single =>
    rw [hstyle] at hx
    exact split_quotedBy quotes_single hx

theorem split_gap : ∀ (gap : List UInt8), (∀ c ∈ gap, blank c = true) →
    splitInto ⟨.outside, args⟩ (gap ++ rest) = splitInto ⟨.outside, args⟩ rest
  | [], _ => rfl
  | c :: gap, h => by
    rw [cons_append, blank_skips (h c mem_cons_self)]
    exact split_gap gap fun d hd => h d (mem_cons_of_mem _ hd)

theorem Item.split_gap (x : Item) :
    splitInto ⟨.plain, args⟩ (x.gap ++ rest) = splitInto ⟨.outside, args⟩ rest := by
  have hblank := x.gap_blank
  cases hgap : x.gap with
  | nil => exact absurd hgap x.gap_ne
  | cons c gap =>
    rw [hgap] at hblank
    rw [cons_append, blank_ends (hblank c mem_cons_self)]
    exact Makeargv.split_gap gap fun d hd => hblank d (mem_cons_of_mem _ hd)

/-! ## Arguments that do not -/

theorem char_outside (args : List (List UInt8)) (ac rc : UInt8) :
    ∃ o w, o ≠ Quote.outside ∧ Split.char ⟨.outside, args⟩ ac rc = ⟨o, w :: args⟩ := by
  by_cases hq : quoteChar ac = true
  · exact ⟨.quoted ac, [], by simp, by simp [Split.char, Split.start, Split.inside, hq]⟩
  · refine ⟨.plain, [rc], by simp, ?_⟩
    simp [Split.char, Split.start, Split.inside, Split.put, hq]

theorem char_inside (ho : o ≠ .outside) (a : List UInt8) (args : List (List UInt8))
    (ac rc : UInt8) :
    ∃ o' w, o' ≠ Quote.outside ∧ Split.char ⟨o, a :: args⟩ ac rc = ⟨o', (a ++ w) :: args⟩ := by
  simp only [Split.char, if_neg ho, Split.inside]
  split
  · exact ⟨.plain, [], by simp, by rw [append_nil]⟩
  · split
    · exact ⟨.quoted ac, [], by simp, by rw [append_nil]⟩
    · exact ⟨o, [rc], ho, rfl⟩

/-- What has been split stays as it is, but for the argument at hand, which may become longer. -/
structure Kept (s : List UInt8) : Prop where
  outside : ∀ args, args <:+ (splitInto ⟨.outside, args⟩ s).args
  inside : ∀ {o}, o ≠ Quote.outside → ∀ a args,
    ∃ w, (a ++ w) :: args <:+ (splitInto ⟨o, a :: args⟩ s).args

theorem Kept.char {s : List UInt8} (h : Kept s) (ac rc : UInt8) :
    (∀ args, args <:+ (splitInto (Split.char ⟨.outside, args⟩ ac rc) s).args) ∧
      ∀ {o}, o ≠ Quote.outside → ∀ a args,
        ∃ w, (a ++ w) :: args <:+ (splitInto (Split.char ⟨o, a :: args⟩ ac rc) s).args := by
  constructor
  · intro args
    obtain ⟨o, w, ho, heq⟩ := char_outside args ac rc
    obtain ⟨w', hw'⟩ := h.inside ho w args
    rw [heq]
    exact (suffix_cons _ _).trans hw'
  · intro o ho a args
    obtain ⟨o', w, ho', heq⟩ := char_inside ho a args ac rc
    obtain ⟨w', hw'⟩ := h.inside ho' (a ++ w) args
    rw [append_assoc] at hw'
    exact ⟨w ++ w', by rw [heq]; exact hw'⟩

theorem Kept.next {s : List UInt8} (h : Kept s) (ac : UInt8) :
    (∀ args, args <:+ (splitInto (Split.next ⟨.outside, args⟩ ac) s).args) ∧
      ∀ {o}, o ≠ Quote.outside → ∀ a args,
        ∃ w, (a ++ w) :: args <:+ (splitInto (Split.next ⟨o, a :: args⟩ ac) s).args := by
  unfold Split.next
  split
  · refine ⟨fun args => h.outside args, fun {o} ho a args => ?_⟩
    cases o with
    | outside => exact absurd rfl ho
    | plain => exact ⟨[], by rw [append_nil]; exact h.outside _⟩
    | quoted q => exact (h.char ac ac).2 ho a args
  · exact h.char ac ac

theorem kept_nil : Kept [] :=
  ⟨fun _ => suffix_rfl, fun _ _ _ => ⟨[], by rw [append_nil]; exact suffix_rfl⟩⟩

theorem kept : ∀ s : List UInt8, Kept s
  | [] => kept_nil
  | [ac] => by
    by_cases hac : ac = backslash
    · subst hac
      exact ⟨kept_nil.outside, kept_nil.inside⟩
    · have hnext := kept_nil.next ac
      constructor
      case outside => exact fun args => by rw [splitInto_next hac]; exact hnext.1 args
      case inside => exact fun ho a args => by rw [splitInto_next hac]; exact hnext.2 ho a args
  | ac :: rc :: s => by
    by_cases hac : ac = backslash
    · subst hac
      have hchar := (kept s).char backslash rc
      constructor
      case outside => exact fun args => by rw [splitInto_escaped]; exact hchar.1 args
      case inside => exact fun ho a args => by rw [splitInto_escaped]; exact hchar.2 ho a args
    · have hnext := (kept (rc :: s)).next ac
      constructor
      case outside => exact fun args => by rw [splitInto_next hac]; exact hnext.1 args
      case inside => exact fun ho a args => by rw [splitInto_next hac]; exact hnext.2 ho a args

/-- What follows an argument: nothing, or a blank. -/
def Break (rest : List UInt8) : Prop := ∀ c ∈ rest.head?, blank c = true

/-- The argument at hand goes on, if it does, with another character than `q'`. -/
def Differs (q' : UInt8) (a : List UInt8) (args final : List (List UInt8)) : Prop :=
  ∃ w, (a ++ w) :: args <:+ final ∧ w.head? ≠ some q'

theorem Differs.put (ho : o ≠ .outside) (hc : c ≠ q') :
    Differs q' a args (splitInto ⟨o, (a ++ [c]) :: args⟩ rest).args := by
  obtain ⟨w, hw⟩ := (kept rest).inside ho (a ++ [c]) args
  rw [append_assoc] at hw
  exact ⟨[c] ++ w, hw, by simpa using hc⟩

theorem Differs.ended : Differs q' a args (splitInto ⟨.outside, a :: args⟩ rest).args :=
  ⟨[], by rw [append_nil]; exact (kept rest).outside _, by simp⟩

/-- The quote that was to end the argument begins a quoted part. -/
theorem differs_reopened (hq : Quotes q q') (hrest : Break rest) :
    Differs q' a args (splitInto ⟨.quoted q, a :: args⟩ rest).args := by
  cases rest with
  | nil => exact ⟨[], by rw [append_nil]; exact suffix_rfl, by simp⟩
  | cons c rest =>
    have hc : blank c = true := hrest c rfl
    obtain ⟨hquote, hne⟩ := blank_spec hc
    have hcq : c ≠ q := fun h => by simp [h, hq.mine] at hquote
    have hcq' : c ≠ q' := fun h => by simp [h, hq.other] at hquote
    rw [quoted_put hne hquote hcq]
    exact .put nofun hcq'

/-- Behind the other quote.  The states are the other quote, and none after an even number of
them; the induction is over the rest of the argument. -/
theorem differs (hq : Quotes q q') (hrest : Break rest) : ∀ (v : List UInt8) {o : Quote},
    o = .plain ∨ o = .quoted q' →
      Differs q' a args (splitInto ⟨o, a :: args⟩ (v.flatMap (escape q) ++ q :: rest)).args
  | [], o, ho => by
    have hin : o ≠ .outside := by rcases ho with rfl | rfl <;> exact nofun
    have hne : o ≠ .quoted q := by rcases ho with rfl | rfl <;> simp [hq.ne.symm]
    rw [flatMap_nil, nil_append, quote_next hin hq.mine, if_neg hne]
    exact differs_reopened hq hrest
  | c :: v, o, ho => by
    have hin : o ≠ .outside := by rcases ho with rfl | rfl <;> exact nofun
    have hqb : q' ≠ backslash := (quoteChar_spec hq.other).2
    rw [flatMap_cons, append_assoc, escape]
    split
    · next hc =>
      have hne : o ≠ .quoted backslash := by rcases ho with rfl | rfl <;> simp [hqb]
      have hcq' : c ≠ q' := by
        rcases hc with rfl | rfl
        · exact hqb.symm
        · exact hq.ne
      rw [cons_append, cons_append, nil_append, escaped_put hin hne]
      exact .put hin hcq'
    · next hc =>
      rw [not_or] at hc
      rw [cons_append, nil_append]
      by_cases hcq' : c = q'
      · rw [hcq', quote_next hin hq.other]
        refine differs hq hrest v ?_
        split
        · exact .inl rfl
        · exact .inr rfl
      · have hquote : quoteChar c = false := by
          rw [← Bool.not_eq_true]
          intro h
          exact (hq.only c h).elim hc.2 hcq'
        rcases ho with rfl | rfl
        · by_cases hblank : blank c = true
          · rw [blank_ends hblank]
            exact .ended
          · rw [splitInto_next hc.1, Split.next, if_neg hblank, char_put (by simp) hquote (by simp)]
            exact .put nofun hcq'
        · rw [quoted_put hc.1 hquote hcq']
          exact .put nofun hcq'

/-- **The other quote is dropped.**  An argument in quotes with the other quote character in it does
not come back, whatever follows. -/
theorem quote_dropped (hq : Quotes q q') (hmem : q' ∈ u) (hrest : Break rest) :
    ¬ u :: args <:+ (splitInto ⟨.outside, args⟩ (quotedBy q u ++ rest)).args := by
  obtain ⟨a, v, rfl, hnot⟩ := eq_append_cons_of_mem hmem
  have hother : escape q q' = [q'] :=
    if_neg (not_or.mpr ⟨(quoteChar_spec hq.other).2, hq.ne.symm⟩)
  have hline : quotedBy q (a ++ q' :: v) ++ rest =
      q :: (a.flatMap (escape q) ++ q' :: (v.flatMap (escape q) ++ q :: rest)) := by
    simp [quotedBy, hother]
  have hne : Quote.quoted q ≠ .quoted q' := by simp [hq.ne]
  rw [hline, quote_starts hq.mine, split_quoted hq a [] hnot, nil_append,
    quote_next (by simp) hq.other, if_neg hne]
  obtain ⟨w, hw, hhead⟩ : Differs q' a args (splitInto ⟨.quoted q', a :: args⟩
      (v.flatMap (escape q) ++ q :: rest)).args := differs hq hrest v (.inr rfl)
  intro hall
  have hlen : ((a ++ q' :: v) :: args).length = ((a ++ w) :: args).length := rfl
  have heq := (suffix_of_suffix_length_le hall hw hlen.le).eq_of_length hlen
  rw [cons.injEq, append_cancel_left_eq] at heq
  exact hhead (by rw [← heq.1]; rfl)

theorem Item.lost (hx : ¬ x.clean) (hrest : Break rest) :
    ¬ x.text :: args <:+ (splitInto ⟨.outside, args⟩ (x.written ++ rest)).args := by
  unfold Item.clean at hx
  rw [Item.written]
  cases hstyle : x.style with
  | escaped =>
    rw [hstyle] at hx
    exact absurd trivial hx
  | double =>
    rw [hstyle] at hx
    exact quote_dropped quotes_double (not_not.mp hx) hrest
  | single =>
    rw [hstyle] at hx
    exact quote_dropped quotes_single (not_not.mp hx) hrest

/-! ## Command lines -/

theorem remaining_break : ∀ items : List Item, Break (remaining items)
  | [], _, h => by simp [remaining] at h
  | x :: items, c, h => by
    have hblank := x.gap_blank
    cases hgap : x.gap with
    | nil => exact absurd hgap x.gap_ne
    | cons d gap =>
      rw [hgap] at hblank
      simp only [remaining, flatMap_cons, hgap, cons_append, head?_cons, Option.mem_some_iff] at h
      exact h ▸ hblank d mem_cons_self

/-- One argument, and the rest if it comes back. -/
theorem split_item_iff {goal : List (List UInt8)}
    (hrest : (splitInto ⟨.plain, x.text :: args⟩ (remaining items)).args =
      goal ++ x.text :: args ↔ ∀ y ∈ items, y.clean) :
    (splitInto ⟨.outside, args⟩ (x.written ++ remaining items)).args = goal ++ x.text :: args ↔
      ∀ y ∈ x :: items, y.clean := by
  rw [forall_mem_cons]
  by_cases hx : x.clean
  · rw [hx.split, hrest]
    exact ⟨fun h => ⟨hx, h⟩, fun h => h.2⟩
  · refine ⟨fun h => ?_, fun h => absurd h.1 hx⟩
    have hkept : x.text :: args <:+ (splitInto ⟨.outside, args⟩ (x.written ++ remaining items)).args :=
      h ▸ suffix_append _ _
    exact absurd hkept (Item.lost hx (remaining_break items))

theorem split_remaining_iff : ∀ (items : List Item) (args : List (List UInt8)),
    (splitInto ⟨.plain, args⟩ (remaining items)).args = (items.map Item.text).reverse ++ args ↔
      ∀ x ∈ items, x.clean
  | [], args => by simp [remaining, splitInto]
  | x :: items, args => by
    have hline : remaining (x :: items) = x.gap ++ (x.written ++ remaining items) := by
      simp [remaining]
    have htexts : ((x :: items).map Item.text).reverse ++ args =
        (items.map Item.text).reverse ++ x.text :: args := by simp
    rw [hline, x.split_gap, htexts]
    exact split_item_iff (split_remaining_iff items (x.text :: args))

/-- A command line is split into the arguments it was written from, if they are clean. -/
theorem split_commandLine_iff (items : List Item) :
    split (commandLine items) = items.map Item.text ↔ ∀ x ∈ items, x.clean := by
  rw [split, reverse_eq_iff]
  cases items with
  | nil => simp [commandLine, splitInto]
  | cons x items =>
    have htexts : ((x :: items).map Item.text).reverse =
        (items.map Item.text).reverse ++ [x.text] := by simp
    rw [htexts]
    exact split_item_iff (split_remaining_iff items [x.text])

/-! ## Main result -/

/-- `makeargv` has appended an entry with these arguments. -/
def Yields (n : ℕ) (m : Mem) (b : ℕ) (execs : List Exec) (args : List (List UInt8)) : Prop :=
  ∃ m' starts,
    makeargv n true m b execs =
        some (.ok (m', execs ++ [⟨.cmdline, args.length, starts.map some ++ [none]⟩])) ∧
      List.Forall₂ (CStr m') starts args

theorem forall₂_unique {m : Mem} : ∀ {starts : List ℕ} {l l' : List (List UInt8)},
    List.Forall₂ (CStr m) starts l → List.Forall₂ (CStr m) starts l' → l = l'
  | [], _, _, .nil, .nil => rfl
  | _ :: _, _, _, .cons h hs, .cons h' hs' => by rw [h.unique h', forall₂_unique hs hs']

/-- It appends an entry with what the string is split into, and with nothing else. -/
theorem yields_iff {m : Mem} {b n : ℕ} {str : List UInt8} (h : CStr m b str) (hn : str.length < n)
    (execs : List Exec) (args : List (List UInt8)) : Yields n m b execs args ↔ split str = args := by
  obtain ⟨c, hc, -, hmem, -⟩ := count_pass h hn
  obtain ⟨s, hs, hfilled⟩ := fill_pass h hn
  have hmake : makeargv n true m b execs = some (.ok (s.mem,
      execs ++ [⟨.cmdline, s.nargs, s.outarray.reverse.map some ++ [none]⟩])) := by
    simp [makeargv, hc, hmem, hs]
  constructor
  · rintro ⟨m', starts, heq, hstrings⟩
    rw [hmake] at heq
    simp only [Option.some.injEq, Except.ok.injEq, Prod.mk.injEq, append_cancel_left_eq,
      cons.injEq, Exec.mk.injEq, append_cancel_right_eq, and_true, true_and] at heq
    obtain ⟨rfl, -, hstarts⟩ := heq
    have hstarts' : s.outarray.reverse = starts :=
      map_injective_iff.mpr (Option.some_injective _) hstarts
    exact forall₂_unique (hstarts' ▸ hfilled.strings) hstrings
  · rintro rfl
    exact ⟨s.mem, s.outarray.reverse, by rw [hmake, hfilled.nargs], hfilled.strings⟩

/-- **The round trip.**  A command line yields exactly the arguments it was written from if, and
only if, no argument in quotes has the other quote character in it. -/
theorem makeargv_yields_iff {m : Mem} {b n : ℕ} (items : List Item) (execs : List Exec)
    (h : CStr m b (commandLine items)) (hn : (commandLine items).length < n) :
    Yields n m b execs (items.map Item.text) ↔ ∀ x ∈ items, x.clean := by
  rw [yields_iff h hn]
  exact split_commandLine_iff items

end

theorem blank_space : ∀ c ∈ [(32 : UInt8)], blank c = true := by
  intro c hc
  rw [mem_singleton.mp hc]
  rfl

/-- `it's` and `b` -/
def itsB (style : Style) : List Item :=
  [⟨style, [105, 116, 39, 115], [32], by decide, by simp, by decide, blank_space⟩,
    ⟨.escaped, [98], [32], by decide, by simp, by decide, blank_space⟩]

/-- In single quotes, `'it\'s' \b` comes back. -/
theorem makeargv_yields_single :
    Yields 20 (ofList (commandLine (itsB .single))) 0 [] [[105, 116, 39, 115], [98]] :=
  (makeargv_yields_iff (itsB .single) [] (by decide) (by decide)).mpr (by decide)

/-- In double quotes, `"it's" \b` does not: there is one argument, `its b`. -/
theorem its_lost :
    CStr (ofList (commandLine (itsB .double))) 0 (commandLine (itsB .double)) ∧
      split (commandLine (itsB .double)) = [[105, 116, 115, 32, 98]] ∧
      ¬ Yields 20 (ofList (commandLine (itsB .double))) 0 [] [[105, 116, 39, 115], [98]] := by
  have hstr : CStr (ofList (commandLine (itsB .double))) 0 (commandLine (itsB .double)) := by decide
  refine ⟨hstr, by decide, ?_⟩
  rw [yields_iff hstr (by decide)]
  decide

end Librettos.Makeargv
