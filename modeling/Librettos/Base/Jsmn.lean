/-
# `Base.Jsmn` — the tokens of a text

`jsmn_parse` (`jsmn.c`), as it is compiled here: neither strict nor with parent links.  It makes an
array of tokens, each with its place in the text and the number of tokens that were found to be
below it.  What it accepts is far from being JSON: a colon does no more than make the last token
the parent of the next.  Two things hold of every array that it returns (`jsmnParse_layout`): there
are as many tokens behind a token as its `size` says, and no string lies inside another one.  A
pass without an array counts what a second one puts into it (`jsmnParse_twice`).

A text is the bytes before the terminating zero.  In the C code the loop and the functions for
strings and primitives share `pos`; here those functions say how many bytes they have gone over, and
the loop skips them.  `pos` and `toknext` (`unsigned int`) and `count` (`int`) are natural numbers:
none passes the number of bytes read, so for texts of less than 2^31 bytes it is the same.
-/
import Librettos.Lib.CStr
import Librettos.Lib.Wp

namespace Librettos.Jsmn

open List Option Wp

/-- `jsmntype_t` -/
inductive Kind
  | primitive
  | object
  | array
  | string
deriving DecidableEq, Repr

/-- `jsmntok_t`; `stop` is `none` for an `end` of -1. -/
structure Tok where
  kind : Kind
  start : ℕ
  stop : Option ℕ
  size : ℕ
deriving DecidableEq, Repr

/-- `jsmnerr_t` -/
inductive Err
  | nomem
  | inval
  | part
deriving DecidableEq, Repr

/-- `jsmn_parser`, the tokens up to `toknext`, and `count`; `toksuper` is `none` for -1. -/
structure Parser where
  pos : ℕ
  toksuper : Option ℕ
  toks : List Tok
  count : ℕ
deriving DecidableEq, Repr

def Tok.isOpen (t : Tok) : Bool := t.stop.isNone

def Tok.container (t : Tok) : Bool := t.kind == .array || t.kind == .object

/-- `for (i = toknext - 1; i >= 0; i--)`, up to a token with the property -/
def lastTok (p : Tok → Bool) (toks : List Tok) : Option ℕ :=
  (List.range toks.length).reverse.find? fun i => toks[i]?.any p

/-- `tokens[toksuper].size++`, unless `toksuper` is -1 -/
def bump (toksuper : Option ℕ) (toks : List Tok) : List Tok :=
  match toksuper with
  | none => toks
  | some i => toks.modify i fun t => { t with size := t.size + 1 }

/-! ## Strings and primitives -/

def hex (c : UInt8) : Bool := 48 ≤ c && c ≤ 57 || 65 ≤ c && c ≤ 70 || 97 ≤ c && c ≤ 102

/-- `"`, `/`, `\`, `b`, `f`, `r`, `n` and `t` -/
def simpleEscape (c : UInt8) : Bool :=
  c == 34 || c == 47 || c == 92 || c == 98 || c == 102 || c == 114 || c == 110 || c == 116

/-- `jsmn_parse_string`, from behind the opening quote: the number of bytes up to the closing quote,
and with it.  `digits` is how many more there can be after `\u`. -/
def parseString : ℕ → List UInt8 → Except Err ℕ
  | _, [] => .error .part
  | digits + 1, c :: js => if hex c then (· + 1) <$> parseString digits js else .error .inval
  | 0, c :: js =>
    if c = 34 then .ok 1
    else if c = 92 then
      match js with
      -- a backslash at the end of the text is like any other character
      | [] => .error .part
      | e :: js =>
        if simpleEscape e then (· + 2) <$> parseString 0 js
        else if e = 117 then (· + 2) <$> parseString 4 js
        else .error .inval
    else (· + 1) <$> parseString 0 js

/-- The characters that end a primitive. -/
def delimiter (c : UInt8) : Bool :=
  c == 58 || c == 9 || c == 13 || c == 10 || c == 32 || c == 44 || c == 93 || c == 125

/-- `jsmn_parse_primitive`: the number of its bytes -/
def parsePrimitive : List UInt8 → Except Err ℕ
  | [] => .ok 0
  | c :: js =>
    if delimiter c then .ok 0
    else if c < 32 || 127 ≤ c then .error .inval
    else (· + 1) <$> parsePrimitive js

/-! ## The loop -/

/-- The cases of `switch (c)`. -/
inductive Case
  | opening (kind : Kind)
  | closing (kind : Kind)
  | quote
  | blank
  | colon
  | comma
  | default
deriving DecidableEq, Repr

def caseOf (c : UInt8) : Case :=
  if c = 123 then .opening .object
  else if c = 91 then .opening .array
  else if c = 125 then .closing .object
  else if c = 93 then .closing .array
  else if c = 34 then .quote
  else if c = 9 ∨ c = 13 ∨ c = 10 ∨ c = 32 then .blank
  else if c = 58 then .colon
  else if c = 44 then .comma
  else .default

/-- `{` or `[`.  `num` is the size of the array, `none` if there is no array. -/
def opening (num : Option ℕ) (kind : Kind) (p : Parser) : Except Err Parser :=
  match num with
  | none => .ok { p with count := p.count + 1 }
  | some n =>
    if n ≤ p.toks.length then .error .nomem
    else
      .ok { p with
        toks := bump p.toksuper (p.toks ++ [⟨kind, p.pos, none, 0⟩])
        toksuper := some p.toks.length
        count := p.count + 1 }

/-- `}` or `]`; of the tokens behind the one that is closed, none is open. -/
def closing (num : Option ℕ) (kind : Kind) (p : Parser) : Except Err Parser :=
  match num with
  | none => .ok p
  | some _ =>
    match lastTok Tok.isOpen p.toks with
    | none => .error .inval
    | some i =>
      if p.toks[i]?.any (·.kind ≠ kind) then .error .inval
      else
        let toks := p.toks.modify i fun t => { t with stop := some (p.pos + 1) }
        .ok { p with toks := toks, toksuper := lastTok Tok.isOpen toks }

/-- A string or a primitive. -/
def leaf (num : Option ℕ) (kind : Kind) (start stop : ℕ) (p : Parser) : Except Err Parser :=
  match num with
  | none => .ok { p with count := p.count + 1 }
  | some n =>
    if n ≤ p.toks.length then .error .nomem
    else
      .ok { p with
        toks := bump p.toksuper (p.toks ++ [⟨kind, start, some stop, 0⟩])
        count := p.count + 1 }

def colon (p : Parser) : Parser :=
  { p with toksuper := if p.toks = [] then none else some (p.toks.length - 1) }

/-- `,`.  With a `toksuper` of -1 the C code looks at a type before the array; no token is open
then, and whatever it finds there `toksuper` stays. -/
def comma (num : Option ℕ) (p : Parser) : Parser :=
  if num.isNone then p
  else if (p.toksuper.bind (p.toks[·]?)).any Tok.container then p
  else
    match lastTok (fun t => t.container && t.isOpen) p.toks with
    | none => p
    | some i => { p with toksuper := some i }

/-- One round of the loop, with the bytes behind the character.  It says how many of them the round
has gone over. -/
def round (num : Option ℕ) (c : UInt8) (js : List UInt8) (p : Parser) : Except Err (ℕ × Parser) :=
  match caseOf c with
  | .opening kind => (0, ·) <$> opening num kind p
  | .closing kind => (0, ·) <$> closing num kind p
  | .quote =>
    (parseString 0 js).bind fun n => (n, ·) <$> leaf num .string (p.pos + 1) (p.pos + n) p
  | .blank => .ok (0, p)
  | .colon => .ok (0, colon p)
  | .comma => .ok (0, comma num p)
  | .default =>
    (parsePrimitive (c :: js)).bind fun n =>
      (n - 1, ·) <$> leaf num .primitive p.pos (p.pos + n) p

def rounds (num : Option ℕ) : ℕ → List UInt8 → Parser → Except Err Parser
  | _, [], p => .ok p
  | skip + 1, _ :: js, p => rounds num skip js p
  | 0, c :: js, p =>
    match round num c js p with
    | .error e => .error e
    | .ok (skip, p') => rounds num skip js { p' with pos := p.pos + skip + 1 }

/-- `jsmn_init` -/
def jsmnInit : Parser := ⟨0, none, [], 0⟩

/-- `jsmn_parse` after `jsmn_init`: what it returns, and the tokens -/
def jsmnParse (num : Option ℕ) (js : List UInt8) : Except Err (ℕ × List Tok) :=
  match rounds num 0 js jsmnInit with
  | .error e => .error e
  | .ok p => if p.toks.any Tok.isOpen then .error .part else .ok (p.count, p.toks)

/-! ## The layout of the tokens -/

structure Layout (pos : ℕ) (toks : List Tok) : Prop where
  size : ∀ (i : ℕ) (t : Tok), toks[i]? = some t → i + 1 + t.size ≤ toks.length
  /-- a string has its end, behind its start -/
  string : ∀ (i : ℕ) (t : Tok), toks[i]? = some t → t.kind = .string →
    ∃ stop, t.stop = some stop ∧ t.start ≤ stop ∧ stop < pos
  /-- and the later tokens are behind it -/
  apart : ∀ (i j : ℕ) (t u : Tok), i < j → toks[i]? = some t → toks[j]? = some u →
    t.kind = .string → ∀ stop ∈ t.stop, stop < u.start

structure Good (num : Option ℕ) (p : Parser) : Prop where
  layout : Layout p.pos p.toks
  super : ∀ i ∈ p.toksuper, i < p.toks.length
  count : num.isSome → p.count = p.toks.length

section
variable {num : Option ℕ} {n i pos pos' : ℕ} {toks : List Tok} {t u : Tok} {p p' : Parser}
variable {c : UInt8} {js : List UInt8} {kind : Kind} {f : Tok → Tok}

theorem lastTok_lt {q : Tok → Bool} (h : lastTok q toks = some i) : i < toks.length := by
  have hmem := mem_of_find?_eq_some h
  rwa [mem_reverse, mem_range] at hmem

theorem lastTok_spec {q : Tok → Bool} (h : lastTok q toks = some i) :
    ∃ t, toks[i]? = some t ∧ q t = true := by
  have hany := find?_some h
  rwa [Option.any_eq_true] at hany

theorem Layout.mono (h : Layout pos toks) (hle : pos ≤ pos') : Layout pos' toks where
  size := h.size
  string i t hi ht := by
    obtain ⟨stop, hstop, hstart, hlt⟩ := h.string i t hi ht
    exact ⟨stop, hstop, hstart, by omega⟩
  apart := h.apart

theorem Layout.modify (h : Layout pos toks) (hkind : ∀ t, (f t).kind = t.kind)
    (hstart : ∀ t, (f t).start = t.start)
    (hstop : ∀ t, toks[i]? = some t → t.kind = .string → (f t).stop = t.stop)
    (hsize : ∀ t, toks[i]? = some t → i + 1 + (f t).size ≤ toks.length) :
    Layout pos (toks.modify i f) := by
  -- the token that stands at an index, and what it was
  have hwas : ∀ {j : ℕ} {t : Tok}, (toks.modify i f)[j]? = some t →
      ∃ u, toks[j]? = some u ∧ t.kind = u.kind ∧ t.start = u.start ∧
        (u.kind = .string → t.stop = u.stop) ∧ j + 1 + t.size ≤ toks.length := by
    intro j t hj
    rw [getElem?_modify] at hj
    obtain ⟨u, hu, rfl⟩ := map_eq_some_iff.mp hj
    refine ⟨u, hu, ?_⟩
    by_cases hij : i = j
    · subst hij
      simp only [if_pos]
      exact ⟨hkind u, hstart u, hstop u hu, hsize u hu⟩
    · simpa [hij] using h.size j u hu
  constructor
  case size =>
    intro j t hj
    obtain ⟨-, -, -, -, -, hle⟩ := hwas hj
    rwa [length_modify]
  case string =>
    intro j t hj ht
    obtain ⟨u, hu, hk, hs, he, -⟩ := hwas hj
    rw [hs, he (hk ▸ ht)]
    exact h.string j u hu (hk ▸ ht)
  case apart =>
    intro j k t t' hjk hj hk ht
    obtain ⟨u, hu, hku, -, he, -⟩ := hwas hj
    obtain ⟨u', hu', -, hs', -, -⟩ := hwas hk
    rw [he (hku ▸ ht), hs']
    exact h.apart j k u u' hjk hu hu' (hku ▸ ht)

theorem Layout.push {toksuper : Option ℕ} (h : Layout pos toks)
    (hsuper : ∀ i ∈ toksuper, i < toks.length) (hsize : t.size = 0) (hstart : pos ≤ t.start)
    (hstring : t.kind = .string → ∃ stop, t.stop = some stop ∧ t.start ≤ stop ∧ stop < pos')
    (hle : pos ≤ pos') : Layout pos' (bump toksuper (toks ++ [t])) := by
  -- the array with the new token, where all the others have room for one more
  have hpush : Layout pos' (toks ++ [t]) ∧
      ∀ i u, i < toks.length → (toks ++ [t])[i]? = some u → i + 1 + u.size ≤ toks.length := by
    have hold : ∀ {i u}, i < toks.length → (toks ++ [t])[i]? = some u → toks[i]? = some u :=
      fun hi hu => by rwa [getElem?_append_left hi] at hu
    have hnew : ∀ {i u}, ¬ i < toks.length → (toks ++ [t])[i]? = some u →
        i = toks.length ∧ u = t := by
      intro i u hi hu
      have hlt : i < (toks ++ [t]).length := (List.getElem?_eq_some_iff.mp hu).1
      rw [length_append, length_singleton] at hlt
      obtain rfl : i = toks.length := by omega
      rw [getElem?_concat_length] at hu
      exact ⟨rfl, (some.inj hu).symm⟩
    have hroom : ∀ i u, i < toks.length → (toks ++ [t])[i]? = some u →
        i + 1 + u.size ≤ toks.length := fun i u hi hu => h.size i u (hold hi hu)
    refine ⟨?_, hroom⟩
    constructor
    case size =>
      intro i u hu
      rw [length_append, length_singleton]
      by_cases hi : i < toks.length
      · have := hroom i u hi hu
        omega
      · obtain ⟨rfl, rfl⟩ := hnew hi hu
        omega
    case string =>
      intro i u hu hkind
      by_cases hi : i < toks.length
      · exact (h.mono hle).string i u (hold hi hu) hkind
      · obtain ⟨rfl, rfl⟩ := hnew hi hu
        exact hstring hkind
    case apart =>
      intro i j u v hij hu hv hkind stop hstop
      have hj : j < (toks ++ [t]).length := (List.getElem?_eq_some_iff.mp hv).1
      rw [length_append, length_singleton] at hj
      have hi : i < toks.length := by omega
      by_cases hj' : j < toks.length
      · exact h.apart i j u v hij (hold hi hu) (hold hj' hv) hkind stop hstop
      · obtain ⟨-, rfl⟩ := hnew hj' hv
        obtain ⟨stop', hstop', -, hlt⟩ := h.string i u (hold hi hu) hkind
        rw [hstop', mem_some_iff] at hstop
        omega
  obtain ⟨hlayout, hroom⟩ := hpush
  cases toksuper with
  | none => exact hlayout
  | some k =>
    refine hlayout.modify (fun _ => rfl) (fun _ => rfl) (fun _ _ _ => rfl) fun u hu => ?_
    have := hroom k u (hsuper k rfl) hu
    rw [length_append, length_singleton]
    show k + 1 + (u.size + 1) ≤ _
    omega

theorem length_bump (toksuper : Option ℕ) (toks : List Tok) :
    (bump toksuper toks).length = toks.length := by
  cases toksuper with
  | none => rfl
  | some i => exact length_modify _ _ _

section
variable (h : Good num p)
include h

theorem Good.opening (hopen : Jsmn.opening num kind p = .ok p')
    (hkind : kind ≠ .string) (hpos : p.pos ≤ pos') : Good num { p' with pos := pos' } := by
  unfold Jsmn.opening at hopen
  split at hopen
  · cases hopen
    exact ⟨h.layout.mono hpos, h.super, nofun⟩
  · split at hopen
    · cases hopen
    · cases hopen
      refine ⟨h.layout.push h.super rfl le_rfl (fun hs => absurd hs hkind) hpos, ?_, ?_⟩
      · intro i hi
        simp only [mem_some_iff] at hi
        rw [length_bump, length_append, length_singleton]
        omega
      · rw [length_bump, length_append, length_singleton]
        exact fun hnum => congrArg (· + 1) (h.count hnum)

theorem Good.leaf {start stop : ℕ} (hleaf : Jsmn.leaf num kind start stop p = .ok p')
    (hstart : p.pos ≤ start) (hstop : kind = .string → start ≤ stop ∧ stop < pos')
    (hpos : p.pos ≤ pos') : Good num { p' with pos := pos' } := by
  unfold Jsmn.leaf at hleaf
  split at hleaf
  · cases hleaf
    exact ⟨h.layout.mono hpos, h.super, nofun⟩
  · split at hleaf
    · cases hleaf
    · cases hleaf
      refine ⟨h.layout.push h.super rfl hstart (fun hs => ⟨stop, rfl, hstop hs⟩) hpos, ?_, ?_⟩
      · intro i hi
        have := h.super i hi
        rw [length_bump, length_append, length_singleton]
        omega
      · rw [length_bump, length_append, length_singleton]
        exact fun hnum => congrArg (· + 1) (h.count hnum)

theorem Good.closing (hclose : Jsmn.closing num kind p = .ok p')
    (hpos : p.pos ≤ pos') : Good num { p' with pos := pos' } := by
  unfold Jsmn.closing at hclose
  split at hclose
  · cases hclose
    exact ⟨h.layout.mono hpos, h.super, h.count⟩
  · split at hclose
    · cases hclose
    · next i hlast =>
      split at hclose
      · cases hclose
      · cases hclose
        refine ⟨(h.layout.mono hpos).modify (fun _ => rfl) (fun _ => rfl) ?_ ?_,
          fun j hj => lastTok_lt hj, ?_⟩
        · -- a string is not open
          intro t ht hs
          obtain ⟨u, hu, hopen⟩ := lastTok_spec hlast
          obtain ⟨stop, hstop, -⟩ := h.layout.string i t ht hs
          obtain rfl : u = t := some.inj (hu.symm.trans ht)
          simp [Tok.isOpen, hstop] at hopen
        · exact fun t ht => h.layout.size i t ht
        · rw [length_modify]
          exact h.count

theorem Good.colon (hpos : p.pos ≤ pos') : Good num { Jsmn.colon p with pos := pos' } := by
  refine ⟨h.layout.mono hpos, fun i hi => ?_, h.count⟩
  simp only [Jsmn.colon] at hi ⊢
  split at hi
  · cases hi
  · next hne =>
    have := length_pos_of_ne_nil hne
    simp only [mem_some_iff] at hi
    omega

theorem Good.comma (hpos : p.pos ≤ pos') : Good num { Jsmn.comma num p with pos := pos' } := by
  unfold Jsmn.comma
  split
  · exact ⟨h.layout.mono hpos, h.super, h.count⟩
  · split
    · exact ⟨h.layout.mono hpos, h.super, h.count⟩
    · split
      · exact ⟨h.layout.mono hpos, h.super, h.count⟩
      · next i hlast =>
        refine ⟨h.layout.mono hpos, fun j hj => ?_, h.count⟩
        obtain rfl : i = j := by simpa using hj
        exact lastTok_lt hlast

end

theorem caseOf_opening (h : caseOf c = .opening kind) : kind ≠ .string := by
  rintro rfl
  unfold caseOf at h
  split_ifs at h <;> cases h

/-- The closing quote counts. -/
theorem parseString_pos : ∀ {digits n : ℕ} {js : List UInt8}, parseString digits js = .ok n → 0 < n
  | digits, n, [], h => by cases digits <;> cases h
  | digits + 1, n, c :: js, h => by
    rw [parseString] at h
    split at h
    · obtain ⟨m, -, rfl⟩ := map_ok h
      omega
    · cases h
  | 0, n, c :: js, h => by
    rw [parseString.eq_def] at h
    dsimp only at h
    split_ifs at h
    · cases h
      omega
    · split at h
      · cases h
      · split_ifs at h
        · obtain ⟨m, -, rfl⟩ := map_ok h
          omega
        · obtain ⟨m, -, rfl⟩ := map_ok h
          omega
    · obtain ⟨m, -, rfl⟩ := map_ok h
      omega

theorem Good.round {skip : ℕ} (h : Good num p) (hround : Jsmn.round num c js p = .ok (skip, p')) :
    Good num { p' with pos := p.pos + skip + 1 } := by
  unfold Jsmn.round at hround
  split at hround
  · next kind hcase =>
    obtain ⟨q, hq, heq⟩ := map_ok hround
    cases heq
    exact h.opening hq (caseOf_opening hcase) (by omega)
  · obtain ⟨q, hq, heq⟩ := map_ok hround
    cases heq
    exact h.closing hq (by omega)
  · obtain ⟨n, hn, hleaf⟩ := bind_ok hround
    obtain ⟨q, hq, heq⟩ := map_ok hleaf
    cases heq
    have := parseString_pos hn
    exact h.leaf hq (by omega) (fun _ => by omega) (by omega)
  · cases hround
    exact ⟨h.layout.mono (Nat.le_succ _), h.super, h.count⟩
  · cases hround
    exact h.colon (by omega)
  · cases hround
    exact h.comma (by omega)
  · obtain ⟨n, -, hleaf⟩ := bind_ok hround
    obtain ⟨q, hq, heq⟩ := map_ok hleaf
    cases heq
    exact h.leaf hq le_rfl nofun (by omega)

theorem Good.rounds : ∀ {js : List UInt8} {skip : ℕ} {p : Parser}, Good num p →
    Jsmn.rounds num skip js p = .ok p' → Good num p'
  | [], skip, p, h, hrounds => by
    cases skip <;> cases hrounds <;> exact h
  | c :: js, skip + 1, p, h, hrounds => by
    rw [Jsmn.rounds] at hrounds
    exact h.rounds hrounds
  | c :: js, 0, p, h, hrounds => by
    rw [Jsmn.rounds] at hrounds
    split at hrounds
    · cases hrounds
    · next skip q hround => exact (h.round hround).rounds hrounds

theorem good_init (num : Option ℕ) : Good num jsmnInit :=
  ⟨⟨nofun, nofun, nofun⟩, nofun, fun _ => rfl⟩

/-- **The layout.**  It holds of the tokens of every text, and as many are returned as there are. -/
theorem jsmnParse_layout (h : jsmnParse num js = .ok (n, toks)) :
    (∃ pos, Layout pos toks) ∧ (num.isSome → n = toks.length) := by
  unfold jsmnParse at h
  split at h
  · cases h
  · next p hp =>
    split at h
    · cases h
    · cases h
      have hgood := (good_init num).rounds hp
      exact ⟨⟨p.pos, hgood.layout⟩, hgood.count⟩

end

/-! ## Two passes

`rumprun_config` counts the tokens in a pass without an array, and then fills an array of that
size. -/

section
variable {m start stop : ℕ} {kind : Kind} {p' q : Parser}

/-- What a round over `a` tokens may leave of the pass that fills the array. -/
def Filled (m a : ℕ) (q : Parser) (r : Except Err Parser) : Prop :=
  (∀ q', r = .ok q' → q'.count = q.count + a) ∧ (r = .error .nomem → m ≤ q.toks.length ∧ 0 < a)

theorem filled_opening : Filled m 1 q (opening (some m) kind q) := by
  by_cases hm : m ≤ q.toks.length <;> simp [Filled, opening, hm]

theorem filled_leaf : Filled m 1 q (leaf (some m) kind start stop q) := by
  by_cases hm : m ≤ q.toks.length <;> simp [Filled, leaf, hm]

theorem filled_closing : Filled m 0 q (closing (some m) kind q) := by
  simp only [closing]
  repeat' split
  all_goals simp [Filled]

theorem count_comma (num : Option ℕ) : (comma num q).count = q.count := by
  unfold comma
  repeat' split
  all_goals rfl

/-- The pass that counts does not fail where the other does not, and goes over the same bytes. -/
theorem round_passes (p q : Parser) (c : UInt8) (js : List UInt8) :
    (∃ e, round none c js p = .error e ∧ round (some m) c js q = .error e) ∨
    ∃ skip p' r a, round none c js p = .ok (skip, p') ∧ round (some m) c js q = (skip, ·) <$> r ∧
      p'.toks = p.toks ∧ p'.count = p.count + a ∧ Filled m a q r := by
  unfold round
  cases caseOf c with
  | opening kind => exact .inr ⟨0, _, _, 1, rfl, rfl, rfl, rfl, filled_opening⟩
  | closing kind => exact .inr ⟨0, _, _, 0, rfl, rfl, rfl, rfl, filled_closing⟩
  | quote =>
    cases parseString 0 js with
    | error e => exact .inl ⟨e, rfl, rfl⟩
    | ok n => exact .inr ⟨n, _, _, 1, rfl, rfl, rfl, rfl, filled_leaf⟩
  | blank => exact .inr ⟨0, _, .ok q, 0, rfl, rfl, rfl, rfl, by simp [Filled]⟩
  | colon => exact .inr ⟨0, _, .ok (colon q), 0, rfl, rfl, rfl, rfl, by simp [Filled, colon]⟩
  | comma =>
    exact .inr ⟨0, _, .ok (comma (some m) q), 0, rfl, rfl, rfl, rfl, by simp [Filled, count_comma]⟩
  | default =>
    cases parsePrimitive (c :: js) with
    | error e => exact .inl ⟨e, rfl, rfl⟩
    | ok n => exact .inr ⟨n - 1, _, _, 1, rfl, rfl, rfl, rfl, filled_leaf⟩

theorem rounds_count : ∀ {js : List UInt8} {skip : ℕ} {p : Parser},
    rounds none skip js p = .ok p' → p.count ≤ p'.count ∧ p'.toks = p.toks
  | [], skip, p, h => by cases skip <;> cases h <;> exact ⟨le_rfl, rfl⟩
  | _ :: js, skip + 1, p, h => by
    rw [rounds] at h
    exact rounds_count h
  | c :: js, 0, p, h => by
    rw [rounds] at h
    obtain ⟨e, he, -⟩ | ⟨skip, p₁, r, a, hp, -, htoks, hcount, -⟩ := round_passes (m := 0) p p c js
    · rw [he] at h
      cases h
    · rw [hp] at h
      obtain ⟨hle, htoks'⟩ := rounds_count h
      exact ⟨(hcount ▸ Nat.le_add_right _ a).trans hle, htoks'.trans htoks⟩

theorem rounds_passes : ∀ {js : List UInt8} {skip : ℕ} {p q : Parser}, Good (some m) q →
    p.count = q.count →
      (∀ q', rounds (some m) skip js q = .ok q' →
        ∃ p', rounds none skip js p = .ok p' ∧ p'.count = q'.count) ∧
      (rounds (some m) skip js q = .error .nomem →
        ∀ p', rounds none skip js p = .ok p' → m < p'.count)
  | [], skip, p, q, _, hcount => by
    cases skip <;> simp [rounds, hcount]
  | _ :: js, skip + 1, p, q, h, hcount => by
    simp only [rounds]
    exact rounds_passes h hcount
  | c :: js, 0, p, q, h, hcount => by
    simp only [rounds]
    obtain ⟨e, hp, hq⟩ | ⟨skip, p₁, r, a, hp, hq, -, hmade, hok, hfull⟩ :=
      round_passes (m := m) p q c js
    · simp [hp, hq]
    · rw [hp, hq]
      cases r with
      | ok q₁ =>
        have hq₁ := hok q₁ rfl
        exact rounds_passes (h.round hq) (by simp only [hmade, hcount, hq₁])
      | error e =>
        -- the array is full, and the other pass has counted one more
        refine ⟨nofun, fun he p' hp' => ?_⟩
        cases he
        obtain ⟨hm, ha⟩ := hfull rfl
        have hlen := h.count rfl
        have hle := (rounds_count hp').1
        simp only [hmade] at hle
        omega

/-- **Two passes.**  What fits into an array is what the pass without one counts, and an array of
that size is never too small. -/
theorem jsmnParse_twice (m : ℕ) (js : List UInt8) :
    (∀ n toks, jsmnParse (some m) js = .ok (n, toks) →
      toks.length = n ∧ jsmnParse none js = .ok (n, [])) ∧
    (jsmnParse (some m) js = .error .nomem → ∀ n toks, jsmnParse none js = .ok (n, toks) → m < n) := by
  have hnone : ∀ p, rounds none 0 js jsmnInit = .ok p → jsmnParse none js = .ok (p.count, []) := by
    intro p hp
    have htoks : p.toks = [] := (rounds_count hp).2
    simp [jsmnParse, hp, htoks]
  constructor
  · intro n toks h
    refine ⟨((jsmnParse_layout h).2 rfl).symm, ?_⟩
    unfold jsmnParse at h
    split at h
    · cases h
    · next q hq =>
      obtain ⟨p, hp, hcount⟩ := (rounds_passes (good_init _) rfl).1 q hq
      split at h <;> cases h
      rw [hnone p hp, hcount]
  · intro h n toks hn
    unfold jsmnParse at h hn
    split at h
    · next e hq =>
      cases h
      split at hn
      · cases hn
      · next p hp =>
        split at hn <;> cases hn
        exact (rounds_passes (good_init _) rfl).2 hq p hp
    · split at h <;> cases h

/-- Both passes over the text `{"a":[1]}`, and one with an array that is too small. -/
theorem jsmnParse_twice_nested :
    jsmnParse (some 3) [123, 34, 97, 34, 58, 91, 49, 93, 125] = .error .nomem ∧
    jsmnParse (some 4) [123, 34, 97, 34, 58, 91, 49, 93, 125] = .ok (4, [⟨.object, 0, some 9, 1⟩,
      ⟨.string, 2, some 3, 1⟩, ⟨.array, 5, some 8, 1⟩, ⟨.primitive, 6, some 7, 0⟩]) ∧
    jsmnParse none [123, 34, 97, 34, 58, 91, 49, 93, 125] = .ok (4, []) :=
  ⟨by rfl, by rfl, ((jsmnParse_twice 4 _).1 4 _ rfl).2⟩

end

end Librettos.Jsmn
