/-
# `Base.ConfigRc` — the programs of an `rc_TESTING` array

An entry has a program, and it can have arguments and a run mode, with its keys in any order
(`Entry`).  `RcArray` says that the tokens from `t` on are those of an array of such entries.  Then
`handle_rc` appends a `rumprun_exec` for each of them and returns the number of tokens, provided that
every entry has an `argv`: for one without, `addbin` follows a null pointer (`rc_parsed_iff`), though
the comment above it calls the array optional.

The strings are terminated in place.  What `token2cstr` overwrites is the byte behind a string, the
closing quote, and no string of the text lies over it (`Zeroed`).
-/
import Librettos.Base.Config

namespace Librettos.Config

open Function (update update_of_ne update_self)
open Bytes Jsmn List Makeargv Wp

/-! ## Entries and their tokens -/

/-- A key with its value; the run modes are `&` and `|`. -/
inductive Field
  | bin (name : List UInt8)
  | argv (args : List (List UInt8))
  | runmode (background : Bool)
deriving DecidableEq, Repr

/-- What an object says, with the keys it has. -/
structure Entry where
  bin : List UInt8
  argv : Option (List (List UInt8))
  runmode : Option Bool
  fields : List Field
  order : fields.Perm (.bin bin :: (argv.toList.map .argv ++ runmode.toList.map .runmode))

def Field.key : Field → List UInt8
  | .bin _ => bytes "bin"
  | .argv _ => bytes "argv"
  | .runmode _ => bytes "runmode"

/-- The number of tokens. -/
def Field.width : Field → ℕ
  | .argv args => 2 + args.length
  | _ => 2

def Entry.width (e : Entry) : ℕ := 1 + (e.fields.map Field.width).sum

/-- The character of a run mode. -/
def modeChar (background : Bool) : UInt8 := if background then 38 else 124

/-- The token is a string, of these bytes. -/
structure StrTok (m : Mem) (toks : List Tok) (tok : Tok) (str : List UInt8) : Prop where
  mem : ∃ i : ℕ, toks[i]? = some tok
  kind : tok.kind = .string
  size : tSize tok = str.length
  text : Text m tok.start str
  nonzero : 0 ∉ str

def StrToks (m : Mem) (toks : List Tok) : ℕ → List (List UInt8) → Prop
  | _, [] => True
  | i, str :: strs => (∃ tok, toks[i]? = some tok ∧ StrTok m toks tok str) ∧ StrToks m toks (i + 1) strs

/-- The value of a field; `i` is its index. -/
def Field.Value (m : Mem) (toks : List Tok) (i : ℕ) (value : Tok) : Field → Prop
  | .bin name => StrTok m toks value name ∧ value.size = 0
  | .argv args => value.kind = .array ∧ value.size = args.length ∧ StrToks m toks (i + 1) args
  | .runmode background => StrTok m toks value [modeChar background] ∧ value.size = 0

structure Field.At (m : Mem) (toks : List Tok) (t : ℕ) (f : Field) (key value : Tok) : Prop where
  key_at : toks[t]? = some key
  key_str : StrTok m toks key f.key
  key_size : key.size = 1
  value_at : toks[t + 1]? = some value
  value : f.Value m toks (t + 1) value

def RcFields (m : Mem) (toks : List Tok) : ℕ → List Field → Prop
  | _, [] => True
  | t, f :: fs => (∃ key value, f.At m toks t key value) ∧ RcFields m toks (t + f.width) fs

def RcObjects (m : Mem) (toks : List Tok) : ℕ → List Entry → Prop
  | _, [] => True
  | t, e :: entries =>
    (∃ tok, toks[t]? = some tok ∧ tok.kind = .object ∧ tok.size = e.fields.length) ∧
      RcFields m toks (t + 1) e.fields ∧ RcObjects m toks (t + e.width) entries

/-- The tokens of an array of entries. -/
def RcArray (m : Mem) (toks : List Tok) (t : ℕ) (entries : List Entry) : Prop :=
  (∃ tok, toks[t]? = some tok ∧ tok.kind = .array ∧ tok.size = entries.length) ∧
    RcObjects m toks (t + 1) entries

/-- The number of its tokens. -/
def rcWidth (entries : List Entry) : ℕ := 1 + (entries.map Entry.width).sum

def modeFlags : Option Bool → Flags
  | none => .zero
  | some true => .background
  | some false => .pipe

/-- The `rumprun_exec` that an entry is to become. -/
structure Saved (m : Mem) (rre : Exec) (e : Entry) : Prop where
  flags : rre.flags = modeFlags e.runmode
  argc : rre.argc = 1 + (e.argv.getD []).length
  argv : ∃ starts, rre.argv = starts.map some ++ [none] ∧
    List.Forall₂ (CStr m) starts (e.bin :: e.argv.getD [])

section
variable {env : Env} {toks : List Tok} {tok : Tok} {pos t i : ℕ} {s : State} {m m' m'' : Mem}
variable {str : List UInt8} {strs : List (List UInt8)} {b : Bin} {f : Field} {fs : List Field}
variable {e : Entry} {entries : List Entry} {a : ℕ}

/-! ## Writing zeros behind strings -/

/-- Some of the strings have been terminated. -/
def Zeroed (toks : List Tok) (m m' : Mem) : Prop :=
  ∀ x, m' x = m x ∨ m' x = 0 ∧
    ∃ (i : ℕ) (tok : Tok), toks[i]? = some tok ∧ tok.kind = .string ∧ tok.stop = some x

theorem Zeroed.refl : Zeroed toks m m := fun _ => .inl rfl

theorem Zeroed.trans (h : Zeroed toks m m') (h' : Zeroed toks m' m'') : Zeroed toks m m'' := by
  intro x
  rcases h' x with heq | hzero
  · rw [heq]
    exact h x
  · exact .inr hzero

theorem Zeroed.zero {x : ℕ} (h : Zeroed toks m m') (h0 : m x = 0) : m' x = 0 := by
  rcases h x with heq | hzero
  · exact heq.trans h0
  · exact hzero.1

section
variable (hl : Layout pos toks)
include hl

theorem StrTok.stop (h : StrTok m toks tok str) : tok.stop = some (tok.start + tSize tok) := by
  obtain ⟨i, hi⟩ := h.mem
  obtain ⟨stop, hstop, hle, -⟩ := hl.string i tok hi h.kind
  simp only [tSize, hstop, Option.getD_some]
  congr 1
  omega

/-- The bytes of a string stay: no other string ends among them. -/
theorem StrTok.zeroed (h : StrTok m toks tok str) (hz : Zeroed toks m m') :
    StrTok m' toks tok str := by
  refine ⟨h.mem, h.kind, h.size, h.text.congr fun x hlo hhi => ?_, h.nonzero⟩
  rcases hz x with heq | ⟨-, j, u, hj, hu, hx⟩
  · exact heq
  · exfalso
    obtain ⟨i, hi⟩ := h.mem
    have hstop := h.stop hl
    have hsize := h.size
    rcases Nat.lt_trichotomy i j with hij | rfl | hij
    · have := hl.apart i j tok u hij hi hj h.kind _ hstop
      obtain ⟨stop, hstop', hle, -⟩ := hl.string j u hj hu
      rw [hx] at hstop'
      cases hstop'
      omega
    · obtain rfl : tok = u := Option.some.inj (hi.symm.trans hj)
      rw [hx] at hstop
      have := Option.some.inj hstop
      omega
    · have := hl.apart j i u tok hij hj hi hu x hx
      omega

section
variable (hz : Zeroed toks m m')
include hz

theorem StrToks.zeroed :
    ∀ {strs : List (List UInt8)} {i : ℕ}, StrToks m toks i strs → StrToks m' toks i strs
  | [], _, _ => trivial
  | _ :: _, _, h => by
    obtain ⟨⟨tok, htok, hstr⟩, hrest⟩ := h
    exact ⟨⟨tok, htok, hstr.zeroed hl hz⟩, StrToks.zeroed hrest⟩

theorem Field.Value.zeroed {value : Tok} (h : f.Value m toks i value) : f.Value m' toks i value := by
  cases f with
  | bin | runmode => exact ⟨h.1.zeroed hl hz, h.2⟩
  | argv args => exact ⟨h.1, h.2.1, h.2.2.zeroed hl hz⟩

theorem RcFields.zeroed :
    ∀ {fs : List Field} {t : ℕ}, RcFields m toks t fs → RcFields m' toks t fs
  | [], _, _ => trivial
  | _ :: _, _, h => by
    obtain ⟨⟨key, value, hat⟩, hrest⟩ := h
    exact ⟨⟨key, value, hat.key_at, hat.key_str.zeroed hl hz, hat.key_size, hat.value_at,
      hat.value.zeroed hl hz⟩, RcFields.zeroed hrest⟩

theorem RcObjects.zeroed :
    ∀ {entries : List Entry} {t : ℕ}, RcObjects m toks t entries → RcObjects m' toks t entries
  | [], _, _ => trivial
  | _ :: _, _, h => ⟨h.1, h.2.1.zeroed hl hz, RcObjects.zeroed h.2.2⟩

end

end

/-- The string at `a` is that of a token, and has been terminated. -/
structure Terminated (toks : List Tok) (m : Mem) (a : ℕ) (str : List UInt8) : Prop where
  tok : ∃ tok, StrTok m toks tok str ∧ tok.start = a
  zero : m (a + str.length) = 0

theorem Terminated.cstr (h : Terminated toks m a str) : CStr m a str := by
  obtain ⟨tok, hstr, rfl⟩ := h.tok
  exact ⟨hstr.text, h.zero, hstr.nonzero⟩

theorem Terminated.zeroed (hl : Layout pos toks) (hz : Zeroed toks m m')
    (h : Terminated toks m a str) : Terminated toks m' a str := by
  obtain ⟨tok, hstr, hstart⟩ := h.tok
  exact ⟨⟨tok, hstr.zeroed hl hz, hstart⟩, hz.zero h.zero⟩

/-- `token2cstr` -/
theorem StrTok.terminate (hl : Layout pos toks) (h : StrTok m toks tok str) :
    Zeroed toks m (update m (tok.start + tSize tok) 0) ∧
      Terminated toks (update m (tok.start + tSize tok) 0) tok.start str := by
  have hz : Zeroed toks m (update m (tok.start + tSize tok) 0) := by
    intro x
    by_cases hx : x = tok.start + tSize tok
    · obtain ⟨i, hi⟩ := h.mem
      rw [hx, update_self]
      exact .inr ⟨rfl, i, tok, hi, h.kind, h.stop hl⟩
    · exact .inl (update_of_ne hx _ _)
  refine ⟨hz, ⟨tok, h.zeroed hl hz, rfl⟩, ?_⟩
  rw [h.size, update_self]

/-! ## The fields of an object -/

/-- What the fields so far have said. -/
structure Parts where
  bin : Option (List UInt8)
  argv : Option (List (List UInt8))
  runmode : Option Bool

def Parts.set (p : Parts) : Field → Parts
  | .bin name => { p with bin := some name }
  | .argv args => { p with argv := some args }
  | .runmode background => { p with runmode := some background }

theorem Entry.parts (e : Entry) :
    e.fields.foldl Parts.set ⟨none, none, none⟩ = ⟨some e.bin, e.argv, e.runmode⟩ := by
  have hswap : ∀ x ∈ e.fields, ∀ y ∈ e.fields, ∀ p : Parts,
      (p.set x).set y = (p.set y).set x := by
    intro x hx y hy p
    rw [e.order.mem_iff] at hx hy
    cases x <;> cases y <;> first | rfl | simp_all [Parts.set]
  rw [e.order.foldl_eq' hswap]
  cases e.argv <;> cases e.runmode <;> rfl

/-- The pointers of `addbin` are to the tokens of what has been said. -/
structure Holds (m : Mem) (toks : List Tok) (b : Bin) (p : Parts) : Prop where
  bin : Option.Rel (StrTok m toks) b.bin p.bin
  argv : Option.Rel (fun x args => x.2.size = args.length ∧ StrToks m toks (x.1 + 1) args)
    b.argv p.argv
  runmode : Option.Rel (fun tok background => StrTok m toks tok [modeChar background])
    b.runmode p.runmode

def Field.binKey : Field → BinKey
  | .bin _ => .bin
  | .argv _ => .argv
  | .runmode _ => .runmode

/-- The keys are among the names, and none of them begins another. -/
theorem Field.select (h : StrTok m toks tok f.key) :
    Config.select m tok binKeys = some f.binKey := by
  have hname : equalName binKeys f.key = some f.binKey := by cases f <;> rfl
  have hexact : ∀ e ∈ binKeys, f.key <+: e.1 → f.key = e.1 := by
    have hkey : ∀ k ∈ [bytes "bin", bytes "argv", bytes "runmode"], ∀ e ∈ binKeys,
        k <+: e.1 → k = e.1 := by decide
    cases f with
    | bin | argv | runmode => exact hkey _ (by simp [Field.key])
  rw [← hname]
  exact (select_exact_iff h.text h.nonzero h.size (by decide)).mpr hexact

theorem wp_addbinField_at {key value : Tok} {p : Parts} (hat : f.At s.mem toks t key value)
    (hb : Holds s.mem toks b p) :
    wp (addbinField toks t b)
      (fun r s' => s' = s ∧ r.1 = f.width ∧ Holds s.mem toks r.2 (p.set f)) (fun _ => False) s := by
  have hkey := hat.key_str
  have hvalue := hat.value
  simp only [addbinField, tokAt_of_some hat.key_at, tokAt_of_some hat.value_at, wp_bind, wp_pure,
    wp_tChecktype, wp_selectKey, hkey.kind, Field.select hkey, Option.some.injEq, forall_eq',
    reduceCtorEq, ne_eq, not_true_eq_false, forall_const, IsEmpty.forall_iff, and_true]
  cases f with
  | bin name =>
    simp only [Field.binKey, IsEmpty.forall_iff, and_true, wp_bind, wp_pure, wp_tChecksize,
      wp_tChecktype, hat.key_size, hvalue.1.kind, hvalue.2, ne_eq, not_true_eq_false, forall_const]
    exact ⟨trivial, rfl, .some hvalue.1, hb.argv, hb.runmode⟩
  | argv args =>
    simp only [Field.binKey, IsEmpty.forall_iff, and_true, wp_bind, wp_pure, wp_tChecktype, hvalue.1,
      ne_eq, not_true_eq_false, forall_const]
    exact ⟨trivial, by rw [hvalue.2.1]; rfl, hb.bin, .some hvalue.2, hb.runmode⟩
  | runmode background =>
    simp only [Field.binKey, IsEmpty.forall_iff, and_true, wp_bind, wp_pure, wp_tChecksize,
      wp_tChecktype, hat.key_size, hvalue.1.kind, hvalue.2, ne_eq, not_true_eq_false, forall_const]
    exact ⟨trivial, rfl, hb.bin, hb.argv, .some hvalue.1⟩

theorem wp_addbinFields_at :
    ∀ {fs : List Field} {t binsize : ℕ} {b : Bin} {p : Parts} {s : State},
    RcFields s.mem toks t fs → Holds s.mem toks b p →
      wp (addbinFields toks fs.length t binsize b)
        (fun r s' => s' = s ∧ r.1 = binsize + (fs.map Field.width).sum ∧
          Holds s.mem toks r.2 (fs.foldl Parts.set p)) (fun _ => False) s
  | [], _, _, _, _, _, _, hb => ⟨rfl, rfl, hb⟩
  | f :: fs, t, binsize, b, p, s, h, hb => by
    obtain ⟨⟨key, value, hat⟩, hrest⟩ := h
    rw [length_cons, addbinFields, wp_bind]
    refine (wp_addbinField_at hat hb).mono ?_ fun _ he => he
    rintro ⟨mysize, b'⟩ s' ⟨rfl, rfl, hb'⟩
    refine (wp_addbinFields_at hrest hb').mono ?_ fun _ he => he
    rintro r s'' ⟨rfl, hr, hb''⟩
    refine ⟨rfl, ?_, hb''⟩
    rw [hr, map_cons, sum_cons]
    omega

/-! ## Saving an entry -/

theorem wp_argvStrings (hl : Layout pos toks) : ∀ {strs : List (List UInt8)} {i : ℕ} {s : State},
    StrToks s.mem toks i strs →
      wp (argvStrings toks strs.length i)
        (fun r s' => Zeroed toks s.mem s'.mem ∧ s'.execs = s.execs ∧
          List.Forall₂ (Terminated toks s'.mem) r strs) (fun _ => False) s
  | [], _, _, _ => ⟨.refl, rfl, .nil⟩
  | str :: strs, i, s, h => by
    obtain ⟨⟨tok, htok, hstr⟩, hrest⟩ := h
    obtain ⟨hz, hterm⟩ := hstr.terminate hl
    simp only [length_cons, argvStrings, tokAt_of_some htok, wp_bind, wp_pure, wp_tChecktype,
      hstr.kind, ne_eq, not_true_eq_false, forall_const, IsEmpty.forall_iff, and_true,
      wp_token2cstr]
    refine (wp_argvStrings hl (hrest.zeroed hl hz)).mono ?_ fun _ he => he
    rintro strs' s' ⟨hz', hexecs, hall⟩
    exact ⟨hz.trans hz', hexecs, .cons (hterm.zeroed hl hz') hall⟩

theorem wp_rreflags {bin : Tok} {p : Parts} (hb : Holds s.mem toks b p) :
    wp (rreflags bin b.runmode) (fun r s' => s' = s ∧ r = modeFlags p.runmode) (fun _ => False) s := by
  have hrel := hb.runmode
  rw [rreflags, wp_bind, wp_get]
  generalize b.runmode = mode at hrel
  cases hp : p.runmode with
  | none =>
    rw [hp] at hrel
    cases hrel
    exact ⟨rfl, rfl⟩
  | some background =>
    rw [hp] at hrel
    obtain @⟨tok, _, hstr⟩ := hrel
    have hsize : tSize tok = 1 := hstr.size
    have hchar : s.mem tok.start = modeChar background := hstr.text.1
    cases background <;> simp [hsize, hchar, modeChar, modeFlags]

/-- What `saveExec` adds. -/
structure Added (toks : List Tok) (m : Mem) (rre : Exec) (e : Entry) : Prop where
  flags : rre.flags = modeFlags e.runmode
  argc : rre.argc = 1 + (e.argv.getD []).length
  argv : ∃ starts, rre.argv = starts.map some ++ [none] ∧
    List.Forall₂ (Terminated toks m) starts (e.bin :: e.argv.getD [])

theorem Added.saved {rre : Exec} (h : Added toks m rre e) : Saved m rre e := by
  obtain ⟨starts, heq, hall⟩ := h.argv
  exact ⟨h.flags, h.argc, starts, heq, hall.imp fun _ _ => Terminated.cstr⟩

theorem Added.zeroed {rre : Exec} (hl : Layout pos toks) (hz : Zeroed toks m m')
    (h : Added toks m rre e) : Added toks m' rre e := by
  obtain ⟨starts, heq, hall⟩ := h.argv
  exact ⟨h.flags, h.argc, starts, heq, hall.imp fun _ _ => Terminated.zeroed hl hz⟩

theorem Holds.zeroed {p : Parts} (hl : Layout pos toks) (hz : Zeroed toks m m')
    (h : Holds m toks b p) : Holds m' toks b p where
  bin := by
    have hrel := h.bin
    generalize b.bin = x, p.bin = y at hrel
    cases hrel with
    | some hstr => exact .some (hstr.zeroed hl hz)
    | none => exact .none
  argv := by
    have hrel := h.argv
    generalize b.argv = x, p.argv = y at hrel
    cases hrel with
    | some hstrs => exact .some ⟨hstrs.1, hstrs.2.zeroed hl hz⟩
    | none => exact .none
  runmode := by
    have hrel := h.runmode
    generalize b.runmode = x, p.runmode = y at hrel
    cases hrel with
    | some hstr => exact .some (hstr.zeroed hl hz)
    | none => exact .none

/-- The state when an entry has been saved. -/
def SavedOne (toks : List Tok) (s : State) (e : Entry) (s' : State) : Prop :=
  Zeroed toks s.mem s'.mem ∧ ∃ rre, s'.execs = s.execs ++ [rre] ∧ Added toks s'.mem rre e

theorem wp_saveExec (hl : Layout pos toks) (hmalloc : ∀ s k, env.answer s (.malloc k) ≠ 0)
    (hb : Holds s.mem toks b ⟨some e.bin, e.argv, e.runmode⟩) :
    wp (saveExec env toks b) (fun _ s' => e.argv.isSome ∧ SavedOne toks s e s')
      (fun stop => e.argv = none ∧ stop = .null) s := by
  have hbin := hb.bin
  have hargv := hb.argv
  rw [saveExec]
  generalize hx : b.bin = x at hbin
  obtain @⟨tok, _, hstr⟩ := hbin
  obtain ⟨hz, hterm⟩ := hstr.terminate hl
  simp only [wp_bind, wp_token2cstr]
  refine (wp_rreflags (hb.zeroed hl hz)).mono ?_ fun _ he => he.elim
  rintro flags s' ⟨rfl, rfl⟩
  generalize hy : b.argv = y at hargv
  cases hopt : e.argv with
  | none =>
    rw [hopt] at hargv
    cases hargv
    exact ⟨rfl, rfl⟩
  | some args =>
    rw [hopt] at hargv
    obtain @⟨x, _, hsize, hstrs⟩ := hargv
    simp only [wp_bind, wp_ask, wp_orElse, hmalloc, ne_eq, not_false_eq_true, decide_true,
      forall_const, Bool.true_eq_false, IsEmpty.forall_iff, and_true, hsize]
    refine (wp_argvStrings hl (hstrs.zeroed hl hz)).mono ?_ fun _ he => he.elim
    rintro strs s'' ⟨hz', hexecs, hall⟩
    refine ⟨rfl, hz.trans hz', _, congrArg (· ++ _) hexecs, rfl, ?_, ?_⟩
    · rw [hopt, Option.getD_some]
    · refine ⟨tok.start :: strs, rfl, ?_⟩
      rw [hopt, Option.getD_some]
      exact .cons (hterm.zeroed hl hz') hall

theorem wp_addbin_at (hl : Layout pos toks) (hmalloc : ∀ s k, env.answer s (.malloc k) ≠ 0)
    (htok : toks[t]? = some tok) (hkind : tok.kind = .object) (hsize : tok.size = e.fields.length)
    (hfields : RcFields s.mem toks (t + 1) e.fields) :
    wp (addbin env toks t)
      (fun r s' => e.argv.isSome ∧ r = e.width ∧ SavedOne toks s e s')
      (fun stop => e.argv = none ∧ stop = .null) s := by
  simp only [addbin, tokAt_of_some htok, wp_bind, wp_pure, wp_tChecktype, hkind, ne_eq,
    not_true_eq_false, forall_const, IsEmpty.forall_iff, and_true, hsize]
  refine (wp_addbinFields_at (p := ⟨none, none, none⟩) hfields ⟨.none, .none, .none⟩).mono ?_
    fun _ he => he.elim
  rintro ⟨binsize, b⟩ s' ⟨rfl, hwidth, hb⟩
  rw [e.parts] at hb
  exact (wp_saveExec hl hmalloc hb).mono (fun _ s' h => ⟨h.1, hwidth, h.2⟩) fun _ he => he

/-! ## The array -/

/-- The state when the entries have been saved. -/
def SavedAll (toks : List Tok) (s : State) (entries : List Entry) (s' : State) : Prop :=
  Zeroed toks s.mem s'.mem ∧ ∃ new, s'.execs = s.execs ++ new ∧
    List.Forall₂ (Added toks s'.mem) new entries

theorem SavedAll.cons {s' s'' : State} (hl : Layout pos toks) (h : SavedOne toks s e s')
    (hrest : SavedAll toks s' entries s'') : SavedAll toks s (e :: entries) s'' := by
  obtain ⟨hz, rre, hexecs, hadded⟩ := h
  obtain ⟨hz', new, hexecs', hall⟩ := hrest
  refine ⟨hz.trans hz', rre :: new, ?_, .cons (hadded.zeroed hl hz') hall⟩
  rw [hexecs', hexecs, append_assoc, singleton_append]

theorem wp_addbins_at (hl : Layout pos toks) (hmalloc : ∀ s k, env.answer s (.malloc k) ≠ 0) :
    ∀ {entries : List Entry} {t totsize : ℕ} {s : State}, RcObjects s.mem toks t entries →
      wp (addbins env toks entries.length t totsize)
        (fun r s' => (∀ e ∈ entries, e.argv.isSome) ∧
          r = totsize + (entries.map Entry.width).sum ∧ SavedAll toks s entries s')
        (fun stop => (∃ e ∈ entries, e.argv = none) ∧ stop = .null) s
  | [], _, _, _, _ => ⟨nofun, rfl, .refl, [], (append_nil _).symm, .nil⟩
  | e :: entries, t, totsize, s, h => by
    obtain ⟨⟨tok, htok, hkind, hsize⟩, hfields, hrest⟩ := h
    rw [length_cons, addbins, wp_bind]
    refine (wp_addbin_at hl hmalloc htok hkind hsize hfields).mono ?_ ?_
    · rintro r s' ⟨hsome, rfl, hone⟩
      refine (wp_addbins_at hl hmalloc (hrest.zeroed hl hone.1)).mono ?_ ?_
      · rintro r s'' ⟨hall, hr, hsaved⟩
        refine ⟨forall_mem_cons.mpr ⟨hsome, hall⟩, ?_, hsaved.cons hl hone⟩
        rw [hr, map_cons, sum_cons]
        omega
      · rintro stop ⟨⟨e', he', hnone⟩, hstop⟩
        exact ⟨⟨e', mem_cons_of_mem _ he', hnone⟩, hstop⟩
    · rintro stop ⟨hnone, hstop⟩
      exact ⟨⟨e, mem_cons_self, hnone⟩, hstop⟩

theorem wp_handleRc_at (hl : Layout pos toks) (hmalloc : ∀ s k, env.answer s (.malloc k) ≠ 0)
    (h : RcArray s.mem toks t entries) :
    wp (handleRc env toks t)
      (fun r s' => (∀ e ∈ entries, e.argv.isSome) ∧ r = rcWidth entries ∧ SavedAll toks s entries s')
      (fun stop => (∃ e ∈ entries, e.argv = none) ∧ stop = .null) s := by
  obtain ⟨⟨tok, htok, hkind, hsize⟩, hobjects⟩ := h
  simp only [handleRc, tokAt_of_some htok, wp_bind, wp_pure, wp_tChecktype, hkind, ne_eq,
    not_true_eq_false, forall_const, IsEmpty.forall_iff, and_true, hsize]
  refine (wp_addbins_at hl hmalloc hobjects).mono ?_ fun _ he => he
  rintro r s' ⟨hall, rfl, hsaved⟩
  exact ⟨hall, rfl, hsaved⟩

/-- **The array.**  With memory for them, a `rumprun_exec` is appended for each entry, in order, with
what the entry says, and the tokens of the array are returned, if and only if every entry has an
`argv`. -/
theorem rc_parsed_iff {num n : ℕ} {js : List UInt8}
    (hparse : jsmnParse (some num) js = .ok (n, toks))
    (hmalloc : ∀ s k, env.answer s (.malloc k) ≠ 0) (hrc : RcArray s.mem toks t entries) :
    (∃ s' new, handleRc env toks t s = .ok ((rcWidth entries : ℤ), s') ∧
        s'.execs = s.execs ++ new ∧ List.Forall₂ (Saved s'.mem) new entries) ↔
      ∀ e ∈ entries, e.argv.isSome := by
  obtain ⟨⟨pos, hl⟩, -⟩ := jsmnParse_layout hparse
  have hwp := wp_handleRc_at hl hmalloc hrc
  constructor
  · rintro ⟨s', new, hok, -⟩
    exact (hwp.ok hok).1
  · intro hall
    cases hrun : handleRc env toks t s with
    | error stop =>
        obtain ⟨⟨e, he, hnone⟩, -⟩ := hwp.error hrun
        have := hall e he
        simp [hnone] at this
    | ok r =>
        obtain ⟨-, hr, -, new, hexecs, hadded⟩ := hwp.ok hrun
        exact ⟨r.2, new, by rw [← hr], hexecs, hadded.imp fun _ _ => Added.saved⟩

end

def rcText : List UInt8 := bytes "[\x7b\"argv\":[\"x\"],\"bin\":\"b\",\"runmode\":\"&\"\x7d]"

def rcToks : List Tok :=
  [⟨.array, 0, some 40, 1⟩, ⟨.object, 1, some 39, 3⟩, ⟨.string, 3, some 7, 1⟩, ⟨.array, 9, some 14, 1⟩,
    ⟨.string, 11, some 12, 0⟩, ⟨.string, 16, some 19, 1⟩, ⟨.string, 22, some 23, 0⟩,
    ⟨.string, 26, some 33, 1⟩, ⟨.string, 36, some 37, 0⟩]

def rcEntry : Entry where
  bin := bytes "b"
  argv := some [bytes "x"]
  runmode := some true
  fields := [.argv [bytes "x"], .bin (bytes "b"), .runmode true]
  order := .swap _ _ _

/-- `[{"argv":["x"],"bin":"b","runmode":"&"}]` -/
theorem rc_parsed_one :
    ∃ s' new, handleRc allWell rcToks 0 ⟨ofList rcText, [], 0, []⟩ = .ok (9, s') ∧
      s'.execs = new ∧ List.Forall₂ (Saved s'.mem) new [rcEntry] := by
  have hparse : jsmnParse (some 9) rcText = .ok (9, rcToks) := by decide +kernel
  have hrc : RcArray (ofList rcText) rcToks 0 [rcEntry] :=
    ⟨⟨_, rfl, rfl, rfl⟩, ⟨_, rfl, rfl, rfl⟩,
      ⟨⟨_, _, rfl, ⟨⟨2, rfl⟩, rfl, rfl, by decide, by decide⟩, rfl, rfl, rfl, rfl,
        ⟨_, rfl, ⟨4, rfl⟩, rfl, rfl, by decide, by decide⟩, trivial⟩,
      ⟨_, _, rfl, ⟨⟨5, rfl⟩, rfl, rfl, by decide, by decide⟩, rfl, rfl,
        ⟨⟨6, rfl⟩, rfl, rfl, by decide, by decide⟩, rfl⟩,
      ⟨_, _, rfl, ⟨⟨7, rfl⟩, rfl, rfl, by decide, by decide⟩, rfl, rfl,
        ⟨⟨8, rfl⟩, rfl, rfl, by decide, by decide⟩, rfl⟩, trivial⟩, trivial⟩
  have hmalloc : ∀ s k, allWell.answer s (.malloc k) ≠ 0 := fun _ _ => one_ne_zero
  exact (rc_parsed_iff (s := ⟨ofList rcText, [], 0, []⟩) hparse hmalloc hrc).mpr (by decide)

def bareText : List UInt8 := bytes "[\x7b\"bin\":\"b\"\x7d]"

def bareToks : List Tok :=
  [⟨.array, 0, some 13, 1⟩, ⟨.object, 1, some 12, 1⟩, ⟨.string, 3, some 6, 1⟩, ⟨.string, 9, some 10, 0⟩]

def bareEntry : Entry := ⟨bytes "b", none, none, [.bin (bytes "b")], .refl _⟩

/-- `[{"bin":"b"}]`: the entry has no `argv`, and a null pointer is followed. -/
theorem bare_entry_null :
    jsmnParse (some 4) bareText = .ok (4, bareToks) ∧
      RcArray (ofList bareText) bareToks 0 [bareEntry] ∧
      handleRc allWell bareToks 0 ⟨ofList bareText, [], 0, []⟩ = .error .null :=
  ⟨by decide +kernel,
    ⟨⟨_, rfl, rfl, rfl⟩, ⟨_, rfl, rfl, rfl⟩,
      ⟨⟨_, _, rfl, ⟨⟨2, rfl⟩, rfl, rfl, by decide, by decide⟩, rfl, rfl,
        ⟨⟨3, rfl⟩, rfl, rfl, by decide, by decide⟩, rfl⟩, trivial⟩, trivial⟩,
    rfl⟩

end Librettos.Config
