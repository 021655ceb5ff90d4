/-
# `Base.ConfigWalk` — going over the tokens

The loop of `rumprun_config` goes on by what the handler returns.  Where it works as meant, every
round takes at least one token and the loop ends at the end of the array, or with a message.  Three
things are in the way of that.

  * A key can be the last token.  The handler looks for its value all the same.
  * `handle_net` and `handle_blk` return -1 for an object with fewer tokens behind it than it needs.
    It is added to `t` like any other number, and the key is up again: the loop never ends.
  * `addbin` looks for the array behind `argv` without asking whether the key has a value, and for
    as many keys as the object is said to have; and it uses `t_argv` without asking whether there
    was one.

`walk_advances_iff` says that this is all, for the tokens of every text.
-/
import Librettos.Base.Config

namespace Librettos.Config

open Bytes Jsmn Makeargv Wp

section
variable {α β κ : Type} {env : Env} {toks : List Tok} {t n left : ℕ} {s : State}
variable {args : List (List UInt8)} {addr mask gw : Option Tok} {path mp : List UInt8}
  {handler : Handler}

/-! ## Code that returns or exits -/

/-- It comes back, or it exits with a message. -/
def Safe (m : M α) : Prop := ∀ s, wp m (fun _ _ => True) Stop.IsExit s

theorem Safe.pure (a : α) : Safe (pure a : M α) := fun _ => trivial

theorem Safe.errx {format : String} : Safe (Config.errx format args : M α) :=
  fun _ => trivial

theorem Safe.orElse {c : Bool} {format : String} : Safe (Config.orElse c format args) := by
  intro s
  rw [wp_orElse]
  exact ⟨fun _ => trivial, fun _ => trivial⟩

theorem Safe.ask {call : Call} : Safe (Config.ask env call) := fun _ => trivial

theorem Safe.get : Safe (get : M State) := fun _ => trivial

theorem Safe.modify {f : State → State} : Safe (modify f : M Unit) := fun _ => trivial

theorem Safe.bind {m : M α} {f : α → M β} (hm : Safe m) (hf : ∀ a, Safe (f a)) :
    Safe (m >>= f) := by
  intro s
  rw [wp_bind]
  exact (hm s).mono (fun a s' _ => hf a s') fun _ he => he

theorem Safe.call {call : Call} {c : ℤ → Bool} {format : String} :
    Safe (Config.ask env call >>= fun rv => Config.orElse (c rv) format args) :=
  Safe.ask.bind fun _ => .orElse

theorem safe_configStatic {ifname method : Tok}
    {ifaddr : List UInt8 → List UInt8 → List UInt8 → Call} {gateway : List UInt8 → Call} :
    Safe (configStatic env ifname method addr mask gw ifaddr gateway) := by
  refine Safe.get.bind fun s => Safe.orElse.bind fun _ => ?_
  split
  · refine Safe.ask.bind fun rv => Safe.orElse.bind fun _ => ?_
    split
    · exact .pure ()
    · exact .call
  · exact .errx

theorem safe_configIpv4 {ifname method : Tok} :
    Safe (configIpv4 env ifname method addr mask gw) := by
  refine Safe.get.bind fun s => ?_
  split
  · exact .call
  · exact safe_configStatic

theorem safe_configIpv6 {ifname method : Tok} :
    Safe (configIpv6 env ifname method addr mask gw) := by
  refine Safe.get.bind fun s => ?_
  split
  · exact .call
  · exact safe_configStatic

theorem safe_configNet {b : Net} : Safe (configNet env b) := by
  unfold configNet
  split
  · have hclone : ∀ {cloner ifname}, Safe (cloneIf env cloner ifname) := by
      intro cloner ifname
      cases cloner with
      | none => exact .pure ()
      | some _ => exact .call
    refine Safe.get.bind fun s => hclone.bind fun _ => ?_
    · split
      · exact safe_configIpv4
      · split
        · exact safe_configIpv6
        · exact .errx
  · exact .errx

theorem safe_openVnd {bbuf rbuf : List UInt8} : Safe (openVnd env bbuf rbuf) := by
  have hmajor : ∀ israw, Safe (getvndmajor env israw) := fun _ => .call
  refine Safe.ask.bind fun fd => ?_
  split
  · exact (hmajor false).bind fun _ => (hmajor true).bind fun _ => Safe.ask.bind fun _ =>
      Safe.orElse.bind fun _ => Safe.ask.bind fun _ => Safe.orElse.bind fun _ => .ask
  · exact .pure fd

theorem safe_configvnd : Safe (configvnd env path) :=
  Safe.get.bind fun _ => safe_openVnd.bind fun _ => Safe.orElse.bind fun _ => Safe.ask.bind fun _ =>
    Safe.orElse.bind fun _ => Safe.ask.bind fun _ => Safe.modify.bind fun _ => Safe.ask.bind fun _ =>
    .pure _

theorem safe_configetfs : Safe (configetfs env path) :=
  Safe.ask.bind fun _ => Safe.orElse.bind fun _ => Safe.ask.bind fun _ => Safe.orElse.bind fun _ =>
    .pure _

theorem safe_mkdirs : ∀ ends : List ℕ, Safe (mkdirs env mp ends)
  | [] => .pure ()
  | _ :: ends => Safe.ask.bind fun _ => Safe.orElse.bind fun _ => safe_mkdirs ends

theorem safe_mountAny {dev : List UInt8} : ∀ fs : List (List UInt8), Safe (mountAny env dev mp fs)
  | [] => .pure false
  | _ :: rest => by
    refine Safe.ask.bind fun rv => ?_
    split
    · exact .pure true
    · exact safe_mountAny rest

theorem safe_mountAt {mp fstype : Option Tok} : Safe (mountAt env path mp fstype) := by
  refine Safe.get.bind fun s => ?_
  split
  · exact .pure ()
  · exact .errx
  · refine (safe_mkdirs _).bind fun _ => ?_
    split
    · exact .errx
    · next mounter _ =>
      refine Safe.bind ?_ fun _ => .orElse
      cases mounter <;> exact safe_mountAny _

theorem safe_blkPath {source : List UInt8} : Safe (blkPath env source path) := by
  unfold blkPath
  split
  · exact .pure path
  · split
    · exact safe_configvnd
    · split
      · exact safe_configetfs
      · exact .errx

theorem safe_configBlk {b : Blk} : Safe (configBlk env b) := by
  unfold configBlk
  split
  · refine Safe.get.bind fun s => safe_blkPath.bind fun path => safe_mountAt.bind fun _ => ?_
    split
    · exact .pure ()
    · exact Safe.ask.bind fun _ => .pure ()
  · exact .errx

/-! ## The handlers -/

theorem safe_tokAt (h : t < toks.length) : Safe (tokAt toks t) := fun s => by
  rw [tokAt_of_some (List.getElem?_eq_getElem h)]
  trivial

theorem safe_pairs {names : List (List UInt8 × κ)} {set : κ → Tok → β → β} {func : String} :
    ∀ {n t : ℕ} {b : β}, t + 2 * n ≤ toks.length → Safe (pairs toks names set func n t b)
  | 0, _, b, _ => .pure b
  | n + 1, t, b, h => by
    have htype : ∀ {tok kind}, Safe (tChecktype tok kind func) := Safe.get.bind fun _ => .orElse
    have hsize : ∀ {tok size}, Safe (tChecksize tok size func) := Safe.get.bind fun _ => .orElse
    have hselect : ∀ {tok}, Safe (selectKey tok names func) := by
      refine Safe.get.bind fun s => ?_
      split
      · exact .pure _
      · exact .errx
    exact (safe_tokAt (by omega)).bind fun _ => htype.bind fun _ => hsize.bind fun _ =>
      (safe_tokAt (by omega)).bind fun _ => htype.bind fun _ => hsize.bind fun _ =>
      (Safe.modify.bind fun _ => .pure _).bind fun _ => hselect.bind fun _ =>
      safe_pairs (by omega)

/-- `makeargv` on a token that has been made a string. -/
theorem wp_makeargvOf {tok : Tok} (h0 : s.mem (tok.start + tSize tok) = 0) :
    wp (makeargvOf env tok) (fun _ _ => True) Stop.IsExit s := by
  obtain ⟨str, hstr, hle⟩ := exists_cstr h0
  have hlt : str.length < tSize tok + 1 := by omega
  obtain ⟨c, hc, -, hmem, -⟩ := Parseargs.count_pass hstr hlt
  obtain ⟨f, hf, -⟩ := Parseargs.fill_pass hstr hlt
  rw [makeargvOf, wp_bind, wp_get, hc]
  by_cases hp : env.answer s (.malloc (c.nargs + 1)) = 0
  · simp [makeargv, hc, hp, Stop.IsExit]
  · simp [makeargv, hc, hmem, hf, hp]

/-- A value that is a string has one token. -/
theorem wp_string_value {tok : Tok}
    (h : handler = .cmdline ∨ handler = .env ∨ handler = .hostname) (htok : toks[t]? = some tok) :
    wp (handler.run env toks t left) (fun v _ => v = 1) Stop.IsExit s := by
  rcases h with rfl | rfl | rfl
  · simp only [Handler.run, handleCmdline, tokAt_of_some htok, wp_bind, wp_pure, wp_tChecktype,
      wp_token2cstr]
    exact ⟨fun _ => wp_makeargvOf (by simp), fun _ => trivial⟩
  · simp only [Handler.run, handleEnv, tokAt_of_some htok, wp_bind, wp_pure, wp_tChecktype,
      wp_token2cstr, wp_ask, wp_orElse]
    exact ⟨fun _ => ⟨fun _ => trivial, fun _ => trivial⟩, fun _ => trivial⟩
  · simp only [Handler.run, handleHostname, tokAt_of_some htok, wp_bind, wp_pure, wp_tChecktype,
      wp_token2cstr, wp_ask, wp_orElse]
    exact ⟨fun _ => ⟨fun _ => trivial, fun _ => trivial⟩, fun _ => trivial⟩

/-- An object of straight pairs has two tokens for each. -/
theorem wp_object_value {tok : Tok} (h : handler = .net ∨ handler = .blk)
    (htok : toks[t]? = some tok) (hleft : t + left ≤ toks.length)
    (hfits : tok.kind = .object → 2 * tok.size + 1 ≤ left) :
    wp (handler.run env toks t left) (fun v _ => v = 2 * tok.size + 1) Stop.IsExit s := by
  have hnot : tok.kind = .object → ¬ left < 2 * tok.size + 1 := fun hk => by
    have := hfits hk
    omega
  have hroom : tok.kind = .object → t + 1 + 2 * tok.size ≤ toks.length := fun hk => by
    have := hfits hk
    omega
  rcases h with rfl | rfl
  · simp only [Handler.run, handleNet, tokAt_of_some htok, wp_bind, wp_pure, wp_tChecktype]
    refine ⟨fun hk => ?_, fun _ => trivial⟩
    rw [if_neg (hnot hk), wp_bind]
    refine (safe_pairs (hroom hk) s).mono (fun b s' _ => ?_) fun _ he => he
    rw [wp_bind]
    exact (safe_configNet s').mono (fun _ _ _ => rfl) fun _ he => he
  · simp only [Handler.run, handleBlk, tokAt_of_some htok, wp_bind, wp_pure, wp_tChecktype]
    refine ⟨fun hk => ?_, fun _ => trivial⟩
    rw [if_neg (hnot hk), wp_bind]
    refine (safe_pairs (hroom hk) s).mono (fun b s' _ => ?_) fun _ he => he
    rw [wp_bind]
    exact (safe_configBlk s').mono (fun _ _ _ => rfl) fun _ he => he

/-- An object with too few tokens behind it is answered with -1. -/
theorem object_value_short {tok : Tok} (h : handler = .net ∨ handler = .blk)
    (htok : toks[t]? = some tok) (hk : tok.kind = .object) (hshort : left < 2 * tok.size + 1) :
    handler.run env toks t left s = .ok (-1, s) := by
  rcases h with rfl | rfl
  · rw [Handler.run, handleNet, tokAt_of_some htok, pure_bind, bind_of_ok (tChecktype_of_kind hk),
      if_pos hshort]
    rfl
  · rw [Handler.run, handleBlk, tokAt_of_some htok, pure_bind, bind_of_ok (tChecktype_of_kind hk),
      if_pos hshort]
    rfl

/-! ## The tokens that an `rc_TESTING` takes

Whatever `addbin` is given, when it returns it has not gone over the end: an array has room for its
`size` behind it. -/

theorem wp_true {m : M α} : wp m (fun _ _ => True) (fun _ => True) s := by
  unfold wp
  split <;> trivial

/-- A token has its size in tokens behind it. -/
def Sized (toks : List Tok) : Prop :=
  ∀ (i : ℕ) (u : Tok), toks[i]? = some u → i + 1 + u.size ≤ toks.length

/-- The array has its tokens, if there is one. -/
def Bin.Roomed (toks : List Tok) (b : Bin) : Prop :=
  ∀ x, b.argv = some x → x.1 + 1 + x.2.size ≤ toks.length

section
variable (hsize : Sized toks)
include hsize

theorem wp_addbinField {b : Bin} :
    wp (addbinField toks t b)
      (fun r _ => t + r.1 ≤ toks.length ∧ (b.Roomed toks → r.2.Roomed toks)) (fun _ => True) s := by
  have hroom : ∀ {u}, toks[t + 1]? = some u → t + (2 + u.size) ≤ toks.length := fun hu => by
    have := hsize (t + 1) _ hu
    omega
  have hpair : ∀ {u}, toks[t + 1]? = some u → t + 2 ≤ toks.length := fun hu => by
    have := hroom hu
    omega
  simp only [addbinField, wp_bind, wp_tokAt, wp_tChecktype, wp_selectKey, implies_true, and_true]
  intro key _ _ k _
  cases k with
  | bin | runmode =>
    simp only [wp_bind, wp_tChecksize, wp_tokAt, wp_tChecktype, wp_pure, implies_true, and_true]
    exact fun _ value hvalue _ _ => ⟨hpair hvalue, id⟩
  | argv =>
    simp only [wp_bind, wp_tokAt, wp_tChecktype, wp_pure, implies_true, and_true]
    refine fun value hvalue _ => ⟨hroom hvalue, fun _ => ?_⟩
    rintro _ ⟨⟩
    exact hsize (t + 1) _ hvalue

theorem wp_addbinFields :
    ∀ {objleft t binsize : ℕ} {b : Bin} {s : State}, t ≤ toks.length →
      wp (addbinFields toks objleft t binsize b)
        (fun r _ => ∃ k, r.1 = binsize + k ∧ t + k ≤ toks.length) (fun _ => True) s
  | 0, t, binsize, b, s, ht => ⟨0, rfl, ht⟩
  | objleft + 1, t, binsize, b, s, _ => by
    rw [addbinFields, wp_bind]
    refine (wp_addbinField hsize).mono (fun r s' hr => ?_) fun _ he => he
    refine (wp_addbinFields hr.1).mono (fun r' _ hr' => ?_) fun _ he => he
    obtain ⟨k, hk, hle⟩ := hr'
    exact ⟨r.1 + k, by omega, by omega⟩

theorem wp_addbin : wp (addbin env toks t) (fun r _ => t + r ≤ toks.length) (fun _ => True) s := by
  simp only [addbin, wp_bind, wp_tokAt, wp_tChecktype, implies_true, and_true]
  intro tok htok _
  have ht : t + 1 ≤ toks.length := (List.getElem?_eq_some_iff.mp htok).1
  refine (wp_addbinFields hsize ht).mono (fun r s' hr => ?_) fun _ he => he
  refine wp_true.mono (fun _ _ _ => ?_) fun _ he => he
  show t + r.1 ≤ toks.length
  omega

theorem wp_addbins :
    ∀ {rem t totsize : ℕ} {s : State}, t ≤ toks.length →
      wp (addbins env toks rem t totsize)
        (fun r _ => ∃ k, r = totsize + k ∧ t + k ≤ toks.length) (fun _ => True) s
  | 0, t, totsize, s, ht => ⟨0, rfl, ht⟩
  | rem + 1, t, totsize, s, _ => by
    rw [addbins, wp_bind]
    refine (wp_addbin hsize).mono (fun r s' hr => ?_) fun _ he => he
    refine (wp_addbins hr).mono (fun r' _ hr' => ?_) fun _ he => he
    obtain ⟨k, hk, hle⟩ := hr'
    exact ⟨r + k, by omega, by omega⟩

theorem wp_handleRc :
    wp (handleRc env toks t) (fun v _ => 1 ≤ v ∧ (t : ℤ) + v ≤ toks.length) (fun _ => True) s := by
  simp only [handleRc, wp_bind, wp_tokAt, wp_tChecktype, implies_true, and_true]
  intro tok htok _
  have ht : t + 1 ≤ toks.length := (List.getElem?_eq_some_iff.mp htok).1
  refine (wp_addbins hsize ht).mono (fun r s' hr => ?_) fun _ he => he
  obtain ⟨k, hk, hle⟩ := hr
  rw [wp_pure, hk]
  omega

end

/-! ## The tokens that it needs -/

/-- There is a key at `t`, and a value behind it if it is `argv`. -/
def KeyFits (mem : Mem) (toks : List Tok) (t : ℕ) : Prop :=
  ∃ key, toks[t]? = some key ∧ (key.kind = .string → select mem key binKeys = some .argv →
    ∃ value, toks[t + 1]? = some value)

/-- The object is saved: it has a program, and the run mode that it has is one. -/
def Bin.Saves (mem : Mem) (b : Bin) : Prop :=
  ∃ bin, b.bin = some bin ∧ ∀ r, b.runmode = some r → tSize r = 1 ∧
    (Function.update mem (bin.start + tSize bin) 0 r.start = 38 ∨
      Function.update mem (bin.start + tSize bin) 0 r.start = 124)

/-- The keys of an object that `addbin` comes to fit, and if it is saved it has an `argv`. -/
def FieldsFit (toks : List Tok) : ℕ → ℕ → Bin → State → Prop
  | 0, _, b, s => b.Saves s.mem → ∃ argv, b.argv = some argv
  | objleft + 1, t, b, s => KeyFits s.mem toks t ∧ ∀ r s', addbinField toks t b s = .ok (r, s') →
      FieldsFit toks objleft (t + r.1) r.2 s'

/-- There are the elements that `handle_rc` comes to, and those that are objects fit. -/
def ObjectsFit (env : Env) (toks : List Tok) : ℕ → ℕ → State → Prop
  | 0, _, _ => True
  | rem + 1, t, s =>
    (∃ tok, toks[t]? = some tok ∧
      (tok.kind = .object → FieldsFit toks tok.size (t + 1) ⟨none, none, none⟩ s)) ∧
    ∀ onesize s', addbin env toks t s = .ok (onesize, s') → ObjectsFit env toks rem (t + onesize) s'

theorem safe_argvStrings : ∀ {n t : ℕ}, t + n ≤ toks.length → Safe (argvStrings toks n t)
  | 0, _, _ => .pure []
  | n + 1, t, h => (safe_tokAt (by omega)).bind fun _ => (Safe.get.bind fun _ => .orElse).bind fun _ =>
      (Safe.modify.bind fun _ => .pure _).bind fun _ => (safe_argvStrings (by omega)).bind fun _ =>
      .pure _

theorem addbinField_exits_iff {b : Bin} (hsize : Sized toks) :
    wp (addbinField toks t b) (fun _ _ => True) Stop.IsExit s ↔ KeyFits s.mem toks t := by
  -- a key of size 1 has a token behind it
  have hnext : ∀ {key}, toks[t]? = some key → key.size = 1 → toks[t + 1]? ≠ none := by
    intro key hkey h1 hnone
    have := hsize t key hkey
    rw [List.getElem?_eq_none_iff] at hnone
    omega
  cases hkey : toks[t]? with
  | none => simp [addbinField, KeyFits, hkey, Stop.IsExit]
  | some key =>
    simp only [addbinField, KeyFits, wp_bind, wp_tokAt, wp_tChecktype, wp_selectKey, hkey,
      Option.some.injEq, forall_eq', reduceCtorEq, IsEmpty.forall_iff, and_true, exists_eq_left',
      Stop.IsExit, implies_true]
    refine imp_congr_right fun _ => ?_
    rw [← Option.ne_none_iff_exists']
    constructor
    · intro h hargv hnone
      have hvalue := h .argv hargv
      simp [hnone, Stop.IsExit] at hvalue
    · intro h k hk
      cases k with
      | argv =>
        simp only [wp_bind, wp_tokAt, wp_tChecktype, wp_pure, Stop.IsExit, implies_true, and_true, true_and]
        exact h hk
      | bin | runmode =>
        simp only [wp_bind, wp_tokAt, wp_tChecktype, wp_tChecksize, wp_pure, Stop.IsExit, implies_true,
          and_true, true_and]
        exact hnext hkey

theorem saveExec_exits_iff {b : Bin} (hb : b.Roomed toks) :
    wp (saveExec env toks b) (fun _ _ => True) Stop.IsExit s ↔
      (b.Saves s.mem → ∃ argv, b.argv = some argv) := by
  unfold saveExec
  cases hbin : b.bin with
  | none => simp [Bin.Saves, hbin, Stop.IsExit]
  | some bin =>
    cases hargv : b.argv with
    | none =>
      simp only [wp_bind, wp_token2cstr, rreflags, wp_get, Bin.Saves, hbin]
      cases b.runmode with
      | none => simp [Stop.IsExit]
      | some r =>
        simp only [wp_ite, wp_pure, wp_stop, wp_errx, Stop.IsExit]
        split_ifs <;> simp_all
    | some x =>
      have hflags : Safe (rreflags bin b.runmode) := by
        refine Safe.get.bind fun s => ?_
        cases b.runmode with
        | none => exact .pure _
        | some r =>
          dsimp only
          split_ifs
          · exact .pure _
          · exact .pure _
          · exact .errx
      have hstart : Safe (token2cstr bin) := Safe.modify.bind fun _ => .pure _
      refine iff_of_true (hstart.bind (fun _ => hflags.bind fun _ => ?_) s) fun _ => ⟨x, rfl⟩
      exact Safe.ask.bind fun _ => Safe.orElse.bind fun _ =>
        (safe_argvStrings (hb x hargv)).bind fun _ => .modify

theorem addbinFields_exits_iff (hsize : Sized toks) :
    ∀ {objleft t binsize : ℕ} {b : Bin} {s : State}, b.Roomed toks →
      (wp (addbinFields toks objleft t binsize b)
        (fun r s' => wp (saveExec env toks r.2) (fun _ _ => True) Stop.IsExit s') Stop.IsExit s ↔
        FieldsFit toks objleft t b s)
  | 0, _, _, _, _, hb => saveExec_exits_iff hb
  | objleft + 1, t, binsize, b, s, hb => by
    rw [addbinFields, wp_bind, wp_iff, addbinField_exits_iff hsize]
    refine and_congr_right fun _ => forall₃_congr fun r s' hr => ?_
    exact addbinFields_exits_iff hsize (((wp_addbinField hsize).ok hr).2 hb)

theorem addbin_exits_iff (hsize : Sized toks) :
    wp (addbin env toks t) (fun _ _ => True) Stop.IsExit s ↔ ∃ tok, toks[t]? = some tok ∧
      (tok.kind = .object → FieldsFit toks tok.size (t + 1) ⟨none, none, none⟩ s) := by
  cases htok : toks[t]? with
  | none => simp [addbin, htok, Stop.IsExit]
  | some tok =>
    simp only [addbin, wp_bind, wp_tokAt, wp_tChecktype, htok, Option.some.injEq, forall_eq',
      reduceCtorEq, IsEmpty.forall_iff, and_true, exists_eq_left', Stop.IsExit, implies_true, wp_pure]
    exact imp_congr_right fun _ => addbinFields_exits_iff hsize (by simp [Bin.Roomed])

theorem addbins_exits_iff (hsize : Sized toks) : ∀ {rem t totsize : ℕ} {s : State},
    wp (addbins env toks rem t totsize) (fun _ _ => True) Stop.IsExit s ↔ ObjectsFit env toks rem t s
  | 0, _, _, _ => Iff.rfl
  | rem + 1, t, totsize, s => by
    rw [addbins, wp_bind, wp_iff, addbin_exits_iff hsize]
    exact and_congr_right fun _ => forall₃_congr fun _ _ _ => addbins_exits_iff hsize

theorem handleRc_exits_iff {value : Tok} (hsize : Sized toks) (hvalue : toks[t]? = some value) :
    wp (handleRc env toks t) (fun _ _ => True) Stop.IsExit s ↔
      (value.kind = .array → ObjectsFit env toks value.size (t + 1) s) := by
  simp only [handleRc, wp_bind, wp_tokAt, wp_tChecktype, hvalue, Option.some.injEq, forall_eq',
    reduceCtorEq, IsEmpty.forall_iff, and_true, Stop.IsExit, implies_true, wp_pure]
  exact imp_congr_right fun _ => addbins_exits_iff hsize

/-! ## One round -/

/-- The value of a key has the tokens that its handler goes to; `t` is where it begins. -/
def Handler.Fits (env : Env) (toks : List Tok) (t : ℕ) (value : Tok) (s : State) : Handler → Prop
  | .net | .blk => value.kind = .object → 2 * value.size + 1 ≤ toks.length - t
  | .rc => value.kind = .array → ObjectsFit env toks value.size (t + 1) s
  | .cmdline | .env | .hostname => True

/-- If the token is a key, it has a value that fits. -/
def Complete (env : Env) (toks : List Tok) (t : ℕ) (s : State) : Prop :=
  ∀ key handler, toks[t]? = some key → key.kind = .string →
    select s.mem key parsers = some handler →
    ∃ value, toks[t + 1]? = some value ∧ handler.Fits env toks (t + 1) value s

/-- A round that does not exit goes on, and stays in the array. -/
def Advances (env : Env) (toks : List Tok) (t : ℕ) (s : State) : Prop :=
  wp (iteration env toks t) (fun t' _ => t < t' ∧ t' ≤ toks.length) Stop.IsExit s

theorem run_beyond (handler : Handler) (hnone : toks[t]? = none) :
    handler.run env toks t left s = .error (.beyond t) := by
  have hstop : ∀ {f : Tok → M ℤ}, (tokAt toks t >>= f) s = .error (.beyond t) := fun {f} => by
    rw [tokAt_of_none hnone]
    rfl
  cases handler <;> exact hstop

theorem wp_run {value : Tok} (hsize : Sized toks)
    (hvalue : toks[t]? = some value) (hfits : handler.Fits env toks t value s) :
    wp (handler.run env toks t (toks.length - t))
      (fun v _ => 1 ≤ v ∧ (t : ℤ) + v ≤ toks.length) Stop.IsExit s := by
  have ht : t + 1 ≤ toks.length := (List.getElem?_eq_some_iff.mp hvalue).1
  have hstring : handler = .cmdline ∨ handler = .env ∨ handler = .hostname →
      wp (handler.run env toks t (toks.length - t))
        (fun v _ => 1 ≤ v ∧ (t : ℤ) + v ≤ toks.length) Stop.IsExit s :=
    fun h => (wp_string_value h hvalue).mono (fun v _ hv => by omega) fun _ he => he
  -- if it is no object, the handler exits, and nothing is to be shown of what it returns
  have hobject : handler = .net ∨ handler = .blk →
      (value.kind = .object → 2 * value.size + 1 ≤ toks.length - t) →
      wp (handler.run env toks t (toks.length - t))
        (fun v _ => 1 ≤ v ∧ (t : ℤ) + v ≤ toks.length) Stop.IsExit s := by
    intro h hroom
    by_cases hk : value.kind = .object
    · have := hroom hk
      exact (wp_object_value h hvalue (by omega) hroom).mono (fun v _ hv => by omega)
        fun _ he => he
    · rcases h with rfl | rfl
      · simp [Handler.run, handleNet, tokAt_of_some hvalue, hk, Stop.IsExit]
      · simp [Handler.run, handleBlk, tokAt_of_some hvalue, hk, Stop.IsExit]
  cases handler with
  | cmdline => exact hstring (.inl rfl)
  | env => exact hstring (.inr (.inl rfl))
  | hostname => exact hstring (.inr (.inr rfl))
  | net => exact hobject (.inl rfl) hfits
  | blk => exact hobject (.inr rfl) hfits
  | rc =>
    have hrc : wp (handleRc env toks t) (fun v _ => 1 ≤ v ∧ (t : ℤ) + v ≤ toks.length)
        (fun _ => True) s := wp_handleRc hsize
    exact (hrc.and ((handleRc_exits_iff hsize hvalue).mpr hfits)).mono (fun _ _ h => h.1) fun _ he => he.2

theorem iteration_key {key : Tok} (hkey : toks[t]? = some key)
    (hkind : key.kind = .string) (hselect : select s.mem key parsers = some handler) :
    iteration env toks t s = (handler.run env toks (t + 1) (toks.length - (t + 1)) >>= fun n =>
        pure ((t + 1 : ℕ) + n).toNat) s := by
  have hobject : ¬ key.kind = .object := by simp [hkind]
  rw [iteration, tokAt_of_some hkey, pure_bind, if_neg hobject,
    bind_of_ok (tChecktype_of_kind hkind), get_bind, hselect]

/-- **One round.**  It goes on and stays in the array, or exits, if and only if the key has a value
that fits. -/
theorem advances_iff (hsize : Sized toks)
    (ht : t < toks.length) : Advances env toks t s ↔ Complete env toks t s := by
  have hkey : toks[t]? = some (toks[t]) := List.getElem?_eq_getElem ht
  constructor
  · intro h key handler hkey hkind hselect
    have hiter : iteration env toks t s = _ := iteration_key hkey hkind hselect
    cases hvalue : toks[t + 1]? with
    | none =>
      rw [bind_of_error (run_beyond handler hvalue)] at hiter
      exact absurd (h.error hiter) id
    | some value =>
      refine ⟨value, rfl, ?_⟩
      -- the value of an object that does not fit brings back the key
      have hobject : handler = .net ∨ handler = .blk → value.kind = .object →
          2 * value.size + 1 ≤ toks.length - (t + 1) := by
        intro hh hk
        by_contra hshort
        rw [bind_of_ok (object_value_short hh hvalue hk (by omega))] at hiter
        have hnext := (h.ok hiter).1
        simp at hnext
      cases handler with
      | cmdline | env | hostname => trivial
      | net => exact hobject (.inl rfl)
      | blk => exact hobject (.inr rfl)
      | rc =>
        refine (handleRc_exits_iff hsize hvalue).mp ?_
        unfold wp
        split
        · trivial
        · next e he => exact h.error (hiter.trans (bind_of_error he))
  · intro h
    unfold Advances
    by_cases hobject : toks[t].kind = .object
    · rw [iteration, tokAt_of_some hkey, pure_bind, if_pos hobject]
      exact ⟨by omega, by omega⟩
    · by_cases hkind : toks[t].kind = .string
      · cases hselect : select s.mem toks[t] parsers with
        | none =>
          simp [iteration, tokAt_of_some hkey, hkind, hselect, Stop.IsExit]
        | some handler =>
          obtain ⟨value, hvalue, hfits⟩ := h _ _ hkey hkind hselect
          have hrun := wp_run hsize hvalue hfits
          have hnext : wp (handler.run env toks (t + 1) (toks.length - (t + 1)) >>= fun n =>
              pure ((t + 1 : ℕ) + n).toNat) (fun t' _ => t < t' ∧ t' ≤ toks.length)
              Stop.IsExit s := by
            rw [wp_bind]
            exact hrun.mono (fun v _ hv => by rw [wp_pure]; omega) fun _ he => he
          unfold wp at hnext ⊢
          rwa [iteration_key hkey hkind hselect]
      · simp [iteration, tokAt_of_some hkey, hobject, hkind, Stop.IsExit]

/-! ## The loop -/

/-- What the loop comes to. -/
def Visits (env : Env) (toks : List Tok) (s : State) : ℕ × State → Prop :=
  Relation.ReflTransGen
    (fun x y => x.1 < toks.length ∧ iteration env toks x.1 x.2 = .ok y) (0, s)

/-- It finishes, or exits with a message. -/
def Finishes (env : Env) (toks : List Tok) (t : ℕ) (s : State) : Prop :=
  ∃ fuel r, walk env toks fuel t s = some r ∧ ∀ e, r = .error e → e.IsExit

theorem walk_next {fuel : ℕ} {y : ℕ × State} (ht : t < toks.length)
    (h : iteration env toks t s = .ok y) :
    walk env toks (fuel + 1) t s = walk env toks fuel y.1 y.2 := by
  rw [walk, if_pos ht, h]

/-- From a state it comes to, it finishes as from the first. -/
theorem Finishes.visits {x : ℕ × State} (h : Finishes env toks 0 s) (hx : Visits env toks s x) :
    Finishes env toks x.1 x.2 := by
  induction hx with
  | refl => exact h
  | tail _ hstep ih =>
    obtain ⟨fuel, r, hr, hexit⟩ := ih
    cases fuel with
    | zero => cases hr
    | succ fuel =>
      rw [walk_next hstep.1 hstep.2] at hr
      exact ⟨fuel, r, hr, hexit⟩

/-- The induction is on the number of tokens ahead. -/
theorem finishes_of_advances
    (h : ∀ x, Visits env toks s x → x.1 < toks.length → Advances env toks x.1 x.2) :
    ∀ (n : ℕ) (x : ℕ × State), Visits env toks s x → toks.length - x.1 ≤ n →
      Finishes env toks x.1 x.2
  | 0, x, hx, hn => by
    refine ⟨1, .ok x.2, ?_, nofun⟩
    rw [walk, if_neg (by omega)]
  | n + 1, x, hx, hn => by
    by_cases hlt : x.1 < toks.length
    · have hadv := h x hx hlt
      cases hiter : iteration env toks x.1 x.2 with
      | error e =>
        refine ⟨1, .error e, ?_, fun e' he' => ?_⟩
        · rw [walk, if_pos hlt, hiter]
        · cases he'
          exact hadv.error hiter
      | ok y =>
        have hnext := hadv.ok hiter
        obtain ⟨fuel, r, hr, hexit⟩ := finishes_of_advances h n y (hx.tail ⟨hlt, hiter⟩) (by omega)
        exact ⟨fuel + 1, r, (walk_next hlt hiter).trans hr, hexit⟩
    · refine ⟨1, .ok x.2, ?_, nofun⟩
      rw [walk, if_neg hlt]

/-- **The walk.**  For the tokens of any text: the loop finishes or exits with a message, and each
round that does not exit takes at least one token and stays in the array, if and only if every key
it comes to has a value that fits. -/
theorem walk_advances_iff {num n : ℕ} {js : List UInt8} (env : Env) (s : State)
    (hparse : jsmnParse (some num) js = .ok (n, toks)) :
    (Finishes env toks 0 s ∧
        ∀ x, Visits env toks s x → x.1 < toks.length → ∀ y, iteration env toks x.1 x.2 = .ok y →
          x.1 < y.1 ∧ y.1 ≤ toks.length) ↔
      ∀ x, Visits env toks s x → x.1 < toks.length → Complete env toks x.1 x.2 := by
  obtain ⟨⟨pos, hlayout⟩, -⟩ := jsmnParse_layout hparse
  have hsize := hlayout.size
  constructor
  · rintro ⟨hfin, hadv⟩ x hx hlt
    rw [← advances_iff hsize hlt]
    cases hiter : iteration env toks x.1 x.2 with
    | ok y => exact wp_of_ok hiter (hadv x hx hlt y hiter)
    | error e =>
        obtain ⟨fuel, r, hr, hexit⟩ := hfin.visits hx
        cases fuel with
        | zero => cases hr
        | succ fuel =>
            rw [walk, if_pos hlt, hiter] at hr
            cases hr
            unfold Advances wp
            rw [hiter]
            exact hexit e rfl
  · intro h
    have hadv : ∀ x, Visits env toks s x → x.1 < toks.length → Advances env toks x.1 x.2 :=
      fun x hx hlt => (advances_iff hsize hlt).mpr (h x hx hlt)
    exact ⟨finishes_of_advances hadv toks.length (0, s) .refl (Nat.sub_le _ _),
      fun x hx hlt y hiter => (hadv x hx hlt).ok hiter⟩

/-- Where a value does not fit its handler, the loop comes back to the key for ever. -/
theorem short_object_spins {key value : Tok} (hkey : toks[t]? = some key)
    (hkind : key.kind = .string) (hselect : select s.mem key parsers = some handler)
    (hh : handler = .net ∨ handler = .blk) (hvalue : toks[t + 1]? = some value)
    (hobject : value.kind = .object) (hshort : toks.length - (t + 1) < 2 * value.size + 1) :
    ∀ fuel, walk env toks fuel t s = none
  | 0 => rfl
  | fuel + 1 => by
    have hiter : iteration env toks t s = .ok (t, s) := by
      rw [iteration_key hkey hkind hselect,
        bind_of_ok (object_value_short hh hvalue hobject hshort)]
      have hback : (((t + 1 : ℕ) : ℤ) + -1).toNat = t := by omega
      rw [hback]
      rfl
    rw [walk_next (List.getElem?_eq_some_iff.mp hkey).1 hiter]
    exact short_object_spins hkey hkind hselect hh hvalue hobject hshort fuel

end

def hostText : List UInt8 := bytes "\x7b\"hostname\":\"a\"\x7d"

def hostToks : List Tok := [⟨.object, 0, some 16, 1⟩, ⟨.string, 2, some 10, 1⟩, ⟨.string, 13, some 14, 0⟩]

/-- For `{"hostname":"a"}` the loop ends. -/
theorem walk_advances_host : Finishes allWell hostToks 0 ⟨ofList hostText, [], 0, []⟩ := by
  have hparse : jsmnParse (some 3) hostText = .ok (3, hostToks) := by decide +kernel
  refine ((walk_advances_iff allWell ⟨ofList hostText, [], 0, []⟩ hparse).mpr ?_).1
  -- it comes to the object and to the key, and from there to the end
  have hvisits : ∀ x, Visits allWell hostToks ⟨ofList hostText, [], 0, []⟩ x →
      x = (0, ⟨ofList hostText, [], 0, []⟩) ∨ x = (1, ⟨ofList hostText, [], 0, []⟩) ∨ x.1 = 3 := by
    intro x hx
    induction hx with
    | refl => exact .inl rfl
    | tail _ hstep ih =>
        obtain ⟨hlt, hiter⟩ := hstep
        rcases ih with rfl | rfl | hend
        · exact .inr (.inl (Except.ok.inj hiter).symm)
        · cases hiter
          exact .inr (.inr rfl)
        · have : hostToks.length = 3 := rfl
          omega
  intro x hx hlt key handler hkey hkind _
  rcases hvisits x hx with rfl | rfl | hend
  · cases hkey
    cases hkind
  · refine ⟨⟨.string, 13, some 14, 0⟩, rfl, ?_⟩
    cases handler with
    | cmdline | env | hostname => trivial
    | net | blk | rc => exact nofun
  · have : hostToks.length = 3 := rfl
    omega

def netText : List UInt8 := bytes "\x7b\"net\":\x7b\"a\" \"b\"\x7d\x7d"

def netToks : List Tok :=
  [⟨.object, 0, some 17, 1⟩, ⟨.string, 2, some 5, 1⟩, ⟨.object, 7, some 16, 2⟩,
    ⟨.string, 9, some 10, 0⟩, ⟨.string, 13, some 14, 0⟩]

/-- For `{"net":{"a" "b"}}` it does not: the object is said to have two keys, and there are two tokens
behind it. -/
theorem net_spins :
    jsmnParse (some 5) netText = .ok (5, netToks) ∧
      ∀ fuel, walk allWell netToks fuel 0 ⟨ofList netText, [], 0, []⟩ = none := by
  refine ⟨by decide +kernel, fun fuel => ?_⟩
  cases fuel with
  | zero => rfl
  | succ fuel =>
      have hselect : select (ofList netText) ⟨.string, 2, some 5, 1⟩ parsers = some .net := by
        decide +kernel
      exact short_object_spins rfl rfl hselect (.inl rfl) rfl rfl (by decide) fuel

end Librettos.Config
