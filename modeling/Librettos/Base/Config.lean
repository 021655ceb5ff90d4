/-
# `Base.Config` — the configuration

`rumprun_config` and its handlers (`config.c`).  The tokens of the text are gone through once; a
string is a key, and the handler for the key says how many tokens its value has.  A handler either
returns or exits with a message.  Two more ways to stop are in the code without being meant: to look
at a token behind the array, and to follow the null pointer `t_argv`.

Addresses are offsets from `data`.  What the rest of the system answers to a call is an argument
(`Env`) and may depend on everything that has happened.  A negative answer of a call that sets
`errno` is `-errno`.
-/
import Librettos.Base.Jsmn
import Librettos.Base.Makeargv

namespace Librettos.Config

open Bytes Jsmn Makeargv Wp

def bytes (s : String) : List UInt8 := s.toList.map fun c => UInt8.ofNat c.toNat

/-- Calls to the rest of the system.  Strings in `data` are their bytes when the call is made. -/
inductive Call
  | malloc (slots : ℕ)
  | strdup (str : List UInt8)
  | free
  | putenv (str : ℕ)
  | sethostname (name len : ℕ)
  | dhcp (ifname : List UInt8)
  | ifaddrCidr (ifname addr mask : List UInt8)
  | gw4 (gw : List UInt8)
  | auto6 (ifname : List UInt8)
  | ifaddr6 (ifname addr mask : List UInt8)
  | gw6 (gw : List UInt8)
  | ifcreate (ifname : List UInt8)
  | openDev (path : List UInt8)
  | stat (path : List UInt8)
  | mknod (path : List UInt8)
  | vndset (path : List UInt8)
  | close
  | etfsRegister (key hostpath : List UInt8)
  | mkdir (path : List UInt8)
  | mount (fs dev mp : List UInt8)
deriving DecidableEq, Repr

structure State where
  mem : Mem
  execs : List Exec
  nextvnd : ℕ
  calls : List Call

/-- The rest of the system. -/
structure Env where
  answer : State → Call → ℤ
  /-- `RAW_PART`, as a character -/
  rawPart : UInt8

/-- How the code can stop other than by returning. -/
inductive Stop
  /-- `err` or `errx`, with the strings among the arguments of the message -/
  | exit (format : String) (args : List (List UInt8))
  /-- a token behind the array -/
  | beyond (i : ℕ)
  | null
  /-- a loop that has not ended after as many rounds as the string has bytes -/
  | spin
deriving DecidableEq, Repr

abbrev M : Type → Type := Run State Stop

def Stop.IsExit : Stop → Prop
  | .exit _ _ => True
  | _ => False

instance (e : Stop) : Decidable e.IsExit :=
  match e with
  | .exit _ _ => isTrue trivial
  | .beyond _ => isFalse id
  | .null => isFalse id
  | .spin => isFalse id

def errx {α : Type} (format : String) (args : List (List UInt8)) : M α := stop (.exit format args)

/-- `if (!c) errx(…)` -/
def orElse (c : Bool) (format : String) (args : List (List UInt8)) : M Unit :=
  if c then pure () else errx format args

def ask (env : Env) (call : Call) : M ℤ := fun s =>
  .ok (env.answer s call, { s with calls := call :: s.calls })

/-! ## Tokens -/

def tokAt (toks : List Tok) (i : ℕ) : M Tok :=
  match toks[i]? with
  | some t => pure t
  | none => stop (.beyond i)

/-- `T_SIZE` -/
def tSize (t : Tok) : ℕ := t.stop.getD 0 - t.start

/-- The `%.*s` of a message. -/
def tText (mem : Mem) (t : Tok) : List UInt8 := (List.range (tSize t)).map fun i => mem (t.start + i)

/-- The string that `token2cstr` has made of a token. -/
def tStr (mem : Mem) (t : Tok) : List UInt8 := (tText mem t).takeWhile (· ≠ 0)

/-- `T_STREQ` -/
def tStreq (mem : Mem) (t : Tok) (name : List UInt8) : Bool := strncmpEq mem t.start name (tSize t)

/-- `T_CHECKTYPE` -/
def tChecktype (t : Tok) (kind : Kind) (func : String) : M Unit := do
  let s ← get
  orElse (t.kind = kind) "unexpected type for token \"%.*s\" in \"%s\"" [tText s.mem t, bytes func]

/-- `T_CHECKSIZE` -/
def tChecksize (t : Tok) (size : ℕ) (func : String) : M Unit := do
  let s ← get
  orElse (t.size = size) "unexpected size for token \"%.*s\" in \"%s\"" [tText s.mem t, bytes func]

def token2cstr (t : Tok) : M ℕ := do
  modify fun s => { s with mem := Function.update s.mem (t.start + tSize t) 0 }
  pure t.start

/-- A chain of `if (T_STREQ(…)) … else if …`, or the loop over `parsers`: the first name that
compares equal. -/
def select {κ : Type} (mem : Mem) (t : Tok) (names : List (List UInt8 × κ)) : Option κ :=
  (names.find? fun e => tStreq mem t e.1).map (·.2)

/-- `select`, with the message for a key that is none of the names -/
def selectKey {κ : Type} (t : Tok) (names : List (List UInt8 × κ)) (func : String) : M κ := do
  let s ← get
  match select s.mem t names with
  | some k => pure k
  | none => errx "unexpected key \"%.*s\" in \"%s\"" [tText s.mem t, bytes func]

section
variable {α κ : Type} {env : Env} {toks : List Tok} {t : Tok} {i : ℕ} {s : State} {E : Stop → Prop}
variable {Q : Unit → State → Prop} {func format : String}

@[simp] theorem wp_errx {Q : α → State → Prop} {args : List (List UInt8)} :
    wp (errx format args) Q E s ↔ E (.exit format args) := Iff.rfl

@[simp] theorem wp_orElse {c : Bool} {args : List (List UInt8)} : wp (orElse c format args) Q E s ↔
      (c = true → Q () s) ∧ (c = false → E (.exit format args)) := by
  cases c <;> simp [orElse]

@[simp] theorem wp_ask {Q : ℤ → State → Prop} {call : Call} :
    wp (ask env call) Q E s ↔ Q (env.answer s call) { s with calls := call :: s.calls } := Iff.rfl

theorem tokAt_of_some (h : toks[i]? = some t) : tokAt toks i = pure t := by
  rw [tokAt, h]

theorem tokAt_of_none (h : toks[i]? = none) : tokAt toks i = stop (.beyond i) := by
  rw [tokAt, h]

@[simp] theorem wp_tokAt {Q : Tok → State → Prop} :
    wp (tokAt toks i) Q E s ↔
      (∀ t, toks[i]? = some t → Q t s) ∧ (toks[i]? = none → E (.beyond i)) := by
  cases h : toks[i]? with
  | none => simp [tokAt_of_none h]
  | some t => simp [tokAt_of_some h]

@[simp] theorem wp_tChecktype {kind : Kind} : wp (tChecktype t kind func) Q E s ↔
      (t.kind = kind → Q () s) ∧ (t.kind ≠ kind →
        E (.exit "unexpected type for token \"%.*s\" in \"%s\"" [tText s.mem t, bytes func])) := by
  simp [tChecktype]

theorem tChecktype_of_kind {kind : Kind} (h : t.kind = kind) :
    tChecktype t kind func s = .ok ((), s) := by
  rw [tChecktype, get_bind, orElse, if_pos (decide_eq_true h)]
  rfl

@[simp] theorem wp_tChecksize {size : ℕ} : wp (tChecksize t size func) Q E s ↔
      (t.size = size → Q () s) ∧ (t.size ≠ size →
        E (.exit "unexpected size for token \"%.*s\" in \"%s\"" [tText s.mem t, bytes func])) := by
  simp [tChecksize]

@[simp] theorem wp_token2cstr {Q : ℕ → State → Prop} :
    wp (token2cstr t) Q E s ↔
      Q t.start { s with mem := Function.update s.mem (t.start + tSize t) 0 } := Iff.rfl

@[simp] theorem wp_selectKey {Q : κ → State → Prop} {names : List (List UInt8 × κ)} :
    wp (selectKey t names func) Q E s ↔
      (∀ k, select s.mem t names = some k → Q k s) ∧ (select s.mem t names = none →
        E (.exit "unexpected key \"%.*s\" in \"%s\"" [tText s.mem t, bytes func])) := by
  rw [selectKey, wp_bind, wp_get]
  cases select s.mem t names <;> simp

end

/-! ## `cmdline`, `env`, `hostname` -/

/-- `makeargv`, on the string of a token -/
def makeargvOf (env : Env) (t : Tok) : M Unit := do
  let s ← get
  match Parseargs.rumprunParseargs (tSize t + 1) s.mem t.start false with
  | none => stop .spin
  | some count => do
      let p ← ask env (.malloc (count.nargs + 1))
      match makeargv (tSize t + 1) (p ≠ 0) s.mem t.start s.execs with
      | none => stop .spin
      | some (.error e) => errx e []
      | some (.ok (mem, execs)) => modify fun s => { s with mem := mem, execs := execs }

def handleCmdline (env : Env) (toks : List Tok) (t : ℕ) : M ℤ := do
  let tok ← tokAt toks t
  tChecktype tok .string "handle_cmdline"
  let _ ← token2cstr tok
  makeargvOf env tok
  pure 1

def handleEnv (env : Env) (toks : List Tok) (t : ℕ) : M ℤ := do
  let tok ← tokAt toks t
  tChecktype tok .string "handle_env"
  let str ← token2cstr tok
  let rv ← ask env (.putenv str)
  orElse (0 ≤ rv) "putenv" []
  pure 1

def handleHostname (env : Env) (toks : List Tok) (t : ℕ) : M ℤ := do
  let tok ← tokAt toks t
  tChecktype tok .string "handle_hostname"
  let str ← token2cstr tok
  let rv ← ask env (.sethostname str (tSize tok))
  orElse (0 ≤ rv) "sethostname" []
  pure 1

/-! ## `rc_TESTING` -/

inductive BinKey
  | bin
  | argv
  | runmode
deriving DecidableEq, Repr

def binKeys : List (List UInt8 × BinKey) :=
  [(bytes "bin", .bin), (bytes "argv", .argv), (bytes "runmode", .runmode)]

/-- `t_bin`, `t_argv` with its index, and `t_runmode` -/
structure Bin where
  bin : Option Tok
  argv : Option (ℕ × Tok)
  runmode : Option Tok
deriving DecidableEq, Repr

/-- One round of the loop in `addbin`: `mysize`, and what the key has set -/
def addbinField (toks : List Tok) (t : ℕ) (b : Bin) : M (ℕ × Bin) := do
  let key ← tokAt toks t
  tChecktype key .string "addbin"
  let k ← selectKey key binKeys "addbin"
  match k with
  | .bin => do
      tChecksize key 1 "addbin"
      let value ← tokAt toks (t + 1)
      tChecktype value .string "addbin"
      tChecksize value 0 "addbin"
      pure (2, { b with bin := some value })
  | .argv => do
      let value ← tokAt toks (t + 1)
      tChecktype value .array "addbin"
      pure (2 + value.size, { b with argv := some (t + 1, value) })
  | .runmode => do
      tChecksize key 1 "addbin"
      let value ← tokAt toks (t + 1)
      tChecktype value .string "addbin"
      tChecksize value 0 "addbin"
      pure (2, { b with runmode := some value })

/-- `while (objleft--)`; the first result is `binsize`. -/
def addbinFields (toks : List Tok) : ℕ → ℕ → ℕ → Bin → M (ℕ × Bin)
  | 0, _, binsize, b => pure (binsize, b)
  | objleft + 1, t, binsize, b => do
      let (mysize, b) ← addbinField toks t b
      addbinFields toks objleft (t + mysize) (binsize + mysize) b

/-- `rreflags` -/
def rreflags (bin : Tok) (runmode : Option Tok) : M Flags := do
  let s ← get
  match runmode with
  | none => pure .zero
  | some r =>
    if tSize r = 1 ∧ s.mem r.start = 38 then pure .background
    else if tSize r = 1 ∧ s.mem r.start = 124 then pure .pipe
    else errx "invalid runmode \"%.*s\" for bin \"%.*s\"" [tText s.mem r, tText s.mem bin]

/-- The loop over the elements of `argv`. -/
def argvStrings (toks : List Tok) : ℕ → ℕ → M (List ℕ)
  | 0, _ => pure []
  | n + 1, t => do
      let tok ← tokAt toks t
      tChecktype tok .string "addbin"
      let str ← token2cstr tok
      let strs ← argvStrings toks n (t + 1)
      pure (str :: strs)

/-- The second half of `addbin`. -/
def saveExec (env : Env) (toks : List Tok) (b : Bin) : M Unit := do
  match b.bin with
  | none => errx "missing \"bin\" for rc entry" []
  | some bin => do
      let binname ← token2cstr bin
      let flags ← rreflags bin b.runmode
      match b.argv with
      -- `t_argv->size`
      | none => stop .null
      | some (i, argv) => do
          let rre ← ask env (.malloc (2 + argv.size))
          orElse (rre ≠ 0) "allocate rumprun_exec" []
          let strs ← argvStrings toks argv.size (i + 1)
          modify fun s =>
            { s with
              execs := s.execs ++ [⟨flags, 1 + argv.size, some binname :: strs.map some ++ [none]⟩] }

def addbin (env : Env) (toks : List Tok) (t : ℕ) : M ℕ := do
  let tok ← tokAt toks t
  tChecktype tok .object "addbin"
  let (binsize, b) ← addbinFields toks tok.size (t + 1) 1 ⟨none, none, none⟩
  saveExec env toks b
  pure binsize

/-- `for (…; rem; rem--)`; the result is `totsize`. -/
def addbins (env : Env) (toks : List Tok) : ℕ → ℕ → ℕ → M ℕ
  | 0, _, totsize => pure totsize
  | rem + 1, t, totsize => do
      let onesize ← addbin env toks t
      addbins env toks rem (t + onesize) (totsize + onesize)

def handleRc (env : Env) (toks : List Tok) (t : ℕ) : M ℤ := do
  let tok ← tokAt toks t
  tChecktype tok .array "handle_rc"
  let totsize ← addbins env toks tok.size (t + 1) 1
  pure totsize

/-! ## `net` -/

/-- The loop over straight key-value pairs, in `handle_net` and in `handle_blk`. -/
def pairs {κ β : Type} (toks : List Tok) (names : List (List UInt8 × κ)) (set : κ → Tok → β → β)
    (func : String) : ℕ → ℕ → β → M β
  | 0, _, b => pure b
  | n + 1, t, b => do
      let key ← tokAt toks t
      tChecktype key .string func
      tChecksize key 1 func
      let value ← tokAt toks (t + 1)
      tChecktype value .string func
      tChecksize value 0 func
      let _ ← token2cstr value
      let k ← selectKey key names func
      pairs toks names set func n (t + 2) (set k value b)

inductive NetKey
  | ifname
  | cloner
  | type
  | method
  | addr
  | mask
  | gw
deriving DecidableEq, Repr

def netKeys : List (List UInt8 × NetKey) :=
  [(bytes "if", .ifname), (bytes "cloner", .cloner), (bytes "type", .type),
    (bytes "method", .method), (bytes "addr", .addr), (bytes "mask", .mask), (bytes "gw", .gw)]

structure Net where
  ifname : Option Tok
  cloner : Option Tok
  type : Option Tok
  method : Option Tok
  addr : Option Tok
  mask : Option Tok
  gw : Option Tok
deriving DecidableEq, Repr

def Net.set : NetKey → Tok → Net → Net
  | .ifname, t, b => { b with ifname := some t }
  | .cloner, t, b => { b with cloner := some t }
  | .type, t, b => { b with type := some t }
  | .method, t, b => { b with method := some t }
  | .addr, t, b => { b with addr := some t }
  | .mask, t, b => { b with mask := some t }
  | .gw, t, b => { b with gw := some t }

/-- `method "static"`, the same in `config_ipv4` and `config_ipv6` but for the calls -/
def configStatic (env : Env) (ifname method : Tok) (addr mask gw : Option Tok)
    (ifaddr : List UInt8 → List UInt8 → List UInt8 → Call) (gateway : List UInt8 → Call) :
    M Unit := do
  let s ← get
  orElse (tStr s.mem method = bytes "static")
    "method \"static\" or \"dhcp\" expected, got \"%s\"" [tStr s.mem method]
  match addr, mask with
  | some addr, some mask => do
      let rv ← ask env (ifaddr (tStr s.mem ifname) (tStr s.mem addr) (tStr s.mem mask))
      orElse (rv = 0) "ifconfig \"%s\" for \"%s/%s\" failed"
        [tStr s.mem ifname, tStr s.mem addr, tStr s.mem mask]
      match gw with
      | none => pure ()
      | some gw => do
          let rv ← ask env (gateway (tStr s.mem gw))
          orElse (rv = 0) "gw \"%s\" addition failed" [tStr s.mem gw]
  | _, _ => errx "static net cfg missing addr or mask" []

def configIpv4 (env : Env) (ifname method : Tok) (addr mask gw : Option Tok) : M Unit := do
  let s ← get
  if tStr s.mem method = bytes "dhcp" then
    let rv ← ask env (.dhcp (tStr s.mem ifname))
    orElse (rv = 0) "configuring dhcp for %s failed: %d" [tStr s.mem ifname]
  else configStatic env ifname method addr mask gw .ifaddrCidr .gw4

def configIpv6 (env : Env) (ifname method : Tok) (addr mask gw : Option Tok) : M Unit := do
  let s ← get
  if tStr s.mem method = bytes "auto" then
    let rv ← ask env (.auto6 (tStr s.mem ifname))
    orElse (rv = 0) "ipv6 autoconfig failed" []
  else configStatic env ifname method addr mask gw .ifaddr6 .gw6

/-- `if (cloner)` -/
def cloneIf (env : Env) (cloner : Option Tok) (ifname : List UInt8) : M Unit :=
  match cloner with
  | none => pure ()
  | some _ => do
      let rv ← ask env (.ifcreate ifname)
      orElse (rv = 0) "rumprun_config: ifcreate %s failed: %d" [ifname]

/-- `handle_net` from behind the loop. -/
def configNet (env : Env) (b : Net) : M Unit := do
  match b.ifname, b.type, b.method with
  | some ifname, some type, some method => do
      let s ← get
      cloneIf env b.cloner (tStr s.mem ifname)
      if tStr s.mem type = bytes "inet" then
        configIpv4 env ifname method b.addr b.mask b.gw
      else if tStr s.mem type = bytes "inet6" then
        configIpv6 env ifname method b.addr b.mask b.gw
      else errx "network type \"%s\" not supported" [tStr s.mem type]
  | _, _, _ => errx "net cfg missing vital data, not configuring" []

/-- `configured` is never set, so that its test is left out. -/
def handleNet (env : Env) (toks : List Tok) (t left : ℕ) : M ℤ := do
  let tok ← tokAt toks t
  tChecktype tok .object "handle_net"
  if left < 2 * tok.size + 1 then pure (-1)
  else do
    let b ← pairs toks netKeys Net.set "handle_net" tok.size (t + 1)
      ⟨none, none, none, none, none, none, none⟩
    configNet env b
    pure (2 * tok.size + 1)

/-! ## `blk` -/

inductive BlkKey
  | source
  | path
  | fstype
  | mountpoint
deriving DecidableEq, Repr

def blkKeys : List (List UInt8 × BlkKey) :=
  [(bytes "source", .source), (bytes "path", .path), (bytes "fstype", .fstype),
    (bytes "mountpoint", .mountpoint)]

structure Blk where
  source : Option Tok
  path : Option Tok
  fstype : Option Tok
  mp : Option Tok
deriving DecidableEq, Repr

def Blk.set : BlkKey → Tok → Blk → Blk
  | .source, t, b => { b with source := some t }
  | .path, t, b => { b with path := some t }
  | .fstype, t, b => { b with fstype := some t }
  | .mountpoint, t, b => { b with mp := some t }

/-- `snprintf` into 32 bytes -/
def snprintf32 (str : List UInt8) : List UInt8 := str.take 31

def makevnddev (env : Env) (israw : Bool) (unit : ℕ) : List UInt8 :=
  snprintf32 (bytes "/dev/" ++ (if israw then bytes "r" else []) ++ bytes "vnd" ++
    bytes (toString unit) ++ [env.rawPart])

def getvndmajor (env : Env) (israw : Bool) : M Unit := do
  let rv ← ask env (.stat (makevnddev env israw 0))
  orElse (0 ≤ rv) "failed to stat %s" [makevnddev env israw 0]

def enoent : ℤ := 2

def eexist : ℤ := 17

/-- Opening the device; if it does not exist, its nodes are made. -/
def openVnd (env : Env) (bbuf rbuf : List UInt8) : M ℤ := do
  let fd ← ask env (.openDev rbuf)
  if fd = -enoent then
    getvndmajor env false
    getvndmajor env true
    let rv ← ask env (.mknod bbuf)
    orElse (0 ≤ rv) "mknod %s" [bbuf]
    let rv ← ask env (.mknod rbuf)
    orElse (0 ≤ rv) "mknod %s" [rbuf]
    ask env (.openDev rbuf)
  else pure fd

def configvnd (env : Env) (path : List UInt8) : M (List UInt8) := do
  let s ← get
  let bbuf := makevnddev env false s.nextvnd
  let rbuf := makevnddev env true s.nextvnd
  let fd ← openVnd env bbuf rbuf
  orElse (0 ≤ fd) "cannot open %s" [rbuf]
  let rv ← ask env (.vndset path)
  orElse (0 ≤ rv) "vndset failed" []
  let _ ← ask env .close
  modify fun s => { s with nextvnd := s.nextvnd + 1 }
  let _ ← ask env (.strdup bbuf)
  pure bbuf

/-- `configetfs(path, 1)` -/
def configetfs (env : Env) (path : List UInt8) : M (List UInt8) := do
  let buf := snprintf32 (bytes "/dev/" ++ path)
  let rv ← ask env (.etfsRegister buf (snprintf32 (bytes "XENBLK_" ++ path)))
  orElse (rv = 0) "etfs register for \"%s\" failed: %d" [path]
  let p ← ask env (.strdup buf)
  orElse (p ≠ 0) "failed to allocate pathbuf" []
  pure buf

/-- Where the chunks of a path end: the lengths that the loop over `chunk` cuts it to.  `inName` is
whether there is a name since the last slash. -/
def chunkEnds : ℕ → Bool → List UInt8 → List ℕ
  | pos, _, [] => [pos]
  | pos, inName, c :: path =>
    if c = 47 then
      if inName then pos :: chunkEnds (pos + 1) false path else chunkEnds (pos + 1) false path
    else chunkEnds (pos + 1) true path

/-- The loop over `chunk`; a path that was cut is put together again. -/
def mkdirs (env : Env) (mp : List UInt8) : List ℕ → M Unit
  | [] => pure ()
  | n :: ends => do
      let rv ← ask env (.mkdir (mp.take n))
      orElse (0 ≤ rv ∨ rv = -eexist) "failed to create mp dir \"%s\"" [[]]
      mkdirs env mp ends

/-- One `mount` after the other, until one succeeds. -/
def mountAny (env : Env) (dev mp : List UInt8) : List (List UInt8) → M Bool
  | [] => pure false
  | fs :: rest => do
      let rv ← ask env (.mount fs dev mp)
      if rv = 0 then pure true else mountAny env dev mp rest

inductive Mounter
  | blk
  | kernfs
deriving DecidableEq, Repr

def mounters : List (List UInt8 × Mounter) := [(bytes "blk", .blk), (bytes "kernfs", .kernfs)]

/-- `mount_blk` and `mount_kernfs` -/
def Mounter.mount (env : Env) (dev mp : List UInt8) : Mounter → M Bool
  | .blk => mountAny env dev mp [bytes "ffs", bytes "ext2fs", bytes "cd9660"]
  | .kernfs => mountAny env dev mp [bytes "kernfs"]

/-- `path`, as the source makes it -/
def blkPath (env : Env) (source path : List UInt8) : M (List UInt8) :=
  if source = bytes "dev" then pure path
  else if source = bytes "vnd" then configvnd env path
  else if source = bytes "etfs" then configetfs env path
  else errx "unsupported blk source \"%s\"" [source]

/-- `if (mp)` -/
def mountAt (env : Env) (path : List UInt8) (mp fstype : Option Tok) : M Unit := do
  let s ← get
  match mp.map (tStr s.mem), fstype.map (tStr s.mem) with
  | none, _ => pure ()
  | some mp, none => errx "no fstype for mountpoint \"%s\"\n" [mp]
  | some mp, some fstype => do
      mkdirs env mp (chunkEnds 0 false mp)
      match (mounters.find? fun e => fstype = e.1).map (·.2) with
      | none => errx "unknown fstype \"%s\"" [fstype]
      | some mounter => do
          let ok ← mounter.mount env path mp
          orElse ok "failed to mount fs type \"%s\" from \"%s\" to \"%s\"" [fstype, path, mp]

/-- `handle_blk` from behind the loop. -/
def configBlk (env : Env) (b : Blk) : M Unit := do
  match b.source, b.path with
  | some source, some origpath => do
      let s ← get
      let source := tStr s.mem source
      let path ← blkPath env source (tStr s.mem origpath)
      mountAt env path b.mp b.fstype
      if source = bytes "dev" then pure ()
      else do
        let _ ← ask env .free
        pure ()
  | _, _ => errx "blk cfg missing vital data" []

def handleBlk (env : Env) (toks : List Tok) (t left : ℕ) : M ℤ := do
  let tok ← tokAt toks t
  tChecktype tok .object "handle_blk"
  if left < 2 * tok.size + 1 then pure (-1)
  else do
    let b ← pairs toks blkKeys Blk.set "handle_blk" tok.size (t + 1) ⟨none, none, none, none⟩
    configBlk env b
    pure (2 * tok.size + 1)

/-! ## The walk over the tokens -/

inductive Handler
  | cmdline
  | rc
  | env
  | hostname
  | blk
  | net
deriving DecidableEq, Repr

def parsers : List (List UInt8 × Handler) :=
  [(bytes "cmdline", .cmdline), (bytes "rc_TESTING", .rc), (bytes "env", .env),
    (bytes "hostname", .hostname), (bytes "blk", .blk), (bytes "net", .net)]

def Handler.run (env : Env) (toks : List Tok) (t left : ℕ) : Handler → M ℤ
  | .cmdline => handleCmdline env toks t
  | .rc => handleRc env toks t
  | .env => handleEnv env toks t
  | .hostname => handleHostname env toks t
  | .blk => handleBlk env toks t left
  | .net => handleNet env toks t left

/-- One round of the loop: the next `t` -/
def iteration (env : Env) (toks : List Tok) (t : ℕ) : M ℕ := do
  let tok ← tokAt toks t
  if tok.kind = .object then pure (t + 1)
  else do
    tChecktype tok .string "rumprun_config"
    let s ← get
    match select s.mem tok parsers with
    | none => errx "no match for key \"%.*s\"" [tText s.mem tok]
    | some handler => do
        let n ← handler.run env toks (t + 1) (toks.length - (t + 1))
        pure ((t + 1 : ℕ) + n).toNat

/-- The loop, for at most so many rounds. -/
def walk (env : Env) (toks : List Tok) : ℕ → ℕ → State → Option (Except Stop State)
  | 0, _, _ => none
  | fuel + 1, t, s =>
    if t < toks.length then
      match iteration env toks t s with
      | .error e => some (.error e)
      | .ok (t', s') => walk env toks fuel t' s'
    else some (.ok s)

/-- The checks at the end of `rumprun_config`. -/
def lastBin (s : State) : Except Stop State :=
  match s.execs.getLast? with
  | none => .error (.exit "rumprun_config: no bins" [])
  | some rre =>
    if rre.flags = .pipe then
      .error (.exit "rumprun_config: last bin may not output to pipe" [])
    else .ok s

/-- `rumprun_config` for a text that begins with a brace -/
def configFrom (env : Env) (fuel : ℕ) (js : List UInt8) : Option (Except Stop State) :=
  let s : State := ⟨ofList js, [], 0, []⟩
  match jsmnParse none js with
  | .error _ | .ok (0, _) => some (.error (.exit "json parse failed 1" []))
  | .ok (ntok, _) =>
    if env.answer s (.malloc ntok) = 0 then
      some (.error (.exit "failed to allocate jsmn tokens" []))
    else
      match jsmnParse (some ntok) js with
      | .error _ | .ok (0, _) => some (.error (.exit "json parse failed 2" []))
      | .ok (_, toks) =>
        match (tokAt toks 0 >>= fun t => tChecktype t .object "rumprun_config") s with
        | .error e => some (.error e)
        | .ok (_, s) => (walk env toks fuel 0 s).map fun r => r.bind lastBin

/-- `rumprun_config` on a command line without a file name in it -/
def rumprunConfig (env : Env) (fuel : ℕ) (cmdline : List UInt8) : Option (Except Stop State) :=
  match cmdline.dropWhile (· ≠ 123) with
  | [] =>
    -- no configuration: the only program has no arguments
    let name := bytes "rumprun"
    let s : State := ⟨ofList name, [], 0, []⟩
    match makeargvOf env ⟨.string, 0, some name.length, 0⟩ s with
    | .error e => some (.error e)
    | .ok (_, s) => some (.ok s)
  | js => configFrom env fuel js

/-! ## Keys

A key is compared over its own length, so a prefix of a name is taken for the name. -/

/-- What belongs to the name that is the key. -/
def equalName {κ : Type} (names : List (List UInt8 × κ)) (key : List UInt8) : Option κ :=
  (names.find? fun e => key = e.1).map (·.2)

section
variable {κ : Type} {names : List (List UInt8 × κ)} {m : Mem} {t : Tok} {key : List UInt8}

theorem tStreq_iff (htext : Text m t.start key) (h0 : 0 ∉ key) (hsize : tSize t = key.length)
    (name : List UInt8) : tStreq m t name = true ↔ key <+: name := by
  rw [tStreq, hsize]
  exact strncmpEq_iff htext h0

/-- In a table where no name begins another. -/
theorem select_exact_iff (htext : Text m t.start key) (h0 : 0 ∉ key)
    (hsize : tSize t = key.length) (hfree : ∀ e ∈ names, ∀ e' ∈ names, e.1 <+: e'.1 → e.1 = e'.1) :
    select m t names = equalName names key ↔ ∀ e ∈ names, key <+: e.1 → key = e.1 := by
  constructor
  · intro heq e he hprefix
    -- some name is selected, so there is one that is the key
    have hsome : (select m t names).isSome := by
      rw [select, Option.isSome_map, List.find?_isSome]
      exact ⟨e, he, (tStreq_iff htext h0 hsize e.1).mpr hprefix⟩
    rw [heq, equalName, Option.isSome_map, List.find?_isSome] at hsome
    obtain ⟨e', he', hkey⟩ := hsome
    have hkey : key = e'.1 := of_decide_eq_true hkey
    rw [hkey] at hprefix ⊢
    exact hfree e' he' e he hprefix
  · intro h
    have hsame : ∀ e ∈ names, tStreq m t e.1 = decide (key = e.1) := by
      intro e he
      rw [Bool.eq_iff_iff, tStreq_iff htext h0 hsize, decide_eq_true_iff]
      exact ⟨h e he, fun hkey => hkey ▸ List.prefix_rfl⟩
    rw [select, equalName, List.find?_congr hsame]

/-- **Keys.**  In each table the name that is selected for a key is the one equal to it, and none if
there is none, if and only if the key is not a proper prefix of a name of the table. -/
theorem keys_match_exactly_iff (htext : Text m t.start key) (h0 : 0 ∉ key)
    (hsize : tSize t = key.length) :
    (select m t parsers = equalName parsers key ↔ ∀ e ∈ parsers, key <+: e.1 → key = e.1) ∧
      (select m t binKeys = equalName binKeys key ↔ ∀ e ∈ binKeys, key <+: e.1 → key = e.1) ∧
      (select m t netKeys = equalName netKeys key ↔ ∀ e ∈ netKeys, key <+: e.1 → key = e.1) ∧
      (select m t blkKeys = equalName blkKeys key ↔ ∀ e ∈ blkKeys, key <+: e.1 → key = e.1) :=
  ⟨select_exact_iff htext h0 hsize (by decide), select_exact_iff htext h0 hsize (by decide),
    select_exact_iff htext h0 hsize (by decide), select_exact_iff htext h0 hsize (by decide)⟩

end

/-- The key `env`, which is a name, and in another table begins none. -/
theorem keys_match_exactly_env :
    select (ofList (bytes "env")) ⟨.string, 0, some 3, 1⟩ parsers = some .env ∧
      select (ofList (bytes "env")) ⟨.string, 0, some 3, 1⟩ netKeys = none := by
  have htext : Text (ofList (bytes "env")) 0 (bytes "env") := by decide
  have h := keys_match_exactly_iff (t := ⟨.string, 0, some 3, 1⟩) htext (by decide) (by decide)
  exact ⟨h.1.mpr (by decide), h.2.2.1.mpr (by decide)⟩

/-- A system in which every call succeeds. -/
def allWell : Env where
  answer _ call :=
    match call with
    | .malloc _ => 1
    | .strdup _ => 1
    | _ => 0
  rawPart := 100

/-- The calls and the programs of a configuration. -/
def effects (r : Option (Except Stop State)) : Option (List Call × List Exec) :=
  match r with
  | some (.ok s) => some (s.calls, s.execs)
  | _ => none

/-- `{"e":"A=1","":"x"}`: the first key is taken for `env`, the empty one for `cmdline`. -/
theorem prefix_keys_taken :
    select (ofList []) ⟨.string, 0, some 0, 1⟩ parsers = some .cmdline ∧
      equalName parsers [] = none ∧ equalName parsers (bytes "e") = none ∧
      effects (rumprunConfig allWell 5 (bytes "\x7b\"e\":\"A=1\",\"\":\"x\"\x7d")) =
        some ([.malloc 2, .putenv 6], [⟨.cmdline, 1, [some 15, none]⟩]) := by
  decide +kernel

end Librettos.Config
