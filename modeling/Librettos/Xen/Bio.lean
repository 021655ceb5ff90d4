/-
# `Xen.Bio` — how often a block device is open

`rumphyper_bio.c`.  A device is known by its number in `blkdevs`, and `blk_open` counts how often it
is open.  `devopen` makes the connection when the device is opened first, and returns 1 for a device
that is open already, with the count raised.  Its two callers take every value but 0 for an error.  So
`rumpuser_open` of a device that is open fails, and so does `rumpuser_getfileinfo`, and the count stays
too high in both.  So it does where a device that is read-only is opened for writing: that is found out
after `devopen`, and nothing takes the open back.

These are the only ways: `open_count_iff` says that the counts are right after every call of a sequence
of calls if and only if none of these happens in it.

The answers of `blkfront_init` belong to the calls.  `Event` has what the rest of the system sees, and
the writes to `blk_open`.
-/
import Librettos.Lib.Trans
import Mathlib.Data.Fintype.Basic

namespace Librettos.Bio

open Function Option Trans

/-- `NBLKDEV` -/
def nblkdev : ℕ := 10

/-- `BLKFDOFF` -/
def blkfdoff : ℤ := 64

def enxio : ℤ := 6

def eio : ℤ := 5

def erofs : ℤ := 30

def ebadf : ℤ := 9

/-- `enum blkfront_mode` -/
inductive BlkMode
  | rdonly
  | rdwr
deriving DecidableEq, Repr

/-- `struct blkfront_info` -/
structure Info where
  sectors : ℕ
  sectorSize : ℕ
  mode : BlkMode
deriving DecidableEq, Repr

/-- `struct blkdev`, with `none` for a `blk_vbd` of -1 -/
structure Blkdev where
  blkDev : Option ℕ
  blkInfo : Info
  blkOpen : ℤ
  blkVbd : Option ℕ
deriving DecidableEq, Repr

abbrev Num := Fin nblkdev

abbrev Devs := Num → Blkdev

/-- What `blkfront_init` returns, a device or `NULL`, and what it leaves in `blk_info`. -/
structure Answer where
  dev : Option ℕ
  info : Info
deriving DecidableEq, Repr

inductive Event
  | init (nodename : String)
  /-- `blk_open` is written -/
  | count (num : Num) (n : ℤ)
  | shutdown (num : Num) (dev : Option ℕ)
deriving DecidableEq, Repr

/-- What a function returns, and what it does. -/
structure Outcome (α : Type) where
  ret : α
  devs : Devs
  events : List Event

def devopen (s : Devs) (num : Num) (answer : Answer) : Outcome ℤ :=
  let bd := s num
  if bd.blkOpen ≠ 0 then
    ⟨1, update s num { bd with blkOpen := bd.blkOpen + 1 }, [.count num (bd.blkOpen + 1)]⟩
  else
    let bd' := { bd with blkDev := answer.dev, blkInfo := answer.info }
    let init := Event.init ("device/vbd/" ++ (bd.blkVbd.elim "-1" Nat.repr))
    if answer.dev.isSome then
      ⟨0, update s num { bd' with blkOpen := 1 }, [init, .count num 1]⟩
    else ⟨eio, update s num bd', [init]⟩

/-! ## Names -/

/-- `enum devtype` -/
inductive Devtype
  | sd
  | hd
  | xvd
deriving DecidableEq, Repr

def chars (s : String) : List UInt8 := s.toList.map Char.toUInt8

/-- `XENBLK_MAGIC` -/
def xenblkMagic : List UInt8 := chars "XENBLK_"

/-- The type of the disk and the rest of the name. -/
def devtype (name : List UInt8) : Option (Devtype × List UInt8) :=
  if (chars "hd").isPrefixOf name then some (.hd, name.drop 2)
  else if (chars "sd").isPrefixOf name then some (.sd, name.drop 2)
  else if (chars "xvd").isPrefixOf name then some (.xvd, name.drop 3)
  else none

/-- The number for a disk and a partition. -/
def vbdOf : Devtype → ℕ → ℕ → Option ℕ
  | .hd, disk, part =>
    if disk < 2 then some (3 <<< 8 ||| disk <<< 6 ||| part)
    else if disk < 4 then some (22 <<< 8 ||| (disk - 2) <<< 6 ||| part)
    else none
  | .sd, disk, part =>
    if 16 < disk ∨ 16 < part then none else some (8 <<< 8 ||| disk <<< 4 ||| part)
  | .xvd, disk, part =>
    if disk < 16 then some (202 <<< 8 ||| disk <<< 4 ||| part)
    else if 'z'.toNat - 'a'.toNat < disk then none
    else some (1 <<< 28 ||| disk <<< 8 ||| part)

/-- `devname2vbd`, with `none` for -1; a name is what is before the zero, and characters are signed -/
def devname2vbd (name : List UInt8) : Option ℕ :=
  if xenblkMagic.isPrefixOf name then
    (devtype (name.drop xenblkMagic.length)).bind fun r =>
      match r.2 with
      | [c] => disk r.1 (c.toInt8.toInt - 'a'.toNat) 0
      | [c, d] => disk r.1 (c.toInt8.toInt - 'a'.toNat) (d.toInt8.toInt - '0'.toNat)
      | _ => none
  else none
where
  disk (dt : Devtype) (disk part : ℤ) : Option ℕ :=
    if disk < 0 ∨ part < 0 ∨ 9 < part then none else vbdOf dt disk.toNat part.toNat

/-- `devname2num`: the device with this number, or the first one that has none yet -/
def devname2num (s : Devs) (name : List UInt8) : Option (Num × Devs) :=
  (devname2vbd name).bind fun vbd =>
    match (List.finRange nblkdev).find? fun i => (s i).blkVbd == some vbd with
    | some i => some (i, s)
    | none =>
      ((List.finRange nblkdev).find? fun i => (s i).blkVbd == none).map fun i =>
        (i, update s i { s i with blkVbd := some vbd })

/-! ## The calls -/

/-- `mode & RUMPUSER_OPEN_ACCMODE` -/
inductive Access
  | rdonly
  | wronly
  | rdwr
  | other
deriving DecidableEq, Repr

/-- What is looked at in `mode`; `bio` is `RUMPUSER_OPEN_BIO`. -/
structure Mode where
  bio : Bool
  acc : Access
deriving DecidableEq, Repr

def Mode.writes (m : Mode) : Bool := m.acc == .wronly || m.acc == .rdwr

/-- `rumpuser_open`, with the error or the descriptor -/
def rumpuserOpen (s : Devs) (name : List UInt8) (mode : Mode) (answer : Answer) :
    Outcome (Except ℤ ℤ) :=
  if mode.bio then
    match devname2num s name with
    | none => ⟨.error enxio, s, []⟩
    | some (num, s') =>
      let r := devopen s' num answer
      if r.ret ≠ 0 then ⟨.error r.ret, r.devs, r.events⟩
      else if mode.writes ∧ (r.devs num).blkInfo.mode ≠ .rdwr then ⟨.error erofs, r.devs, r.events⟩
      else ⟨.ok (blkfdoff + num), r.devs, r.events⟩
  else ⟨.error enxio, s, []⟩

/-- The device of a descriptor. -/
def fdNum (fd : ℤ) : Option Num :=
  if h : 0 ≤ fd - blkfdoff ∧ fd - blkfdoff + 1 ≤ nblkdev then
    some ⟨(fd - blkfdoff).toNat, by omega⟩
  else none

def rumpuserClose (s : Devs) (fd : ℤ) : Outcome ℤ :=
  match fdNum fd with
  | none => ⟨ebadf, s, []⟩
  | some num =>
    let bd := { s num with blkOpen := (s num).blkOpen - 1 }
    if bd.blkOpen = 0 then
      ⟨0, update s num { bd with blkDev := none },
        [.count num bd.blkOpen, .shutdown num bd.blkDev]⟩
    else ⟨0, update s num bd, [.count num bd.blkOpen]⟩

/-- `rumpuser_getfileinfo`, with the error or the size; the type is that of a block device -/
def rumpuserGetfileinfo (s : Devs) (name : List UInt8) (answer : Answer) : Outcome (Except ℤ ℕ) :=
  match devname2num s name with
  | none => ⟨.error enxio, s, []⟩
  | some (num, s') =>
    let r := devopen s' num answer
    if r.ret ≠ 0 then ⟨.error r.ret, r.devs, r.events⟩
    else
      let info := (r.devs num).blkInfo
      let c := rumpuserClose r.devs (blkfdoff + num)
      ⟨.ok (info.sectors * info.sectorSize % 2 ^ 64), c.devs, r.events ++ c.events⟩

/-! ## Sequences of calls -/

inductive Call
  | openDev (name : List UInt8) (mode : Mode) (answer : Answer)
  | close (fd : ℤ)
  | getfileinfo (name : List UInt8) (answer : Answer)
deriving DecidableEq, Repr

/-- The devices, and for each descriptor the successful opens that returned it and have not been closed
yet. -/
structure State where
  devs : Devs
  out : ℤ → ℕ

/-- A call; only descriptors that are out are closed. -/
def step (s : State) : Call → Option State
  | .openDev name mode answer =>
    let r := rumpuserOpen s.devs name mode answer
    match r.ret with
    | .ok fd => some ⟨r.devs, update s.out fd (s.out fd + 1)⟩
    | .error _ => some ⟨r.devs, s.out⟩
  | .close fd =>
    if s.out fd = 0 then none
    else some ⟨(rumpuserClose s.devs fd).devs, update s.out fd (s.out fd - 1)⟩
  | .getfileinfo name answer => some ⟨(rumpuserGetfileinfo s.devs name answer).devs, s.out⟩

/-- After `rumprun_platform_rumpuser_init`. -/
def start : State := ⟨fun _ => ⟨none, ⟨0, 0, .rdonly⟩, 0, none⟩, fun _ => 0⟩

def events (s : Devs) : Call → List Event
  | .openDev name mode answer => (rumpuserOpen s name mode answer).events
  | .close fd => (rumpuserClose s fd).events
  | .getfileinfo name answer => (rumpuserGetfileinfo s name answer).events

/-- The devices that are shut down. -/
def shutdowns : List Event → List Num :=
  List.filterMap fun | .shutdown num _ => some num | _ => none

/-- The devices of which the count returns to zero. -/
def zeros : List Event → List Num :=
  List.filterMap fun | .count num n => if n = 0 then some num else none | _ => none

/-- The counts are the numbers of successful opens that have not been closed. -/
def Counted (s : State) : Prop := ∀ num : Num, (s.devs num).blkOpen = s.out (blkfdoff + num)

/-- A failed open, or a `rumpuser_getfileinfo`. -/
def Passing (s : Devs) : Call → Prop
  | .openDev name mode answer => ∃ rv, (rumpuserOpen s name mode answer).ret = .error rv
  | .close _ => False
  | .getfileinfo _ _ => True

/-- A device that is open is opened with success, if a first open could do so. -/
def Reopens (s : State) : Call → Prop
  | .openDev name mode answer => mode.bio → ∀ x ∈ devname2num s.devs name,
      s.out (blkfdoff + x.1) ≠ 0 → (mode.writes → (s.devs x.1).blkInfo.mode = .rdwr) →
        (rumpuserOpen s.devs name mode answer).ret = .ok (blkfdoff + x.1)
  | _ => True

/-- What a call has to do. -/
structure Proper (s : State) (c : Call) (s' : State) : Prop where
  counted : Counted s'
  reopens : Reopens s c
  kept : Passing s.devs c → ∀ num, (s'.devs num).blkOpen = (s.devs num).blkOpen
  shutdown : shutdowns (events s.devs c) = zeros (events s.devs c)

def BehavesProperly (s : State) (c : Call) : Prop := ∀ s', step s c = some s' → Proper s c s'

/-- No device is opened or asked for that is open, and no read-only device is opened for writing. -/
def Plain (s : State) : Call → Prop
  | .openDev name mode answer => mode.bio → ∀ x ∈ devname2num s.devs name,
      s.out (blkfdoff + x.1) = 0 ∧ ¬(answer.dev.isSome ∧ mode.writes ∧ answer.info.mode ≠ .rdwr)
  | .close _ => True
  | .getfileinfo name _ => ∀ x ∈ devname2num s.devs name, s.out (blkfdoff + x.1) = 0

/-! ## What the functions do to the counts -/

def opens (s : Devs) : Num → ℤ := fun num => (s num).blkOpen

section
variable {s s' : Devs} {t : State} {num : Num} {name : List UInt8} {mode : Mode} {answer : Answer}
  {fd : ℤ} {bd : Blkdev}

theorem opens_update : opens (update s num bd) = update (opens s) num bd.blkOpen :=
  comp_update Blkdev.blkOpen s num bd

theorem opens_update_same (h : bd.blkOpen = (s num).blkOpen) :
    opens (update s num bd) = opens s := by
  rw [opens_update, h]
  exact update_eq_self num (opens s)

theorem devname2num_opens (h : devname2num s name = some (num, s')) : opens s' = opens s := by
  obtain ⟨vbd, -, h⟩ := bind_eq_some_iff.mp h
  split at h
  · rw [(Prod.mk.inj (some.inj h)).2]
  · obtain ⟨j, -, h⟩ := map_eq_some_iff.mp h
    rw [← (Prod.mk.inj h).2]
    exact opens_update_same rfl

theorem devopen_again (answer : Answer) (h : opens s num ≠ 0) :
    (devopen s num answer).ret = 1 ∧
      opens (devopen s num answer).devs = update (opens s) num (opens s num + 1) := by
  have hopen : (s num).blkOpen ≠ 0 := h
  rw [devopen, if_pos hopen]
  exact ⟨rfl, opens_update⟩

theorem devopen_first (h : opens s num = 0) (hdev : answer.dev.isSome = true) :
    (devopen s num answer).ret = 0 ∧
      opens (devopen s num answer).devs = update (opens s) num 1 ∧
      ((devopen s num answer).devs num).blkInfo = answer.info ∧
      ∃ nodename, (devopen s num answer).events = [.init nodename, .count num 1] := by
  have hopen : ¬(s num).blkOpen ≠ 0 := not_not.mpr h
  rw [devopen, if_neg hopen, if_pos hdev]
  refine ⟨rfl, opens_update, ?_, _, rfl⟩
  dsimp only
  rw [update_self]

theorem devopen_fails (h : opens s num = 0) (hdev : answer.dev.isSome = false) :
    (devopen s num answer).ret = eio ∧ opens (devopen s num answer).devs = opens s ∧
      ∃ nodename, (devopen s num answer).events = [.init nodename] := by
  have hopen : ¬(s num).blkOpen ≠ 0 := not_not.mpr h
  rw [devopen, if_neg hopen, if_neg (by rw [hdev]; decide)]
  exact ⟨rfl, opens_update_same rfl, _, rfl⟩

theorem fdNum_some (h : fdNum fd = some num) : fd = blkfdoff + num := by
  rw [fdNum] at h
  split at h
  · next hrange =>
    have hval : (fd - blkfdoff).toNat = (num : ℕ) := congrArg Fin.val (some.inj h)
    omega
  · cases h

theorem fdNum_fd (num : Num) : fdNum (blkfdoff + num) = some num := by
  have hlt := num.isLt
  rw [fdNum, dif_pos (by omega)]
  congr 1
  ext
  simp

theorem close_spec (h : fdNum fd = some num) :
    opens (rumpuserClose s fd).devs = update (opens s) num (opens s num - 1) ∧
      shutdowns (rumpuserClose s fd).events = zeros (rumpuserClose s fd).events := by
  rw [rumpuserClose, h]
  dsimp only
  split
  · next hzero => exact ⟨opens_update, by simp [shutdowns, zeros, hzero]⟩
  · next hzero => exact ⟨opens_update, by simp [shutdowns, zeros, hzero]⟩

/-! ## One call -/

theorem Counted.opens_eq_zero (h : Counted t) (num : Num) :
    opens t.devs num = 0 ↔ t.out (blkfdoff + num) = 0 := by
  rw [opens, h num]
  exact Int.natCast_eq_zero

theorem Counted.update {n : ℕ} (h : Counted t) (hs : opens s = update (opens t.devs) num n) :
    Counted ⟨s, update t.out (blkfdoff + num) n⟩ := by
  intro i
  have hi : (s i).blkOpen = Function.update (opens t.devs) num (n : ℤ) i := congrFun hs i
  dsimp only
  by_cases hne : i = num
  · rw [hi, hne, update_self, update_self]
  · have hfd : blkfdoff + (i : ℤ) ≠ blkfdoff + num := fun heq => hne (Fin.ext (by omega))
    rw [hi, update_of_ne hne, update_of_ne hfd]
    exact h i

theorem Counted.keep (h : Counted t) (hs : opens s = opens t.devs) : Counted ⟨s, t.out⟩ :=
  fun i => (congrFun hs i).trans (h i)

theorem rumpuserOpen_unknown (answer : Answer) (h : mode.bio = true → devname2num s name = none) :
    rumpuserOpen s name mode answer = ⟨.error enxio, s, []⟩ := by
  rw [rumpuserOpen]
  split
  · next hbio => rw [h hbio]
  · rfl

theorem rumpuserOpen_known (answer : Answer) (hbio : mode.bio = true)
    (hnum : devname2num s name = some (num, s')) :
    rumpuserOpen s name mode answer =
      if (devopen s' num answer).ret ≠ 0 then
        ⟨.error (devopen s' num answer).ret, (devopen s' num answer).devs,
          (devopen s' num answer).events⟩
      else if mode.writes ∧ ((devopen s' num answer).devs num).blkInfo.mode ≠ .rdwr then
        ⟨.error erofs, (devopen s' num answer).devs, (devopen s' num answer).events⟩
      else ⟨.ok (blkfdoff + num), (devopen s' num answer).devs, (devopen s' num answer).events⟩ := by
  rw [rumpuserOpen, if_pos hbio, hnum]

/-- What changes nothing is proper, unless it is an open that should have succeeded. -/
theorem Counted.idle (h : Counted t) {c : Call} (hstep : step t c = some ⟨s, t.out⟩)
    (hs : opens s = opens t.devs) (hreopens : Reopens t c)
    (hevents : shutdowns (events t.devs c) = zeros (events t.devs c)) : BehavesProperly t c := by
  intro t' ht'
  rw [hstep, some.injEq] at ht'
  subst ht'
  exact ⟨h.keep hs, hreopens, fun _ i => congrFun hs i, hevents⟩

theorem step_error {rv : ℤ} (hret : (rumpuserOpen t.devs name mode answer).ret = .error rv) :
    step t (.openDev name mode answer) = some ⟨(rumpuserOpen t.devs name mode answer).devs, t.out⟩ := by
  rw [step, hret]

theorem BehavesProperly.kept {rv : ℤ} (h : BehavesProperly t (.openDev name mode answer))
    (hret : (rumpuserOpen t.devs name mode answer).ret = .error rv) :
    opens (rumpuserOpen t.devs name mode answer).devs = opens t.devs :=
  funext ((h _ (step_error hret)).kept ⟨rv, hret⟩)

theorem openDev_plain (hc : Counted t) (h : BehavesProperly t (.openDev name mode answer)) :
    Plain t (.openDev name mode answer) := by
  rintro hbio ⟨num, s'⟩ hnum
  have hopens := devname2num_opens hnum
  have hopen := rumpuserOpen_known answer hbio hnum
  by_cases hzero : opens s' num = 0
  · refine ⟨(hc.opens_eq_zero num).mp (hopens ▸ hzero), ?_⟩
    -- the open for writing has failed, with the count at one
    rintro ⟨hdev, hwrites, hmode⟩
    obtain ⟨hret, hdevs, hinfo, -⟩ := devopen_first hzero hdev
    rw [hret, if_neg (by decide), hinfo, if_pos ⟨hwrites, hmode⟩] at hopen
    have hkept := h.kept (congrArg Outcome.ret hopen)
    rw [hopen, hdevs, ← hopens] at hkept
    have hone := congrFun hkept num
    rw [update_self, hzero] at hone
    cases hone
  · -- the count has been raised
    obtain ⟨hret, hdevs⟩ := devopen_again answer hzero
    rw [hret, if_pos (by decide)] at hopen
    have hkept := h.kept (congrArg Outcome.ret hopen)
    rw [hopen, hdevs, ← hopens] at hkept
    have hone := congrFun hkept num
    rw [update_self] at hone
    omega

theorem openDev_proper (hc : Counted t) (h : Plain t (.openDev name mode answer)) :
    BehavesProperly t (.openDev name mode answer) := by
  have hreopens : Reopens t (.openDev name mode answer) :=
    fun hbio x hx hout => absurd (h hbio x hx).1 hout
  by_cases hknown : mode.bio = true ∧ (devname2num t.devs name).isSome
  · obtain ⟨hbio, hsome⟩ := hknown
    obtain ⟨⟨num, s'⟩, hnum⟩ := isSome_iff_exists.mp hsome
    obtain ⟨hout, hmode⟩ := h hbio _ hnum
    have hopens := devname2num_opens hnum
    have hzero : opens s' num = 0 := hopens ▸ (hc.opens_eq_zero num).mpr hout
    have hopen := rumpuserOpen_known answer hbio hnum
    cases hdev : answer.dev.isSome with
    | false =>
      obtain ⟨hret, hdevs, nodename, hevents⟩ := devopen_fails hzero hdev
      rw [hret, if_pos (by decide), hevents] at hopen
      refine hc.idle (step_error (congrArg Outcome.ret hopen)) ?_ hreopens ?_
      · rw [hopen, hdevs, hopens]
      · rw [events, hopen]
        rfl
    | true =>
      obtain ⟨hret, hdevs, hinfo, nodename, hevents⟩ := devopen_first hzero hdev
      have hno : ¬(mode.writes = true ∧ answer.info.mode ≠ .rdwr) := fun hw => hmode ⟨hdev, hw⟩
      rw [hret, if_neg (by decide), hinfo, if_neg hno, hevents] at hopen
      intro t' ht'
      rw [step, hopen] at ht'
      dsimp only at ht'
      rw [hout, some.injEq] at ht'
      subst ht'
      refine ⟨hc.update (hdevs.trans (by rw [hopens]; rfl)), hreopens, ?_, ?_⟩
      · rintro ⟨rv, hrv⟩
        rw [hopen] at hrv
        cases hrv
      · rw [events, hopen]
        rfl
  · -- no device is looked up, or there is none
    have hnone : mode.bio = true → devname2num t.devs name = none := by
      intro hbio
      rw [← not_isSome_iff_eq_none]
      exact fun hsome => hknown ⟨hbio, hsome⟩
    have hopen := rumpuserOpen_unknown answer hnone
    refine hc.idle (step_error (congrArg Outcome.ret hopen)) (by rw [hopen]) hreopens ?_
    rw [events, hopen]
    rfl

theorem close_proper (hc : Counted t) : BehavesProperly t (.close fd) := by
  intro t' ht'
  rw [step, ite_none_left_eq_some, some.injEq] at ht'
  obtain ⟨hout, rfl⟩ := ht'
  cases hnum : fdNum fd with
  | none =>
    have hclose : rumpuserClose t.devs fd = ⟨ebadf, t.devs, []⟩ := by rw [rumpuserClose, hnum]
    refine ⟨fun i => ?_, trivial, False.elim, by rw [events, hclose]; rfl⟩
    have hfd : blkfdoff + (i : ℤ) ≠ fd := by
      rintro rfl
      rw [fdNum_fd] at hnum
      cases hnum
    dsimp only
    rw [hclose, update_of_ne hfd]
    exact hc i
  | some num =>
    obtain ⟨hopens, hevents⟩ := close_spec (s := t.devs) hnum
    obtain rfl := fdNum_some hnum
    have hcount : opens t.devs num - 1 = ((t.out (blkfdoff + num) - 1 : ℕ) : ℤ) := by
      rw [opens, hc num]
      omega
    rw [hcount] at hopens
    exact ⟨hc.update hopens, trivial, False.elim, hevents⟩

theorem rumpuserGetfileinfo_known (answer : Answer) (hnum : devname2num s name = some (num, s')) :
    (rumpuserGetfileinfo s name answer).devs =
        (if (devopen s' num answer).ret ≠ 0 then (devopen s' num answer).devs
        else (rumpuserClose (devopen s' num answer).devs (blkfdoff + num)).devs) ∧
      (rumpuserGetfileinfo s name answer).events =
        (devopen s' num answer).events ++ (if (devopen s' num answer).ret ≠ 0 then []
        else (rumpuserClose (devopen s' num answer).devs (blkfdoff + num)).events) := by
  rw [rumpuserGetfileinfo, hnum]
  dsimp only
  split
  · exact ⟨rfl, (List.append_nil _).symm⟩
  · exact ⟨rfl, rfl⟩

theorem getfileinfo_plain (hc : Counted t) (h : BehavesProperly t (.getfileinfo name answer)) :
    Plain t (.getfileinfo name answer) := by
  rintro ⟨num, s'⟩ hnum
  have hopens := devname2num_opens hnum
  by_contra hout
  have hopen : opens s' num ≠ 0 := hopens ▸ fun hzero => hout ((hc.opens_eq_zero num).mp hzero)
  obtain ⟨hret, hdevs⟩ := devopen_again answer hopen
  have hinfo := (rumpuserGetfileinfo_known answer hnum).1
  rw [hret, if_pos (by decide)] at hinfo
  have hkept : opens (rumpuserGetfileinfo t.devs name answer).devs = opens t.devs :=
    funext ((h _ rfl).kept trivial)
  rw [hinfo, hdevs, ← hopens] at hkept
  have hone := congrFun hkept num
  rw [update_self] at hone
  omega

theorem getfileinfo_proper (hc : Counted t) (h : Plain t (.getfileinfo name answer)) :
    BehavesProperly t (.getfileinfo name answer) := by
  cases hnum : devname2num t.devs name with
  | none =>
    have hinfo : rumpuserGetfileinfo t.devs name answer = ⟨.error enxio, t.devs, []⟩ := by
      rw [rumpuserGetfileinfo, hnum]
    refine hc.idle rfl (by rw [hinfo]) trivial ?_
    rw [events, hinfo]
    rfl
  | some x =>
    obtain ⟨num, s'⟩ := x
    have hopens := devname2num_opens hnum
    have hzero : opens s' num = 0 := hopens ▸ (hc.opens_eq_zero num).mpr (h _ hnum)
    obtain ⟨hdevs, hevents⟩ := rumpuserGetfileinfo_known answer hnum
    cases hdev : answer.dev.isSome with
    | false =>
      obtain ⟨hret, hkeep, nodename, hinit⟩ := devopen_fails hzero hdev
      rw [hret, if_pos (by decide)] at hdevs hevents
      refine hc.idle rfl ?_ trivial ?_
      · rw [hdevs, hkeep, hopens]
      · rw [events, hevents, hinit]
        rfl
    | true =>
      -- the device is opened and closed again
      obtain ⟨hret, hfirst, -, nodename, hinit⟩ := devopen_first hzero hdev
      obtain ⟨hclose, hshut⟩ := close_spec (s := (devopen s' num answer).devs) (fdNum_fd num)
      rw [hret, if_neg (by decide)] at hdevs hevents
      refine hc.idle rfl ?_ trivial ?_
      · rw [hdevs, hclose, hfirst, update_self, update_idem, ← hopens]
        exact (congrArg (update (opens s') num) hzero.symm).trans
          (update_eq_self num (opens s'))
      · rw [events, hevents, hinit, shutdowns, zeros, List.filterMap_append, List.filterMap_append]
        exact hshut

/-- **One call.**  It does what it has to exactly if it is plain. -/
theorem behavesProperly_iff (hc : Counted t) (c : Call) : BehavesProperly t c ↔ Plain t c := by
  cases c with
  | openDev name mode answer => exact ⟨openDev_plain hc, openDev_proper hc⟩
  | close fd => exact ⟨fun _ => trivial, fun _ => close_proper hc⟩
  | getfileinfo name answer => exact ⟨getfileinfo_plain hc, getfileinfo_proper hc⟩

end

/-! ## Sequences -/

/-- **The counts.**  All calls of a sequence do what they have to exactly if no device is opened or asked
for while it is open, and no read-only device is opened for writing. -/
theorem open_count_iff (calls : List Call) :
    okRun step BehavesProperly start calls ↔ okRun step Plain start calls :=
  okRun_iff (fun _ c hc => behavesProperly_iff hc c)
    (fun _ _ t' _ hproper hstep => (hproper t' hstep).counted) calls start fun _ => rfl

def xvda : List UInt8 := chars "XENBLK_xvda"

def disk : Answer := ⟨some 1, ⟨2048, 512, .rdwr⟩⟩

/-- A device is opened twice. -/
def twice : List Call := [.openDev xvda ⟨true, .rdonly⟩ disk, .openDev xvda ⟨true, .rdonly⟩ disk]

/-- The second open returns an error, and the count is two with one open that has succeeded. -/
theorem second_open_fails :
    (Trans.exec step start twice).map (fun t => (opens t.devs ⟨0, by decide⟩, t.out 64)) =
        some (2, 1) ∧
      ¬okRun step BehavesProperly start twice := by
  have hend : (Trans.exec step start twice).map (fun t => (opens t.devs ⟨0, by decide⟩, t.out 64)) =
      some (2, 1) := by decide +kernel
  refine ⟨hend, fun hrun => ?_⟩
  obtain ⟨t₂, hexec, hcounts⟩ := map_eq_some_iff.mp hend
  obtain ⟨t₁, hfirst, hsecond⟩ := bind_eq_some_iff.mp hexec
  obtain ⟨t, hstep, hlast⟩ := bind_eq_some_iff.mp hsecond
  obtain rfl : t = t₂ := some.inj hlast
  -- the counts of the last call are those of the sequence
  have hcounted := ((hrun.2 t₁ hfirst).1 t hstep).counted ⟨0, by decide⟩
  obtain ⟨htwo, hone⟩ := Prod.mk.inj hcounts
  have hout : t.out (blkfdoff + ((⟨0, by decide⟩ : Num) : ℕ)) = 1 := hone
  rw [hout] at hcounted
  exact absurd (htwo.symm.trans hcounted) (by decide)

end Librettos.Bio
