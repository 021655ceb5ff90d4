/-
# `Base.SysproxyServer` — what the server does with a body

The frames of one client of `sysproxy.c`: the main loop reads them (`Base.Sysproxy`) and hands a
request to `handlereq`, which may leave it to a worker thread, and a response to the thread that waits
for it in `copyin_req` or `anonmmap_req`.  Every access to a body, and to the buffer of the caller of
`sp_copyin`, is kept with its offset and length and the size of what is accessed.

The reads of `readframe` and the fork handshake stay inside.  The guest and exec handshakes end the name
of the command with a zero, in the byte behind the body.  The arguments of a system call and
the answers of `copyin` and `anonmmap` are used without a look at how long they are.

**Proved here.**  When all accesses of a run are inside (`server_bounds_iff`).
-/
import Librettos.Base.Sysproxy
import Librettos.Lib.Trans

namespace Librettos.Sysproxy

open List Trans

def rspReqno (hdr : List UInt8) : ℕ := field hdr 8 8

def rspClass (hdr : List UInt8) : ℕ := field hdr 16 2

def rspType (hdr : List UInt8) : ℕ := field hdr 18 2

/-- `rsp_sysnum` and `rsp_handshake`, which are one. -/
def rspU (hdr : List UInt8) : ℕ := field hdr 20 4

def rumpspReq : ℕ := 0
def rumpspResp : ℕ := 1
def rumpspHandshake : ℕ := 0
def rumpspSyscall : ℕ := 1
def rumpspPrefork : ℕ := 7
def handshakeGuest : ℕ := 0
def handshakeFork : ℕ := 2
def handshakeExec : ℕ := 3

/-- `sizeof(struct handshake_fork)` -/
def handshakeForkSize : ℕ := 20

/-- `len` bytes from `off` on, of `size`. -/
structure Access where
  size : ℕ
  off : ℕ
  len : ℕ
  deriving DecidableEq, Repr

def Access.Inside (a : Access) : Prop := a.off + a.len ≤ a.size

instance (a : Access) : Decidable a.Inside := inferInstanceAs (Decidable (a.off + a.len ≤ a.size))

/-- The size of a buffer that may be null. -/
def bufSize (buf : Option (List UInt8)) : ℕ := (buf.getD []).length

inductive SpcState
  | new
  | running
  | dying
  deriving DecidableEq, Repr

/-- What a thread waits for: `sp_copyin` with the length that it was given, or
`rumpuser_sp_anonmmap`. -/
inductive Want
  | copyin (len : ℕ) (wantstr : Bool)
  | anonmmap
  deriving DecidableEq, Repr

/-- `struct respwait`, with `rw_data` and `rw_dlen` once it is done. -/
structure Respwait where
  reqno : ℕ
  want : Want
  resp : Option (Option (List UInt8) × ℕ)
  deriving DecidableEq, Repr

/-- `struct servbouncearg` -/
structure Bounce where
  exec : Bool
  hdr : List UInt8
  data : Option (List UInt8)
  deriving DecidableEq, Repr

/-- A client, as the server has it. -/
structure Server where
  spc : Spc
  stream : List UInt8
  state : SpcState
  inexec : Bool
  nextreq : ℕ
  waits : List Respwait
  wrklist : List Bounce
  deriving DecidableEq, Repr

/-- `handlereq` of the frame in `spc`, and the accesses it makes; `ok` says whether what it calls
succeeds. -/
def handlereq (s : Server) (spc : Spc) (ok : Bool) : Server × List Access :=
  let hdr := spc.hdr
  if s.state = .new then
    if rspType hdr ≠ rumpspHandshake then (s, [])
    else if rspU hdr = handshakeGuest then
      (if ok then { s with state := .running } else s, [⟨bufSize spc.buf, rspLen hdr - hdrsz, 1⟩])
    else if rspU hdr = handshakeFork then
      if spc.off - hdrsz ≠ handshakeForkSize then (s, [])
      else (if ok then { s with state := .running } else s, [⟨bufSize spc.buf, 0, handshakeForkSize⟩])
    else (s, [])
  else if rspType hdr = rumpspPrefork then (s, [])
  else if rspType hdr = rumpspHandshake then
    if rspU hdr ≠ handshakeExec ∨ s.inexec then (s, [])
    else
      ({ s with
          inexec := true
          wrklist := if ok then s.wrklist ++ [⟨true, hdr, spc.buf⟩] else s.wrklist }, [])
  else if rspType hdr ≠ rumpspSyscall then (s, [])
  else ({ s with wrklist := if ok then s.wrklist ++ [⟨false, hdr, spc.buf⟩] else s.wrklist }, [])

/-- `kickwaiter`: the first waiter with this number gets the body. -/
def kickwaiter (spc : Spc) : List Respwait → List Respwait
  | [] => []
  | w :: ws =>
    if w.reqno = rspReqno spc.hdr then { w with resp := some (spc.buf, spc.off - hdrsz) } :: ws
    else w :: kickwaiter spc ws

/-- The main loop with a frame in `spc`.  All ways end with the buffer reset. -/
def dispatch (s : Server) (spc : Spc) (ok : Bool) : Server × List Access :=
  let s := { s with spc := spc.resetbuf }
  if rspClass spc.hdr = rumpspResp then ({ s with waits := kickwaiter spc s.waits }, [])
  else if rspClass spc.hdr = rumpspReq then handlereq s spc ok
  else (s, [])

/-- Where `readframe` lets a body be read to. -/
def bodyAccess (spc : Spc) : List Access :=
  let left := rspLen spc.hdr - spc.off
  if left = 0 then [] else [⟨bufSize spc.buf, spc.off - hdrsz, left⟩]

/-- What `readframe` does to a body: it clears it, and reads into it. -/
def readAccesses (spc : Spc) (stream : List UInt8) (r : Read × Read) : List Access :=
  if spc.off < hdrsz then
    match hostRead (hdrsz - spc.off) stream r.1 with
    | .again | .fail => []
    | .data bs _ =>
      let hdr := overwrite spc.hdr spc.off bs
      let off := spc.off + bs.length
      if off < hdrsz ∨ rspLen hdr ≤ hdrsz then []
      else
        let size := rspLen hdr - hdrsz
        ⟨size, 0, size⟩ :: bodyAccess ⟨hdr, some (List.replicate size 0), off⟩
  else bodyAccess spc

/-- What can happen: the main loop calls `readframe`; a worker takes the next piece of work; a
thread asks the client for something; a thread that waits goes on. -/
inductive Event
  | recv (r : Read × Read) (ok : Bool)
  | work (ok : Bool)
  | ask (want : Want)
  | finish (i : ℕ)
  deriving DecidableEq, Repr

/-- The bytes of a system call's arguments. -/
abbrev Argsize := ℕ → ℕ

variable (argsize : Argsize)

/-- `serv_handleexec`, and `serv_handlesyscall` where it gets an lwp. -/
def workAccesses (b : Bounce) (ok : Bool) : List Access :=
  if b.exec then [⟨bufSize b.data, rspLen b.hdr - hdrsz, 1⟩]
  else if ok then [⟨bufSize b.data, 0, argsize (rspU b.hdr)⟩]
  else []

/-- What `sp_copyin` does with the answer: `memcpy(laddr, rdata, *len)` reads the body and writes
the caller's buffer. -/
def finishAccesses (want : Want) (data : Option (List UInt8)) (dlen : ℕ) : List Access :=
  match want with
  | .copyin len wantstr =>
    let n := if wantstr then dlen else len
    [⟨bufSize data, 0, n⟩, ⟨len, 0, n⟩]
  | .anonmmap => [⟨bufSize data, 0, 8⟩]

/-- A step, with the accesses it makes.  `serv_handledisco` clears the buffer and leaves the waiting
threads to themselves. -/
def stepAccesses (s : Server) : Event → Option (Server × List Access)
  | .recv r ok =>
    if s.state = .dying then none
    else
      let ret := readframe s.spc s.stream r
      let accesses := readAccesses s.spc s.stream r
      let s := { s with spc := ret.spc, stream := ret.stream }
      if ret.rv = 0 then some (s, accesses)
      else if ret.rv = -1 then
        some ({ s with spc := ret.spc.resetbuf, state := .dying, inexec := false, nextreq := 0 }, accesses)
      else
        let (s, more) := dispatch s ret.spc ok
        some (s, accesses ++ more)
  | .work ok =>
    match s.wrklist with
    | [] => none
    | b :: bs =>
      some ({ s with wrklist := bs, inexec := if b.exec then false else s.inexec },
        workAccesses argsize b ok)
  | .ask want =>
    -- only a system call of the client asks
    if s.state = .new then none
    else
      some ({ s with nextreq := s.nextreq + 1, waits := s.waits ++ [⟨s.nextreq, want, none⟩] }, [])
  | .finish i =>
    match s.waits[i]? with
    | none => none
    | some w =>
      let s' := { s with waits := s.waits.eraseIdx i }
      if s.state = .dying then some (s', [])
      else w.resp.map fun resp => (s', finishAccesses w.want resp.1 resp.2)

def step (s : Server) (e : Event) : Option Server := (stepAccesses argsize s e).map Prod.fst

/-- All accesses of the step are inside. -/
def InBounds (s : Server) (e : Event) : Prop :=
  ∀ r, stepAccesses argsize s e = some r → ∀ a ∈ r.2, a.Inside

/-- The frame in `spc` is a guest handshake. -/
def IsGuest (s : Server) (spc : Spc) : Prop :=
  rspClass spc.hdr = rumpspReq ∧ s.state = .new ∧ rspType spc.hdr = rumpspHandshake ∧
    rspU spc.hdr = handshakeGuest

/-- An answer has the length that the caller relies on. -/
def Want.Fits (dlen : ℕ) : Want → Prop
  | .copyin len wantstr => if wantstr then dlen ≤ len else len ≤ dlen
  | .anonmmap => 8 ≤ dlen

/-- No guest handshake is received and no exec is carried out, system calls come with all their
arguments, and answers have the length that was asked for. -/
def Behaved (s : Server) : Event → Prop
  | .recv r _ =>
    s.state ≠ .dying → (readframe s.spc s.stream r).rv = 1 →
      ¬ IsGuest s (readframe s.spc s.stream r).spc
  | .work ok => ∀ b bs, s.wrklist = b :: bs →
      b.exec = false ∧ (ok → argsize (rspU b.hdr) ≤ rspLen b.hdr - hdrsz)
  | .ask _ => True
  | .finish i => s.state ≠ .dying → ∀ w, s.waits[i]? = some w →
      ∀ data dlen, w.resp = some (data, dlen) → w.want.Fits dlen

/-- A new connection; the client sends `stream`. -/
def Server.new (hdr stream : List UInt8) : Server :=
  ⟨⟨hdr, none, 0⟩, stream, .new, false, 0, [], []⟩

/-! ## The invariant -/

/-- A body is there, or under way. -/
structure InBody (spc : Spc) : Prop where
  hdr : hdrsz ≤ spc.off
  off : spc.off ≤ rspLen spc.hdr
  size : bufSize spc.buf + hdrsz = rspLen spc.hdr

def Reading (spc : Spc) : Prop := spc.off < hdrsz ∧ spc.buf = none ∨ InBody spc

/-- What the three results of `readframe` say. -/
inductive Reads : Return → Prop
  | go {spc : Spc} {stream : List UInt8} : Reading spc → Reads ⟨0, spc, stream⟩
  | bad {spc : Spc} {stream : List UInt8} : Reads ⟨-1, spc, stream⟩
  | frame {spc : Spc} {stream : List UInt8} : InBody spc → spc.off = rspLen spc.hdr →
      Reads ⟨1, spc, stream⟩

structure Inv (s : Server) : Prop where
  spc : Reading s.spc
  waits : ∀ w ∈ s.waits, ∀ data dlen, w.resp = some (data, dlen) → bufSize data = dlen
  work : ∀ b ∈ s.wrklist, bufSize b.data = rspLen b.hdr - hdrsz

section
variable {argsize : Argsize} {spc : Spc} {stream : List UInt8} {s : Server}

theorem readbody_reads (h : InBody spc) (r : Read) : Reads (readbody spc stream r) := by
  unfold readbody
  dsimp only
  split
  next hleft => exact .frame h (by have := h.off; omega)
  next hleft =>
    split
    next => exact .go (.inr h)
    next => exact .bad
    next bs stream' hread =>
      obtain ⟨n, -, hn, hlen, rfl, -⟩ := hostRead_data hread (by omega)
      have hbs : (stream.take n).length = n := by rw [length_take, Nat.min_eq_left hlen]
      have hsize : bufSize (spc.buf.map fun b => overwrite b (spc.off - hdrsz) (stream.take n))
          = bufSize spc.buf := by
        have hsize := h.size
        cases hbuf : spc.buf with
        | none => rfl
        | some b =>
          rw [hbuf] at hsize
          have hin : spc.off - hdrsz + (stream.take n).length ≤ b.length := by
            have := h.hdr
            change b.length + hdrsz = rspLen spc.hdr at hsize
            omega
          exact length_overwrite b (spc.off - hdrsz) (stream.take n) hin
      have hbody : InBody { spc with
          buf := spc.buf.map fun b => overwrite b (spc.off - hdrsz) (stream.take n)
          off := spc.off + (stream.take n).length } := by
        refine ⟨?_, ?_, ?_⟩
        · exact le_trans h.hdr (Nat.le_add_right _ _)
        · show spc.off + (stream.take n).length ≤ rspLen spc.hdr
          omega
        · exact hsize ▸ h.size
      split
      next hall => exact .frame hbody (by dsimp only; omega)
      next hmore => exact .go (.inr hbody)

theorem InBody.alloc {hdr : List UInt8} {off : ℕ} (hoff : off = hdrsz) (hlen : hdrsz < rspLen hdr) :
    InBody ⟨hdr, some (replicate (rspLen hdr - hdrsz) 0), off⟩ := by
  subst hoff
  refine ⟨le_rfl, le_of_lt hlen, ?_⟩
  rw [bufSize, Option.getD_some, length_replicate]
  exact Nat.sub_add_cancel (le_of_lt hlen)

theorem hostRead_length {left : ℕ} {bs stream' : List UInt8} {r : Read}
    (h : hostRead left stream r = .data bs stream') (hleft : 0 < left) : bs.length ≤ left := by
  obtain ⟨n, -, hn, -, rfl, -⟩ := hostRead_data h hleft
  exact (length_take_le n stream).trans hn

theorem readframe_reads (h : Reading spc) (r : Read × Read) : Reads (readframe spc stream r) := by
  rcases h with ⟨hoff, hbuf⟩ | h
  case inr =>
    rw [readframe, if_neg (not_lt.mpr h.hdr)]
    exact readbody_reads h r.1
  case inl =>
    rw [readframe, if_pos hoff]
    split
    next => exact .go (.inl ⟨hoff, hbuf⟩)
    next => exact .bad
    next bs stream' hread =>
      have hbs := hostRead_length hread (by omega)
      dsimp only
      split
      next hmore => exact .go (.inl ⟨hmore, hbuf⟩)
      next hall =>
        have hfull : spc.off + bs.length = hdrsz := by omega
        split
        next => exact .bad
        next hge =>
          split
          next heq =>
            refine .frame ⟨hfull.ge, (hfull.trans heq.symm).le, ?_⟩ (hfull.trans heq.symm)
            rw [hbuf, heq]
            exact Nat.zero_add hdrsz
          next hne => exact readbody_reads (.alloc hfull (by omega)) r.2

theorem InBody.inside (h : InBody spc) : ∀ a ∈ bodyAccess spc, a.Inside := by
  have hhdr := h.hdr
  have hsize := h.size
  unfold bodyAccess
  dsimp only
  split
  next => simp
  next =>
    rw [forall_mem_singleton]
    show spc.off - hdrsz + (rspLen spc.hdr - spc.off) ≤ bufSize spc.buf
    omega

theorem readAccesses_inside (h : Reading spc) (r : Read × Read) :
    ∀ a ∈ readAccesses spc stream r, a.Inside := by
  rcases h with ⟨hoff, -⟩ | h
  case inr =>
    rw [readAccesses, if_neg (not_lt.mpr h.hdr)]
    exact h.inside
  case inl =>
    rw [readAccesses, if_pos hoff]
    split
    next => simp
    next => simp
    next bs stream' hread =>
      have hbs := hostRead_length hread (by omega)
      dsimp only
      split
      next => simp
      next hbody =>
        intro a ha
        rcases mem_cons.mp ha with rfl | ha
        · exact le_of_eq (Nat.zero_add _)
        · exact InBody.inside (.alloc (by omega) (by omega)) a ha

/-! ## One step -/

/-- A request is used inside its body, unless it is a guest handshake. -/
theorem handlereq_inside (h : InBody spc) (hoff : spc.off = rspLen spc.hdr) (ok : Bool) :
    (∀ a ∈ (handlereq s spc ok).2, a.Inside) ↔ ¬ (s.state = .new ∧
      rspType spc.hdr = rumpspHandshake ∧ rspU spc.hdr = handshakeGuest) := by
  have hsize := h.size
  unfold handlereq
  by_cases hnew : s.state = .new
  case neg =>
    have hnone : ∀ r : Server, ∀ a ∈ (r, ([] : List Access)).2, a.Inside := by simp
    simp only [hnew, if_false, false_and, not_false_eq_true, iff_true]
    split
    next => exact hnone _
    next =>
      split
      next =>
        split
        next => exact hnone _
        next => exact hnone _
      next =>
        split
        next => exact hnone _
        next => exact hnone _
  case pos =>
    simp only [hnew, if_true, true_and]
    by_cases htype : rspType spc.hdr = rumpspHandshake
    case neg => simp [htype]
    by_cases hguest : rspU spc.hdr = handshakeGuest
    case pos =>
      -- the byte behind the body
      simp only [htype, hguest, ne_eq, not_true_eq_false, if_false, if_true, forall_mem_singleton,
        Access.Inside, and_self, iff_false, not_le]
      omega
    case neg =>
      simp only [htype, hguest, ne_eq, not_true_eq_false, if_false, and_false, not_false_eq_true, iff_true]
      split
      next =>
        split
        next => simp
        next hfork =>
          simp only [forall_mem_singleton, Access.Inside]
          omega
      next => simp

theorem dispatch_inside (h : InBody spc) (hoff : spc.off = rspLen spc.hdr) (ok : Bool) :
    (∀ a ∈ (dispatch s spc ok).2, a.Inside) ↔ ¬ IsGuest s spc := by
  unfold dispatch IsGuest
  split
  next hresp => simp [hresp, rumpspResp, rumpspReq]
  next =>
    split
    next hreq =>
      rw [handlereq_inside h hoff ok]
      simp only [hreq, true_and]
    next hreq => simp [hreq]

theorem handlereq_inv (hs : Inv s) (h : InBody spc) (ok : Bool) : Inv (handlereq s spc ok).1 := by
  have hsize := h.size
  -- the frame becomes a piece of work, or it is done with
  have hwork : ∀ exec inexec, Inv { s with
      inexec := inexec
      wrklist := if ok then s.wrklist ++ [⟨exec, spc.hdr, spc.buf⟩] else s.wrklist } := by
    intro exec inexec
    refine ⟨hs.spc, hs.waits, fun b hb => ?_⟩
    cases ok with
    | false => exact hs.work b hb
    | true =>
      rcases mem_append.mp hb with hb | hb
      · exact hs.work b hb
      · rw [mem_singleton.mp hb]
        exact Nat.eq_sub_of_add_eq hsize
  have hrunning : Inv (if ok then { s with state := .running } else s) := by
    cases ok with
    | false => exact hs
    | true => exact { hs with }
  unfold handlereq
  dsimp only
  split
  next =>
    split
    next => exact hs
    next =>
      split
      next => exact hrunning
      next =>
        split
        next =>
          split
          next => exact hs
          next => exact hrunning
        next => exact hs
  next =>
    split
    next => exact hs
    next =>
      split
      next =>
        split
        next => exact hs
        next => exact hwork true true
      next =>
        split
        next => exact hs
        next => exact hwork false s.inexec

theorem kickwaiter_waits (hdlen : bufSize spc.buf = spc.off - hdrsz) : ∀ {ws : List Respwait},
    (∀ w ∈ ws, ∀ data dlen, w.resp = some (data, dlen) → bufSize data = dlen) →
    ∀ w ∈ kickwaiter spc ws, ∀ data dlen, w.resp = some (data, dlen) → bufSize data = dlen
  | [], h => h
  | w :: ws, h => by
    rw [forall_mem_cons] at h
    rw [kickwaiter]
    split
    next =>
      refine forall_mem_cons.mpr ⟨?_, h.2⟩
      rintro data dlen heq
      cases heq
      exact hdlen
    next => exact forall_mem_cons.mpr ⟨h.1, kickwaiter_waits hdlen h.2⟩

theorem dispatch_inv (hs : Inv s) (h : InBody spc) (hoff : spc.off = rspLen spc.hdr) (ok : Bool) :
    Inv (dispatch s spc ok).1 := by
  have hreset : Inv { s with spc := spc.resetbuf } := ⟨.inl ⟨Nat.zero_lt_succ 23, rfl⟩, hs.waits, hs.work⟩
  unfold dispatch
  split
  next =>
    have hdlen : bufSize spc.buf = spc.off - hdrsz := by
      rw [hoff]
      exact Nat.eq_sub_of_add_eq h.size
    exact ⟨hreset.spc, kickwaiter_waits hdlen hs.waits, hs.work⟩
  next =>
    split
    next => exact handlereq_inv hreset h ok
    next => exact hreset

theorem finishAccesses_inside {data : Option (List UInt8)} {dlen : ℕ} (h : bufSize data = dlen)
    (want : Want) : (∀ a ∈ finishAccesses want data dlen, a.Inside) ↔ want.Fits dlen := by
  cases want with
  | anonmmap => simp [finishAccesses, Want.Fits, Access.Inside, h]
  | copyin len wantstr => cases wantstr <;> simp [finishAccesses, Want.Fits, Access.Inside, h]

theorem workAccesses_inside {b : Bounce} (h : bufSize b.data = rspLen b.hdr - hdrsz) (ok : Bool) :
    (∀ a ∈ workAccesses argsize b ok, a.Inside) ↔
      b.exec = false ∧ (ok → argsize (rspU b.hdr) ≤ rspLen b.hdr - hdrsz) := by
  cases hexec : b.exec <;> cases ok <;> simp [workAccesses, Access.Inside, hexec, h]

theorem inBounds_iff (hs : Inv s) (e : Event) : InBounds argsize s e ↔ Behaved argsize s e := by
  cases e with
  | ask want => by_cases hnew : s.state = .new <;> simp [InBounds, Behaved, stepAccesses, hnew]
  | work ok =>
    cases hwork : s.wrklist with
    | nil => simp [InBounds, Behaved, stepAccesses, hwork]
    | cons b bs =>
      have hb := @workAccesses_inside argsize b (hs.work b (by simp [hwork])) ok
      simp [InBounds, Behaved, stepAccesses, hwork, hb]
  | finish i =>
    by_cases hdying : s.state = .dying
    · cases hw : s.waits[i]? <;> simp [InBounds, Behaved, stepAccesses, hdying, hw]
    cases hw : s.waits[i]? with
    | none => simp [InBounds, Behaved, stepAccesses, hw]
    | some w =>
      cases hresp : w.resp with
      | none => simp [InBounds, Behaved, stepAccesses, hdying, hw, hresp]
      | some resp =>
        obtain ⟨data, dlen⟩ := resp
        have hfits := finishAccesses_inside
          (hs.waits w (mem_of_getElem? hw) data dlen hresp) w.want
        simp [InBounds, Behaved, stepAccesses, hdying, hw, hresp, hfits]
  | recv r ok =>
    by_cases hdying : s.state = .dying
    · simp [InBounds, Behaved, stepAccesses, hdying]
    have hread := @readAccesses_inside s.spc s.stream hs.spc r
    cases hret : readframe s.spc s.stream r with
    | mk rv spc stream =>
      have hreads := @readframe_reads s.spc s.stream hs.spc r
      rw [hret] at hreads
      cases hreads with
      | go | bad => simpa [InBounds, Behaved, stepAccesses, hdying, hret] using hread
      | frame hbody hoff =>
        have hdisp := @dispatch_inside spc { s with spc := spc, stream := stream } hbody hoff ok
        simp [InBounds, Behaved, stepAccesses, hdying, hret, forall_mem_append, -mem_append]
        exact (and_iff_right hread).trans hdisp

theorem Inv.step (hs : Inv s) {e : Event} {s' : Server} (h : step argsize s e = some s') : Inv s' := by
  unfold Sysproxy.step at h
  cases e with
  | ask want =>
    by_cases hnew : s.state = .new
    · simp [stepAccesses, hnew] at h
    simp only [stepAccesses, hnew, if_false, Option.map_some, Option.some.injEq] at h
    subst h
    refine ⟨hs.spc, fun w hw => ?_, hs.work⟩
    rcases mem_append.mp hw with hw | hw
    · exact hs.waits w hw
    · rw [mem_singleton.mp hw]
      simp
  | work ok =>
    unfold stepAccesses at h
    cases hwork : s.wrklist with
    | nil => simp [hwork] at h
    | cons b bs =>
      simp only [hwork, Option.map_some, Option.some.injEq] at h
      subst h
      exact ⟨hs.spc, hs.waits, fun c hc => hs.work c (hwork ▸ mem_cons_of_mem b hc)⟩
  | finish i =>
    have hkeep : Inv { s with waits := s.waits.eraseIdx i } :=
      ⟨hs.spc, fun w hw => hs.waits w (mem_of_mem_eraseIdx hw), hs.work⟩
    unfold stepAccesses at h
    cases hw : s.waits[i]? with
    | none => simp [hw] at h
    | some w =>
      by_cases hdying : s.state = .dying
      · simp only [hw, hdying, if_true, Option.map_some, Option.some.injEq] at h
        exact h ▸ hdying ▸ hkeep
      · cases hresp : w.resp with
        | none => simp [hw, hdying, hresp] at h
        | some resp =>
          simp only [hw, hdying, if_false, hresp, Option.map_some, Option.some.injEq] at h
          exact h ▸ hkeep
  | recv r ok =>
    by_cases hdying : s.state = .dying
    · simp [stepAccesses, hdying] at h
    cases hret : readframe s.spc s.stream r with
    | mk rv spc stream =>
      have hreads := @readframe_reads s.spc s.stream hs.spc r
      rw [hret] at hreads
      cases hreads with
      | go hgo =>
        simp [stepAccesses, hdying, hret] at h
        exact h ▸ ⟨hgo, hs.waits, hs.work⟩
      | bad =>
        simp [stepAccesses, hdying, hret] at h
        exact h ▸ ⟨.inl ⟨Nat.zero_lt_succ 23, rfl⟩, hs.waits, hs.work⟩
      | frame hbody hoff =>
        simp [stepAccesses, hdying, hret] at h
        have hinv : Inv { s with spc := spc, stream := stream } :=
          ⟨.inr hbody, hs.waits, hs.work⟩
        exact h ▸ dispatch_inv hinv hbody hoff ok

end

/-- **Bounds.**  In a run of a new client, all accesses are inside the bodies and the buffers of
the callers exactly if there is no guest handshake, no exec, no system call with too few bytes and no
answer of a length that was not asked for. -/
theorem server_bounds_iff (hdr stream : List UInt8) (es : List Event) :
    okRun (step argsize) (InBounds argsize) (Server.new hdr stream) es ↔
      okRun (step argsize) (Behaved argsize) (Server.new hdr stream) es :=
  okRun_iff (fun _ e hs => inBounds_iff hs e) (fun _ _ _ hs _ hstep => hs.step hstep) es _
    ⟨.inl ⟨Nat.zero_lt_succ 23, rfl⟩, by simp [Server.new], by simp [Server.new]⟩

/-- A guest handshake for `sh`: the zero goes behind the two bytes that were allocated. -/
theorem guest_writes_behind :
    (stepAccesses (fun _ => 0)
        (Server.new (replicate 24 0) (26 :: replicate 23 0 ++ [115, 104]))
        (.recv (.take 23, .take 1) true)).map Prod.snd = some [⟨2, 0, 2⟩, ⟨2, 0, 2⟩, ⟨2, 2, 1⟩] ∧
    ¬ okRun (step fun _ => 0) (InBounds fun _ => 0)
        (Server.new (replicate 24 0) (26 :: replicate 23 0 ++ [115, 104]))
        [.recv (.take 23, .take 1) true] := by
  have haccess : (stepAccesses (fun _ => 0)
      (Server.new (replicate 24 0) (26 :: replicate 23 0 ++ [115, 104]))
      (.recv (.take 23, .take 1) true)).map Prod.snd = some [⟨2, 0, 2⟩, ⟨2, 0, 2⟩, ⟨2, 2, 1⟩] := by
    decide
  refine ⟨haccess, fun h => ?_⟩
  obtain ⟨r, hr, hsnd⟩ := Option.map_eq_some_iff.mp haccess
  have hinside := h.1 r hr ⟨2, 2, 1⟩ (by simp [hsnd])
  exact absurd hinside (by decide)

end Librettos.Sysproxy
