/-
# `Base.Sysproxy` — frames over a socket

The server of `sysproxy.c` takes requests from a socket that does not block.  `readframe` is called
when there is something to read and gathers a frame over as many calls as it takes: a header of 24
bytes, which has the length of the whole, and then the body.  `dosend` sends a list of buffers and
goes on after short writes; for the time of the call it has an lwp of its own.

A call of `readframe` reads once or twice.  How much there is to read, or that there is nothing,
belongs to the call (`Read`).

**Proved here.**

    however the socket splits the stream, the frames come out as they
    were sent, and a length below the header's ends the connection  (`frames_received`)
    `dosend` hands over a prefix of the buffers, all of them if it returns zero,
    and gives its lwp back exactly if the socket takes all there is  (`dosend_iff`)
-/
import Librettos.Lib.Bytes
import Mathlib.Data.PNat.Basic

namespace Librettos.Sysproxy

open List

/-! ## Receiving -/

/-- `HDRSZ` -/
def hdrsz : ℕ := 24

/-- The number in `n` bytes of a header, from `i` on. -/
def field (hdr : List UInt8) (i n : ℕ) : ℕ :=
  Nat.ofDigits 256 (((hdr.drop i).take n).map UInt8.toNat)

def rspLen (hdr : List UInt8) : ℕ := field hdr 0 8

/-- The fields of `struct spclient` that hold a frame. -/
structure Spc where
  hdr : List UInt8
  buf : Option (List UInt8)
  off : ℕ
  deriving DecidableEq, Repr

/-- `spcresetbuf`; `spcfreebuf` frees the buffer before. -/
def Spc.resetbuf (spc : Spc) : Spc := { spc with buf := none, off := 0 }

/-- What happens to a read: there is nothing, the stream has ended or failed, or it gets at most
`k + 1` bytes. -/
inductive Read
  | again
  | fail
  | take (k : ℕ)
  deriving DecidableEq, Repr

inductive Got
  | again
  | fail
  | data (bs stream : List UInt8)

/-- `host_read` of at most `left` bytes. -/
def hostRead (left : ℕ) (stream : List UInt8) : Read → Got
  | .again => .again
  | .fail => .fail
  | .take k =>
    if stream = [] then .again
    else .data (stream.take (min (k + 1) left)) (stream.drop (min (k + 1) left))

/-- Bytes are read into memory, from `off` on. -/
def overwrite (mem : List UInt8) (off : ℕ) (bs : List UInt8) : List UInt8 :=
  mem.take off ++ bs ++ mem.drop (off + bs.length)

/-- What `readframe` returns, the buffer, and what is left of the stream. -/
structure Return where
  rv : Int
  spc : Spc
  stream : List UInt8

/-- The second part of `readframe`, for the body. -/
def readbody (spc : Spc) (stream : List UInt8) (r : Read) : Return :=
  let left := rspLen spc.hdr - spc.off
  if left = 0 then ⟨1, spc, stream⟩
  else
    match hostRead left stream r with
    | .again => ⟨0, spc, stream⟩
    | .fail => ⟨-1, spc, stream⟩
    | .data bs stream =>
      let spc := { spc with
        buf := spc.buf.map fun b => overwrite b (spc.off - hdrsz) bs
        off := spc.off + bs.length }
      if left - bs.length = 0 then ⟨1, spc, stream⟩ else ⟨0, spc, stream⟩

/-- `readframe`, where `malloc` finds memory. -/
def readframe (spc : Spc) (stream : List UInt8) (r : Read × Read) : Return :=
  if spc.off < hdrsz then
    match hostRead (hdrsz - spc.off) stream r.1 with
    | .again => ⟨0, spc, stream⟩
    | .fail => ⟨-1, spc, stream⟩
    | .data bs stream =>
      let spc := { spc with hdr := overwrite spc.hdr spc.off bs, off := spc.off + bs.length }
      if spc.off < hdrsz then ⟨0, spc, stream⟩
      else
        let framelen := rspLen spc.hdr
        if framelen < hdrsz then ⟨-1, spc, stream⟩
        else if framelen = hdrsz then ⟨1, spc, stream⟩
        else
          readbody { spc with buf := some (List.replicate (framelen - hdrsz) 0) } stream r.2
  else readbody spc stream r.1

/-- A connection: the frames so far, as they are handed on. -/
structure Conn where
  spc : Spc
  stream : List UInt8
  frames : List (List UInt8 × Option (List UInt8))
  closed : Bool

/-- A call of `readframe`, and what the main loop does with its result. -/
def Conn.call (c : Conn) (r : Read × Read) : Conn :=
  if c.closed then c
  else
    let ret := readframe c.spc c.stream r
    if ret.rv = 0 then { c with spc := ret.spc, stream := ret.stream }
    else if ret.rv = -1 then { c with spc := ret.spc, stream := ret.stream, closed := true }
    else
      { c with
        spc := ret.spc.resetbuf
        stream := ret.stream
        frames := c.frames ++ [(ret.spc.hdr, ret.spc.buf)] }

/-- A new connection; the header may hold anything. -/
def Conn.new (hdr stream : List UInt8) : Conn := ⟨⟨hdr, none, 0⟩, stream, [], false⟩

def Conn.receive (c : Conn) (reads : List (Read × Read)) : Conn := reads.foldl Conn.call c

/-- A frame, as it is sent. -/
structure Frame where
  hdr : List UInt8
  body : List UInt8
  hdr_length : hdr.length = hdrsz
  len : rspLen hdr = hdrsz + body.length

def Frame.bytes (f : Frame) : List UInt8 := f.hdr ++ f.body

/-- The frame in the buffer. -/
def Frame.parts (f : Frame) : List UInt8 × Option (List UInt8) :=
  (f.hdr, if f.body = [] then none else some f.body)

/-- What may follow the frames: nothing, or a header with a length that is too small. -/
def Ending (tail : List UInt8) : Prop :=
  tail = [] ∨ hdrsz ≤ tail.length ∧ rspLen (tail.take hdrsz) < hdrsz

/-- The bytes that are still to come. -/
def pending (tail : List UInt8) (rest : List Frame) : List UInt8 :=
  (rest.map Frame.bytes).flatten ++ tail

/-- How a connection stands in the middle of a stream of which `rest` and `tail` are still to come,
the frame under way included. -/
inductive Mid (tail : List UInt8) : List Frame → Spc → List UInt8 → Prop
  | header {rest : List Frame} {hdr : List UInt8} {k : ℕ} (hlen : hdr.length = hdrsz) (hk : k < hdrsz)
      (hhdr : hdr.take k = (pending tail rest).take k) :
      Mid tail rest ⟨hdr, none, k⟩ ((pending tail rest).drop k)
  | body {f : Frame} {rest : List Frame} {b : List UInt8} {k : ℕ} (hlen : b.length = f.body.length)
      (hk : k < f.body.length) (hb : b.take k = f.body.take k) :
      Mid tail (f :: rest) ⟨f.hdr, some b, hdrsz + k⟩ (f.body.drop k ++ pending tail rest)

/-- Nothing comes back into the stream, and a byte is taken if there is one and the read is not put
off. -/
def Shorter (r : Read) (stream stream' : List UInt8) : Prop :=
  stream'.length ≤ stream.length ∧ (r ≠ .again → stream ≠ [] → stream'.length < stream.length)

/-- What `readframe` makes of it: it goes on, or has a frame, or has met the end. -/
inductive After (tail : List UInt8) : List Frame → Return → Prop
  | go {rest : List Frame} {spc : Spc} {stream : List UInt8} :
      Mid tail rest spc stream → After tail rest ⟨0, spc, stream⟩
  | frame {f : Frame} {rest : List Frame} {spc : Spc} {stream : List UInt8} :
      (spc.hdr, spc.buf) = f.parts → Mid tail rest spc.resetbuf stream →
      After tail (f :: rest) ⟨1, spc, stream⟩
  | bad {spc : Spc} {stream : List UInt8} : tail ≠ [] → After tail [] ⟨-1, spc, stream⟩

section
variable {mem bs stream stream' tail : List UInt8} {off left k : ℕ} {f : Frame} {rest : List Frame}
variable {spc : Spc} {r : Read}

theorem length_overwrite (mem : List UInt8) (off : ℕ) (bs : List UInt8) (h : off + bs.length ≤ mem.length) :
    (overwrite mem off bs).length = mem.length := by
  simp only [overwrite, length_append, length_take, length_drop]
  omega

theorem take_overwrite (bs : List UInt8) (h : off ≤ mem.length) :
    (overwrite mem off bs).take (off + bs.length) = mem.take off ++ bs := by
  have hlen : off + bs.length = (mem.take off ++ bs).length := by
    rw [length_append, length_take, Nat.min_eq_left h]
  rw [overwrite, hlen, take_left]

theorem hostRead_data (h : hostRead left stream r = .data bs stream') (hleft : 0 < left) :
    ∃ n, 0 < n ∧ n ≤ left ∧ n ≤ stream.length ∧ bs = stream.take n ∧ stream' = stream.drop n := by
  cases r with
  | again | fail => cases h
  | take k =>
    rw [hostRead] at h
    split at h
    next => cases h
    next hne =>
      obtain ⟨rfl, rfl⟩ := Got.data.inj h
      have hpos : 0 < stream.length := length_pos_iff.mpr hne
      by_cases hle : min (k + 1) left ≤ stream.length
      · exact ⟨_, by omega, by omega, hle, rfl, rfl⟩
      · refine ⟨stream.length, hpos, by omega, le_rfl, ?_, ?_⟩
        · rw [take_length, take_of_length_le (by omega)]
        · rw [drop_length, drop_of_length_le (by omega)]

theorem hostRead_cases (stream : List UInt8) (hr : r ≠ .fail) (hleft : 0 < left) :
    hostRead left stream r = .again ∧ Shorter r stream stream ∨
      ∃ n, 0 < n ∧ n ≤ left ∧ n ≤ stream.length ∧ Shorter r stream (stream.drop n) ∧
        hostRead left stream r = .data (stream.take n) (stream.drop n) := by
  cases r with
  | again => exact .inl ⟨rfl, le_rfl, fun hput => absurd rfl hput⟩
  | fail => exact absurd rfl hr
  | take k =>
    by_cases hnil : stream = []
    · exact .inl ⟨if_pos hnil, le_rfl, fun _ hne => absurd hnil hne⟩
    · have hread : hostRead left stream (.take k) = .data _ _ := if_neg hnil
      obtain ⟨n, hpos, hle, hlen, hbs, hdrop⟩ := hostRead_data hread hleft
      rw [hbs, hdrop] at hread
      have hlt : (stream.drop n).length < stream.length := by
        rw [length_drop]
        omega
      exact .inr ⟨n, hpos, hle, hlen, ⟨hlt.le, fun _ _ => hlt⟩, hread⟩

theorem pending_cons : pending tail (f :: rest) = f.hdr ++ (f.body ++ pending tail rest) := by
  simp [pending, Frame.bytes]

theorem Mid.new {hdr : List UInt8} (h : hdr.length = hdrsz) :
    Mid tail rest ⟨hdr, none, 0⟩ (pending tail rest) :=
  .header h (by decide) rfl

/-- The next part of a region: what was in it before, and `n` more bytes of the stream. -/
theorem take_overwrite_next {n : ℕ} {all : List UInt8} (hk : mem.take k = all.take k)
    (hmem : k ≤ mem.length) (hn : n ≤ (all.drop k).length) :
    (overwrite mem k ((all.drop k).take n)).take (k + n) = all.take (k + n) := by
  have hlen : ((all.drop k).take n).length = n := by
    rw [length_take, Nat.min_eq_left hn]
  have htake := take_overwrite ((all.drop k).take n) hmem
  rw [hlen] at htake
  rw [htake, hk, ← take_add]

theorem readbody_after {b : List UInt8} (hlen : b.length = f.body.length) (hk : k < f.body.length)
    (hb : b.take k = f.body.take k) (hr : r ≠ .fail) :
    After tail (f :: rest)
        (readbody ⟨f.hdr, some b, hdrsz + k⟩ (f.body.drop k ++ pending tail rest) r) ∧
      Shorter r (f.body.drop k ++ pending tail rest)
        (readbody ⟨f.hdr, some b, hdrsz + k⟩ (f.body.drop k ++ pending tail rest) r).stream := by
  have hleft : rspLen f.hdr - (hdrsz + k) = f.body.length - k := by
    rw [f.len]
    omega
  unfold readbody
  simp only [hleft]
  rw [if_neg (by omega)]
  rcases hostRead_cases (f.body.drop k ++ pending tail rest) hr
    (by omega : 0 < f.body.length - k) with ⟨hread, hs⟩ | ⟨n, hpos, hle, -, hs, hread⟩
  case inl =>
    rw [hread]
    exact ⟨.go (.body hlen hk hb), hs⟩
  case inr =>
    have hdrop : n ≤ (f.body.drop k).length := by rwa [length_drop]
    have htake : (f.body.drop k ++ pending tail rest).take n = (f.body.drop k).take n :=
      take_append_of_le_length hdrop
    have hrest : (f.body.drop k ++ pending tail rest).drop n
        = f.body.drop (k + n) ++ pending tail rest := by
      rw [drop_append_of_le_length hdrop, drop_drop]
    have hn : ((f.body.drop k).take n).length = n := by
      rw [length_take, Nat.min_eq_left hdrop]
    have hnext := take_overwrite_next hb (by omega : k ≤ b.length) hdrop
    have hsize := length_overwrite b k ((f.body.drop k).take n) (by omega)
    rw [hrest] at hs
    simp only [hread, htake, hrest, Option.map_some, Nat.add_sub_cancel_left, hn, Nat.add_assoc]
    split
    next hall =>
      have hfull : k + n = f.body.length := by omega
      rw [hfull, take_length, ← hlen, ← hsize, take_length] at hnext
      have hne : f.body ≠ [] := by
        rintro hnil
        rw [hnil] at hk
        exact absurd hk (Nat.not_lt_zero k)
      refine ⟨.frame ?_ ?_, hs⟩
      · rw [Frame.parts, if_neg hne, hnext]
      · rw [hfull, drop_length, nil_append]
        exact .new f.hdr_length
    next hmore => exact ⟨.go (.body (hsize.trans hlen) (by omega) hnext), hs⟩

theorem Mid.readframe_after (h : Mid tail rest spc stream) (hend : Ending tail) {r : Read × Read}
    (h₁ : r.1 ≠ .fail) (h₂ : r.2 ≠ .fail) :
    After tail rest (readframe spc stream r) ∧ Shorter r.1 stream (readframe spc stream r).stream := by
  cases h with
  | body hlen hk hb =>
    rw [readframe, if_neg (by simp)]
    exact readbody_after hlen hk hb h₁
  | @header _ hdr k hlen hk hhdr =>
    unfold readframe
    rw [if_pos hk]
    rcases hostRead_cases ((pending tail rest).drop k) h₁ (by omega : 0 < hdrsz - k) with
      ⟨hread, hs⟩ | ⟨n, hpos, hle, hdrop, hs, hread⟩
    case inl =>
      rw [hread]
      exact ⟨.go (.header hlen hk hhdr), hs⟩
    case inr =>
      have hn : (((pending tail rest).drop k).take n).length = n := by
        rw [length_take, Nat.min_eq_left hdrop]
      have hnext := take_overwrite_next hhdr (by omega : k ≤ hdr.length) hdrop
      have hsize := length_overwrite hdr k (((pending tail rest).drop k).take n) (by omega)
      rw [length_drop] at hdrop
      rw [drop_drop] at hs
      simp only [hread, hn, drop_drop]
      split
      next hmore => exact ⟨.go (.header (hsize.trans hlen) hmore hnext), hs⟩
      next hall =>
        have hfull : k + n = hdrsz := by omega
        rw [hfull, ← hlen, ← hsize, take_length, hsize, hlen] at hnext
        rw [hfull] at hs
        rw [hfull, hnext]
        cases rest with
        | nil =>
          have hbad : rspLen ((pending tail []).take hdrsz) < hdrsz := by
            rcases hend with rfl | ⟨-, hbad⟩
            · simp only [pending, map_nil, flatten_nil, append_nil, length_nil] at hdrop
              omega
            · exact hbad
          rw [if_pos hbad]
          refine ⟨.bad ?_, hs⟩
          rintro rfl
          simp only [pending, map_nil, flatten_nil, append_nil, length_nil] at hdrop
          omega
        | cons f rest =>
          have hhead : (pending tail (f :: rest)).take hdrsz = f.hdr := by
            rw [pending_cons, ← f.hdr_length, take_left]
          have htail : (pending tail (f :: rest)).drop hdrsz = f.body ++ pending tail rest := by
            rw [pending_cons, ← f.hdr_length, drop_left]
          rw [htail] at hs
          rw [hhead, htail, f.len, if_neg (by omega)]
          split
          next hnone =>
            have hnil : f.body = [] := length_eq_zero_iff.mp (by omega)
            refine ⟨.frame ?_ ?_, hs⟩
            · rw [Frame.parts, if_pos hnil]
            · rw [hnil]
              exact .new f.hdr_length
          next hsome =>
            rw [Nat.add_sub_cancel_left]
            obtain ⟨hafter, hs₂⟩ := readbody_after (k := 0) (b := replicate f.body.length 0)
              length_replicate (by omega) rfl h₂
            exact ⟨hafter, hs₂.1.trans hs.1, fun hput hne => hs₂.1.trans_lt (hs.2 hput hne)⟩

theorem hdrsz_le_pending (tail : List UInt8) (f : Frame) (rest : List Frame) :
    hdrsz + tail.length ≤ (pending tail (f :: rest)).length := by
  rw [pending_cons]
  simp only [pending, length_append, f.hdr_length]
  omega

theorem Mid.tail_lt (h : Mid tail rest spc stream) :
    tail.length < stream.length + hdrsz ∧ (rest ≠ [] → tail.length < stream.length) := by
  cases h with
  | @header rest _ k _ hk =>
    rw [length_drop]
    cases rest with
    | nil =>
      refine ⟨?_, fun hne => absurd rfl hne⟩
      simp only [pending, map_nil, flatten_nil, nil_append]
      omega
    | cons f rest =>
      have hle := hdrsz_le_pending tail f rest
      exact ⟨by omega, fun _ => by omega⟩
  | @body f rest _ k _ hk =>
    simp only [length_append, length_drop, pending]
    exact ⟨by omega, fun _ => by omega⟩

end

/-- A run: the frames so far are those that were sent, and if the connection is closed then after all
of them. -/
def Along (tail : List UInt8) (fs : List Frame) (c : Conn) : Prop :=
  ∃ done rest, fs = done ++ rest ∧ c.frames = done.map Frame.parts ∧
    (c.closed = false ∧ Mid tail rest c.spc c.stream ∨ c.closed = true ∧ rest = [] ∧ tail ≠ [])

section
variable {tail : List UInt8} {fs : List Frame} {c : Conn} {r : Read × Read}

theorem Along.call (h : Along tail fs c) (hend : Ending tail) (h₁ : r.1 ≠ .fail) (h₂ : r.2 ≠ .fail) :
    Along tail fs (c.call r) := by
  obtain ⟨done, rest, rfl, hframes, ⟨hopen, hmid⟩ | ⟨hclosed, hrest⟩⟩ := h
  case inr =>
    rw [Conn.call, if_pos hclosed]
    exact ⟨done, rest, rfl, hframes, .inr ⟨hclosed, hrest⟩⟩
  case inl =>
    have hafter := (hmid.readframe_after hend h₁ h₂).1
    rw [Conn.call, hopen, if_neg Bool.false_ne_true]
    generalize readframe c.spc c.stream r = ret at hafter
    cases hafter with
    | go hmid' => exact ⟨done, rest, rfl, hframes, .inl ⟨rfl, hmid'⟩⟩
    | @frame f rest spc stream hparts hmid' =>
      refine ⟨done ++ [f], rest, by simp, ?_, .inl ⟨rfl, hmid'⟩⟩
      simp [hframes, hparts]
    | bad htail => exact ⟨done, [], rfl, hframes, .inr ⟨rfl, rfl, htail⟩⟩

theorem Conn.call_stream (h : c.closed = false) :
    (c.call r).stream = (readframe c.spc c.stream r).stream := by
  rw [Conn.call, h, if_neg Bool.false_ne_true]
  simp only
  split
  · rfl
  · split <;> rfl

theorem Conn.receive_closed (h : c.closed = true) (reads : List (Read × Read)) :
    c.receive reads = c := by
  induction reads with
  | nil => rfl
  | cons r reads ih =>
    have hcall : c.call r = c := if_pos h
    rw [Conn.receive, foldl_cons, hcall]
    exact ih

/-- The calls in which the first read gets something, if there is something. -/
def puts (reads : List (Read × Read)) : ℕ := reads.countP (·.1 ≠ .again)

/-- Every such call takes a byte from the stream, until the connection is closed. -/
theorem Along.receive (h : Along tail fs c) (hend : Ending tail) {reads : List (Read × Read)}
    (hreads : ∀ r ∈ reads, r.1 ≠ .fail ∧ r.2 ≠ .fail) :
    Along tail fs (c.receive reads) ∧ ((c.receive reads).closed = true ∨
      (c.receive reads).stream = [] ∨
      (c.receive reads).stream.length + puts reads ≤ c.stream.length) := by
  induction reads generalizing c with
  | nil => exact ⟨h, .inr (.inr le_rfl)⟩
  | cons r reads ih =>
    obtain ⟨h₁, h₂⟩ := hreads r mem_cons_self
    obtain ⟨hrun, hrest⟩ := ih (h.call hend h₁ h₂) fun r' hr' => hreads r' (mem_cons_of_mem r hr')
    refine ⟨hrun, ?_⟩
    rcases hrest with hclosed | hnil | hle
    · exact .inl hclosed
    · exact .inr (.inl hnil)
    · obtain ⟨done, rest, -, -, ⟨hopen, hmid⟩ | ⟨hclosed, -, -⟩⟩ := h
      case inr =>
        refine .inl ?_
        rwa [Conn.receive_closed hclosed]
      case inl =>
        obtain ⟨-, hshort, hlt⟩ := hmid.readframe_after hend h₁ h₂
        rw [Conn.call_stream hopen] at hle
        have hputs : puts (r :: reads) = puts reads + if r.1 ≠ .again then 1 else 0 := by
          simp [puts, countP_cons]
        rw [hputs]
        show _ ∨ ((c.call r).receive reads).stream = [] ∨ ((c.call r).receive reads).stream.length + _ ≤ _
        split
        next hput =>
          by_cases hnil : c.stream = []
          · have hzero : c.stream.length = 0 := length_eq_zero_iff.mpr hnil
            exact .inr (.inl (length_eq_zero_iff.mp (by omega)))
          · have := hlt hput hnil
            exact .inr (.inr (by omega))
        next => exact .inr (.inr (by omega))

/-- **Frames over a socket.**  However the stream is split, the frames come out as they were sent, all
of them as soon as there have been enough reads.  A header with a length that is too small ends the
connection, after the frames before it. -/
theorem frames_received (fs : List Frame) {hdr : List UInt8} (hhdr : hdr.length = hdrsz)
    {reads : List (Read × Read)} (hreads : ∀ r ∈ reads, r.1 ≠ .fail ∧ r.2 ≠ .fail) :
    (((Conn.new hdr (pending [] fs)).receive reads).closed = false ∧
      ((Conn.new hdr (pending [] fs)).receive reads).frames <+: fs.map Frame.parts ∧
      ((pending [] fs).length ≤ puts reads →
        ((Conn.new hdr (pending [] fs)).receive reads).frames = fs.map Frame.parts)) ∧
    ∀ bad junk, bad.length = hdrsz → rspLen bad < hdrsz →
      ((Conn.new hdr (pending (bad ++ junk) fs)).receive reads).frames <+: fs.map Frame.parts ∧
      ((pending bad fs).length ≤ puts reads →
        ((Conn.new hdr (pending (bad ++ junk) fs)).receive reads).closed = true ∧
        ((Conn.new hdr (pending (bad ++ junk) fs)).receive reads).frames = fs.map Frame.parts) := by
  have hstart : ∀ tail, Along tail fs (Conn.new hdr (pending tail fs)) :=
    fun tail => ⟨[], fs, rfl, rfl, .inl ⟨rfl, .new hhdr⟩⟩
  refine ⟨?_, fun bad junk hbad hsmall => ?_⟩
  · obtain ⟨⟨done, rest, rfl, hframes, hor⟩, hprog⟩ := (hstart []).receive (.inl rfl) hreads
    generalize (Conn.new hdr (pending [] (done ++ rest))).receive reads = c at *
    obtain ⟨hopen, hmid⟩ | ⟨-, -, hne⟩ := hor
    case inr => exact absurd rfl hne
    refine ⟨hopen, ?_, fun hputs => ?_⟩
    · rw [hframes, map_append]
      exact prefix_append _ _
    · have hempty : c.stream.length = 0 := by
        rcases hprog with hclosed | hnil | hle
        · simp [hopen] at hclosed
        · rw [hnil, length_nil]
        · simp only [Conn.new] at hle
          omega
      have hrest : rest = [] := by
        by_contra hne
        have := hmid.tail_lt.2 hne
        omega
      rw [hframes, hrest, append_nil]
  · have hlen : (pending (bad ++ junk) fs).length = (pending bad fs).length + junk.length := by
      simp only [pending, length_append]
      omega
    have hend : Ending (bad ++ junk) := by
      refine .inr ⟨by rw [length_append]; omega, ?_⟩
      rwa [← hbad, take_left, hbad]
    obtain ⟨⟨done, rest, rfl, hframes, hor⟩, hprog⟩ := (hstart (bad ++ junk)).receive hend hreads
    generalize (Conn.new hdr (pending (bad ++ junk) (done ++ rest))).receive reads = c at *
    refine ⟨?_, fun hputs => ?_⟩
    · rw [hframes, map_append]
      exact prefix_append _ _
    · obtain ⟨hopen, hmid⟩ | ⟨hclosed, hrest, -⟩ := hor
      case inr =>
        rw [hframes, hrest, append_nil]
        exact ⟨hclosed, rfl⟩
      case inl =>
        -- the connection is open: there are bytes of the header to come
        have hlt := hmid.tail_lt.1
        rw [length_append] at hlt
        rcases hprog with hclosed | hnil | hle
        · simp [hopen] at hclosed
        · rw [hnil, length_nil] at hlt
          omega
        · simp only [Conn.new] at hle
          omega

end

/-- A frame with a body of one byte. -/
def oneByte : Frame where
  hdr := 25 :: List.replicate 23 0
  body := [7]
  hdr_length := rfl
  len := by decide

/-- It is read byte by byte, with a read that is put off after each of them. -/
theorem frames_received_one :
    ((Conn.new (replicate 24 0) (pending [] [oneByte])).receive
      (replicate 25 (.take 0, .again))).frames = [oneByte.parts] := by
  have h := @frames_received [oneByte] (replicate 24 0) rfl (replicate 25 (.take 0, .again))
    (fun r hr => by rw [eq_of_mem_replicate hr]; exact ⟨by decide, by decide⟩)
  exact h.1.2.2 (by decide)

/-! ## Sending -/

/-- The lwps: the current one, those there are, and the next name. -/
structure Lwps where
  cur : Option ℕ
  live : List ℕ
  next : ℕ
  deriving DecidableEq, Repr

/-- `lwproc_newlwp`, which makes the new one current; process 1 is there. -/
def Lwps.newlwp (l : Lwps) : Lwps := ⟨some l.next, l.next :: l.live, l.next + 1⟩

/-- `lwproc_release` of the current one -/
def Lwps.release (l : Lwps) : Lwps := { l with cur := none, live := l.cur.elim l.live l.live.erase }

def Lwps.switch (l : Lwps) (lwp : ℕ) : Lwps := { l with cur := some lwp }

inductive Poll
  | ready
  | eintr
  | error (errno : ℕ+)
  deriving DecidableEq, Repr

/-- What `host_sendmsg` does: it takes at most `k + 1` bytes, or none, or fails. -/
inductive Send
  | taken (k : ℕ)
  | none
  | eagain
  | error (errno : ℕ+)
  deriving DecidableEq, Repr

/-- A call of the loop returns. -/
inductive Outcome
  | poll (p : Poll)
  | send (r : Send)
  deriving DecidableEq, Repr

/-- `ENOTCONN` -/
def enotconn : ℕ := 57

/-- `while (n >= iov[0].iov_len && iovlen)` -/
def skip : ℕ → List (List UInt8) → ℕ × List (List UInt8)
  | n, [] => (n, [])
  | n, v :: vs => if v.length ≤ n then skip (n - v.length) vs else (n, v :: vs)

/-- Where an outcome leads: to the next call, which is `host_poll` if `n` is not zero, or out. -/
inductive Next
  | loop (iov : List (List UInt8)) (polls : Bool)
  | out (error : ℕ)

/-- The rest of the round after `host_sendmsg`: the bytes that are taken, and how it goes on.
`EPIPE` becomes `ENOTCONN` and then `EPIPE` again. -/
def sendmsg (iov : List (List UInt8)) : Send → List UInt8 × Next
  | .eagain => ([], .loop iov true)
  | .error errno => ([], .out errno)
  | .none => ([], .out enotconn)
  | .taken k =>
    let count := min (k + 1) iov.flatten.length
    if count = 0 then ([], .out enotconn)
    else
      match skip count iov with
      | (_, []) => (iov.flatten.take count, .out 0)
      | (n, v :: vs) => (iov.flatten.take count, .loop (v.drop n :: vs) (n ≠ 0))

/-- What the loop makes of an outcome of the call that it is at. -/
def round (iov : List (List UInt8)) : Bool → Outcome → Option (List UInt8 × Next)
  | false, .send r => some (sendmsg iov r)
  | true, .poll .ready => some ([], .loop iov false)
  | true, .poll .eintr => some ([], .loop iov true)
  | true, .poll (.error errno) => some ([], .out errno)
  | _, _ => none

/-- What has been handed over, and what `dosend` returns, if it does. -/
structure Sent where
  bytes : List UInt8
  error : Option ℕ
  deriving DecidableEq, Repr

/-- The loop of `dosend`.  Where the outcomes end, the call is still waiting. -/
def sendLoop : List Outcome → List (List UInt8) → Bool → List UInt8 → Sent
  | [], _, _, sent => ⟨sent, none⟩
  | o :: os, iov, polls, sent =>
    match round iov polls o with
    | none => ⟨sent, none⟩
    | some (bs, .loop iov polls) => sendLoop os iov polls (sent ++ bs)
    | some (bs, .out error) => ⟨sent ++ bs, some error⟩

/-- `dosend`, whose first round does not poll.  The errors go past the release of the lwp. -/
def dosend (l : Lwps) (iov : List (List UInt8)) (os : List Outcome) : Sent × Lwps :=
  let mylwp := l.cur
  let l := l.newlwp
  let sent := sendLoop os iov false []
  if sent.error = some 0 then
    let l := l.release
    (sent, mylwp.elim l l.switch)
  else (sent, l)

/-- There are `left` bytes to send and the socket takes them all: until then, `host_poll` is ready
or interrupted, and `host_sendmsg` takes some or says `EAGAIN`. -/
def served : ℕ → List Outcome → Bool
  | left, .send (.taken k) :: os => left ≠ 0 && (left ≤ k + 1 || served (left - (k + 1)) os)
  | left, .send .eagain :: os => served left os
  | left, .poll .ready :: os => served left os
  | left, .poll .eintr :: os => served left os
  | _, _ => false

theorem skip_flatten (n : ℕ) (iov : List (List UInt8)) :
    iov.flatten.drop n = (skip n iov).2.flatten.drop (skip n iov).1 ∧
      ∀ v vs, (skip n iov).2 = v :: vs → (skip n iov).1 < v.length := by
  induction iov generalizing n with
  | nil => exact ⟨rfl, fun v vs h => absurd h (by simp [skip])⟩
  | cons v vs ih =>
    rw [skip]
    split
    next hle =>
      obtain ⟨hdrop, hhead⟩ := ih (n - v.length)
      refine ⟨?_, hhead⟩
      rw [flatten_cons, drop_append, drop_of_length_le hle, nil_append, hdrop]
    next hlt =>
      refine ⟨rfl, ?_⟩
      rintro v' vs' heq
      obtain ⟨rfl, -⟩ := cons.inj heq
      exact not_le.mp hlt

/-- What a round hands over is the front of the buffers; it leaves the rest, and whether that is
served, or ends with zero if there is none. -/
def Next.Fits (iov : List (List UInt8)) (o : Outcome) : List UInt8 × Next → Prop
  | (bs, .loop iov' _) => iov.flatten = bs ++ iov'.flatten ∧
      ∀ os, served iov.flatten.length (o :: os) = served iov'.flatten.length os
  | (bs, .out error) => bs <+: iov.flatten ∧ (error = 0 → bs = iov.flatten) ∧
      ∀ os, served iov.flatten.length (o :: os) = decide (error = 0)

theorem fits_out {iov : List (List UInt8)} {o : Outcome} {error : ℕ} (h : error ≠ 0)
    (ho : ∀ os, served iov.flatten.length (o :: os) = false) : Next.Fits iov o ([], .out error) :=
  ⟨ nil_prefix, fun h0 => absurd h0 h, fun os => by rw [ho os, decide_eq_false h]⟩

theorem sendmsg_fits (iov : List (List UInt8)) (r : Send) :
    Next.Fits iov (.send r) (sendmsg iov r) := by
  cases r with
  | eagain => exact ⟨(nil_append _).symm, fun _ => rfl⟩
  | error errno => exact fits_out (PNat.ne_zero errno) fun _ => rfl
  | none => exact fits_out (by decide) fun _ => rfl
  | taken k =>
    obtain ⟨hdrop, hhead⟩ := skip_flatten (min (k + 1) iov.flatten.length) iov
    have hsplit := take_append_drop (min (k + 1) iov.flatten.length) iov.flatten
    unfold sendmsg
    simp only
    split
    next h0 =>
      have hnone : iov.flatten.length = 0 := by omega
      exact fits_out (by decide) fun os => by simp [served, hnone]
    next h0 =>
      have hsome : iov.flatten.length ≠ 0 := by omega
      split
      next n heq =>
        rw [heq, flatten_nil, drop_nil] at hdrop
        rw [hdrop, append_nil] at hsplit
        have hall : iov.flatten.length ≤ k + 1 := by
          have := drop_eq_nil_iff.mp hdrop
          omega
        refine ⟨ take_prefix _ _, fun _ => hsplit, fun os => ?_⟩
        rw [served, decide_eq_true hsome, decide_eq_true hall]
        rfl
      next n v vs heq =>
        have hlt := hhead v vs (by rw [heq])
        rw [heq] at hdrop hlt
        rw [hdrop, flatten_cons, drop_append_of_le_length hlt.le] at hsplit
        refine ⟨hsplit.symm, fun os => ?_⟩
        -- something is left, so the call took as much as it could
        have hlen := congrArg length hsplit
        have hmore : (v.drop n).length ≠ 0 := by
          rw [length_drop]
          exact (Nat.sub_pos_of_lt hlt).ne'
        simp only [length_append, length_take, flatten_cons] at hlen ⊢
        have hrest : iov.flatten.length - (k + 1) = (v.drop n).length + vs.flatten.length := by omega
        have hshort : ¬ iov.flatten.length ≤ k + 1 := by omega
        rw [served, decide_eq_true hsome, decide_eq_false hshort, hrest]
        rfl

theorem round_fits {iov : List (List UInt8)} {polls : Bool} {o : Outcome}
    {next : List UInt8 × Next} (h : round iov polls o = some next) : Next.Fits iov o next := by
  unfold round at h
  split at h <;> cases h
  · exact sendmsg_fits iov _
  · exact ⟨(nil_append _).symm, fun _ => rfl⟩
  · exact ⟨(nil_append _).symm, fun _ => rfl⟩
  · exact fits_out (PNat.ne_zero _) fun _ => rfl

/-- What is handed over is a prefix, and all if the loop ends with zero, which it does if all is
served. -/
theorem sendLoop_bytes (os : List Outcome) (iov : List (List UInt8)) (polls : Bool)
    (sent : List UInt8) :
    (sendLoop os iov polls sent).bytes <+: sent ++ iov.flatten ∧
      ((sendLoop os iov polls sent).error = some 0 →
        (sendLoop os iov polls sent).bytes = sent ++ iov.flatten) ∧
      ∀ e, (sendLoop os iov polls sent).error = some e →
        (e = 0 ↔ served iov.flatten.length os = true) := by
  induction os generalizing iov polls sent with
  | nil => exact ⟨prefix_append _ _, nofun, nofun⟩
  | cons o os ih =>
    rw [sendLoop]
    split
    next => exact ⟨prefix_append _ _, nofun, nofun⟩
    next bs iov' polls' heq =>
      obtain ⟨hsplit, hserved⟩ := round_fits heq
      rw [hserved, hsplit, ← append_assoc]
      exact ih iov' polls' (sent ++ bs)
    next bs error heq =>
      obtain ⟨hpre, hall, hserved⟩ := round_fits heq
      refine ⟨(prefix_append_right_inj sent).mpr hpre, fun h => ?_, fun e he => ?_⟩
      · rw [hall (Option.some.inj h)]
      · rw [hserved, ← Option.some.inj he, decide_eq_true_iff]

/-- **What `dosend` leaves behind.**  The lwps are as before exactly if the socket took it all. -/
theorem dosend_iff (l : Lwps) (iov : List (List UInt8)) (os : List Outcome) :
    (dosend l iov os).1.bytes <+: iov.flatten ∧
      ((dosend l iov os).1.error = some 0 → (dosend l iov os).1.bytes = iov.flatten) ∧
      ∀ e, (dosend l iov os).1.error = some e →
        ((dosend l iov os).2.cur = l.cur ∧ (dosend l iov os).2.live = l.live ↔
          served iov.flatten.length os = true) := by
  obtain ⟨hpre, hall, hserved⟩ := sendLoop_bytes os iov false []
  unfold dosend
  simp only
  split
  next h0 =>
    refine ⟨hpre, hall, fun e he => ?_⟩
    refine iff_of_true ?_ ((hserved 0 h0).mp rfl)
    cases hcur : l.cur with
    | none => simp [Lwps.newlwp, Lwps.release]
    | some lwp => simp [Lwps.newlwp, Lwps.release, Lwps.switch]
  next h0 =>
    refine ⟨hpre, fun h => absurd h h0, fun e he => ?_⟩
    refine iff_of_false (fun hsame => ?_) fun h => h0 ?_
    · have hlen := congrArg length hsame.2
      simp [Lwps.newlwp] at hlen
    · rw [he, (hserved e he).mpr h]

/-- A reset connection: the call returns an error, with an lwp too many, and on it. -/
theorem dosend_reset :
    dosend ⟨some 3, [3], 4⟩ [[1, 2]] [.send (.error 54)] = (⟨[], some 54⟩, ⟨some 4, [4, 3], 5⟩) := by
  rfl

end Librettos.Sysproxy
