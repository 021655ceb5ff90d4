/-
# `Xen.Demux` — which frontend gets a packet

`backend_receive` decides by the bytes of a frame to which frontends it is forwarded: TCP and
UDP packets by the port map of the hypervisor, ARP requests and packets to the ports 0 and
0xFFFF to all of them.  The first part of this file is that function; the second one says where
the header of an IPv4 packet has its destination port, and to whom the packet should go.

The code reads the port at the fixed offset 36, and in a header with options that is one of
them (`receive_misled`).  The ports 0 and 0xFFFF reach the indices below `frontend_dom`, and these
are the connected frontends only where all of them were new ones (see `Xen.Backend`).  The
packet goes where it should exactly if the two bytes there select what the port does
(`receive_follows_header`), and they do if there are no options (`agrees_newcomers`).

The entries of the port map are under the port as a little-endian host loads it from the
packet, which is the port with its two bytes swapped.
-/
import Librettos.Xen.Backend

namespace Librettos.Demux

/-! ## The code -/

/-- `BMK_ENOENT` -/
def enoent : Nat := 2

/-- `BMK_EINVAL` -/
def einval : Nat := 22

/-- The data of an mbuf; its length is `m_len`. -/
abbrev Data := List UInt8

def Data.byte (data : Data) (i : Nat) : UInt8 := data.getD i 0

/-- `*(uint16_t *) (data + i)` -/
def Data.load16 (data : Data) (i : Nat) : BitVec 16 :=
  (data.byte (i + 1)).toBitVec ++ (data.byte i).toBitVec

/-- `_ETHERTYPE_SWAP` -/
def ethertypeSwap (x : BitVec 16) : BitVec 16 := x <<< 8 ||| x >>> 8

/-- `ETHERTYPE_IP` -/
def ethertypeIp : BitVec 16 := ethertypeSwap 0x0800

/-- `ETHERTYPE_ARP` -/
def ethertypeArp : BitVec 16 := ethertypeSwap 0x0806

/-- The `dom` fields of a port map; the index is as it is loaded from a packet. -/
abbrev Portmap := BitVec 16 → BitVec 32

/-- A packet for everybody. -/
def broadcast (frontendDom : Nat) : Nat × List Nat := (enoent, List.range frontendDom)

/-- `backend_receive`: what it returns, and the indices it calls `backend_forward_send`
with. -/
def backendReceive (tcpPortmap udpPortmap : Portmap) (frontendDom : Nat) (data : Data) :
    Nat × List Nat :=
  if data.length < 38 then (einval, [])
  else
    let type := data.load16 12
    if type = ethertypeIp then
      if data.byte 23 = 0x06 then deliver tcpPortmap
      else if data.byte 23 = 0x11 then deliver udpPortmap
      else (enoent, [])
    else if type = ethertypeArp then broadcast frontendDom
    else (enoent, [])
where
  /-- from the port number on -/
  deliver (portmap : Portmap) : Nat × List Nat :=
    let port := data.load16 36
    if port = 0 ∨ port = 0xFFFF then broadcast frontendDom
    else
      let appDom := portmap port
      if appDom = -1 then (enoent, []) else (0, [appDom.toNat])

/-! ## The header -/

/-- Where the IPv4 header starts, behind the Ethernet header. -/
def ipStart : Nat := 14

def version (data : Data) : Nat := (data.byte ipStart).toNat / 16

/-- The header length field, in words of four bytes. -/
def ihl (data : Data) : Nat := (data.byte ipStart).toNat % 16

def protocol (data : Data) : UInt8 := data.byte (ipStart + 9)

/-- Neither the more-fragments flag nor a fragment offset. -/
def Unfragmented (data : Data) : Prop :=
  (data.byte (ipStart + 6)).toNat % 64 = 0 ∧ data.byte (ipStart + 7) = 0

instance (data : Data) : Decidable (Unfragmented data) := inferInstanceAs (Decidable (_ ∧ _))

/-- Where the TCP or UDP header starts. -/
def transportStart (data : Data) : Nat := ipStart + 4 * ihl data

/-- The destination port, in network byte order. -/
def destPort (data : Data) : BitVec 16 :=
  (data.byte (transportStart data + 2)).toBitVec ++ (data.byte (transportStart data + 3)).toBitVec

/-- The frame has an unfragmented IPv4 packet with TCP or UDP, with its header and its ports
inside the mbuf. -/
structure Carries (data : Data) : Prop where
  etherType : data.byte 12 = 0x08 ∧ data.byte 13 = 0x00
  version : version data = 4
  ihl : 5 ≤ ihl data
  protocol : protocol data = 0x06 ∨ protocol data = 0x11
  unfragmented : Unfragmented data
  inside : transportStart data + 4 ≤ data.length

instance (data : Data) : Decidable (Carries data) :=
  decidable_of_iff ((data.byte 12 = 0x08 ∧ data.byte 13 = 0x00) ∧ version data = 4 ∧ 5 ≤ ihl data ∧
      (protocol data = 0x06 ∨ protocol data = 0x11) ∧ Unfragmented data ∧
      transportStart data + 4 ≤ data.length)
    ⟨fun ⟨h1, h2, h3, h4, h5, h6⟩ => ⟨h1, h2, h3, h4, h5, h6⟩,
      fun ⟨h1, h2, h3, h4, h5, h6⟩ => ⟨h1, h2, h3, h4, h5, h6⟩⟩

/-- The port is one of those that all frontends listen to. -/
abbrev Everybody (port : BitVec 16) : Prop := port = 0 ∨ port = 0xFFFF

abbrev Broadcast (data : Data) : Prop := Everybody (destPort data)

/-- The port map of the packet's protocol. -/
def portmapOf (tcpPortmap udpPortmap : Portmap) (data : Data) : Portmap :=
  if protocol data = 0x06 then tcpPortmap else udpPortmap

/-- The entry of the packet's protocol for its destination port. -/
def entry (tcpPortmap udpPortmap : Portmap) (data : Data) : BitVec 32 :=
  portmapOf tcpPortmap udpPortmap data (ethertypeSwap (destPort data))

/-- The packet is for the frontend with the index `dom`. -/
def Target (tcpPortmap udpPortmap : Portmap) (connected : Nat → Prop) (data : Data) (dom : Nat) :
    Prop :=
  (Broadcast data ∧ connected dom) ∨
    (¬ Broadcast data ∧ entry tcpPortmap udpPortmap data ≠ -1 ∧
      dom = (entry tcpPortmap udpPortmap data).toNat)

/-- Two port numbers, as they are loaded, select the same frontends: the first one, if it is for
everybody, the `count` first indices, the second one those that are connected.  Where one of them
is for everybody and the other is not, it is a coincidence. -/
def Agrees (portmap : Portmap) (count : Nat) (connected : Nat → Prop) (read port : BitVec 16) : Prop :=
  if Everybody read then
    if Everybody port then ∀ dom, connected dom ↔ dom < count
    else portmap port = -1 ∧ count = 0 ∨ portmap port = 0 ∧ count = 1
  else
    if Everybody port then ∀ dom, connected dom ↔ portmap read ≠ -1 ∧ dom = (portmap read).toNat
    else portmap read = portmap port

section
variable {data : Data} {tcpPortmap udpPortmap portmap : Portmap} {frontendDom : Nat}
  {connected : Nat → Prop}

theorem ethertypeSwap_append (a b : UInt8) :
    ethertypeSwap (a.toBitVec ++ b.toBitVec) = b.toBitVec ++ a.toBitVec := by
  refine BitVec.eq_of_getLsbD_eq fun i hi => ?_
  simp only [ethertypeSwap, BitVec.getLsbD_or, BitVec.getLsbD_shiftLeft,
    BitVec.getLsbD_ushiftRight, BitVec.getLsbD_append]
  rcases Nat.lt_or_ge i 8 with hlow | hhigh
  · simp [hlow]
  · have hzero : a.toBitVec.getLsbD i = false := BitVec.getLsbD_of_ge _ _ hhigh
    have hb : i - 8 < 8 := by omega
    simp [Nat.not_lt.mpr hhigh, hi, hzero, hb]

theorem ethertypeSwap_involutive : Function.Involutive ethertypeSwap := by
  intro x
  refine BitVec.eq_of_getLsbD_eq fun i hi => ?_
  simp only [ethertypeSwap, BitVec.getLsbD_or, BitVec.getLsbD_shiftLeft, BitVec.getLsbD_ushiftRight]
  rcases Nat.lt_or_ge i 8 with hlow | hhigh
  · have hzero : x.getLsbD (8 + (8 + i)) = false := BitVec.getLsbD_of_ge _ _ (by omega)
    have hlt : 8 + i < 16 := by omega
    simp [hlow, hzero, hlt]
  · have hzero : x.getLsbD (8 + (8 + i)) = false := BitVec.getLsbD_of_ge _ _ (by omega)
    have hlow : i - 8 < 8 := by omega
    have hadd : 8 + (i - 8) = i := by omega
    have hge : ¬ 8 + i < 16 := by omega
    simp [Nat.not_lt.mpr hhigh, hi, hlow, hadd, hzero, hge]

theorem Carries.type (h : Carries data) : data.load16 12 = ethertypeIp := by
  rw [Data.load16, h.etherType.1, h.etherType.2]
  decide

/-- Without options the port is where the code reads it. -/
theorem load16_destPort (h : ihl data = 5) : data.load16 36 = ethertypeSwap (destPort data) := by
  rw [destPort, ethertypeSwap_append, transportStart, h]
  rfl

theorem everybody_swap {port : BitVec 16} : Everybody (ethertypeSwap port) ↔ Everybody port := by
  rw [Everybody, ethertypeSwap_involutive.eq_iff, ethertypeSwap_involutive.eq_iff]
  rfl

theorem mem_deliver {dom : Nat} :
    dom ∈ (backendReceive.deliver frontendDom data portmap).2 ↔
      (Everybody (data.load16 36) ∧ dom < frontendDom) ∨
        (¬ Everybody (data.load16 36) ∧ portmap (data.load16 36) ≠ -1 ∧
          dom = (portmap (data.load16 36)).toNat) := by
  rw [backendReceive.deliver]
  by_cases hb : Everybody (data.load16 36)
  · rw [if_pos hb]
    simp [broadcast, hb]
  · rw [if_neg hb]
    dsimp only
    split
    · next hnone => simp [hb, hnone]
    · next hsome => simp only [hb, hsome, List.mem_singleton, ne_eq, not_false_eq_true, true_and,
        false_and, false_or]

theorem backendReceive_carries (h : Carries data) :
    backendReceive tcpPortmap udpPortmap frontendDom data =
      backendReceive.deliver frontendDom data (portmapOf tcpPortmap udpPortmap data) := by
  have hlen : ¬ data.length < 38 := by
    have := h.inside
    have := h.ihl
    rw [transportStart, ipStart] at *
    omega
  have hproto : data.byte 23 = protocol data := rfl
  simp only [backendReceive, portmapOf, hlen, if_false, h.type, if_true, hproto]
  split
  · rfl
  · next hudp => rw [if_pos (h.protocol.resolve_left hudp)]

/-- A single index, or none, are the first ones only as the index 0 or as none. -/
theorem lt_iff_single {e : BitVec 32} {count : Nat} :
    (∀ dom, dom < count ↔ e ≠ -1 ∧ dom = e.toNat) ↔ e = -1 ∧ count = 0 ∨ e = 0 ∧ count = 1 := by
  constructor
  · intro h
    by_cases he : e = -1
    · have h0 := h 0
      exact .inl ⟨he, by simpa [he] using h0⟩
    · have hmem := (h e.toNat).mpr ⟨he, rfl⟩
      have hzero := ((h 0).mp (by omega)).2
      have hone : ¬ 1 < count := fun h1 => by have := ((h 1).mp h1).2; omega
      exact .inr ⟨BitVec.eq_of_toNat_eq hzero.symm, by omega⟩
  · rintro (⟨rfl, rfl⟩ | ⟨rfl, rfl⟩) dom
    · simp
    · simp

/-- Two entries select the same index only if they are the same. -/
theorem single_iff_single {e e' : BitVec 32} :
    (∀ dom, e ≠ -1 ∧ dom = e.toNat ↔ e' ≠ -1 ∧ dom = e'.toNat) ↔ e = e' := by
  refine ⟨fun h => ?_, fun h dom => by rw [h]⟩
  by_cases he : e = -1
  · by_contra hne
    exact absurd ((h e'.toNat).mpr ⟨fun h' => hne (he.trans h'.symm), rfl⟩).1 (not_not.mpr he)
  · exact BitVec.eq_of_toNat_eq ((h e.toNat).mp ⟨he, rfl⟩).2

theorem deliver_iff_agrees :
    (∀ dom, dom ∈ (backendReceive.deliver frontendDom data (portmapOf tcpPortmap udpPortmap data)).2 ↔
      Target tcpPortmap udpPortmap connected data dom) ↔
    Agrees (portmapOf tcpPortmap udpPortmap data) frontendDom connected (data.load16 36)
      (ethertypeSwap (destPort data)) := by
  simp only [mem_deliver, Target, entry, Agrees, everybody_swap]
  by_cases hread : Everybody (data.load16 36) <;> by_cases hport : Broadcast data
  all_goals simp only [hread, hport, not_true, not_false_iff, true_and, false_and, or_false,
    false_or, if_true, if_false]
  · exact forall_congr' fun _ => iff_comm
  · exact lt_iff_single
  · exact forall_congr' fun _ => iff_comm
  · exact single_iff_single

end

section
open Backend
variable {F : Type} {data : Data} {tcpPortmap udpPortmap : Portmap}

/-- The index belongs to a connected frontend. -/
def Connected (s : State F) (dom : Nat) : Prop := ∃ f, (f, dom) ∈ s.conn

theorem connected_iff {s : State F} (h : Assigned s) {dom : Nat} :
    Connected s dom ↔ dom < s.frontendDom := by
  rw [← List.mem_range, ← h.dom, List.mem_map]
  constructor
  · rintro ⟨f, hf⟩
    exact ⟨_, hf, rfl⟩
  · rintro ⟨⟨f, d⟩, hf, rfl⟩
    exact ⟨f, hf⟩

/-- **The port is followed.**  A packet is forwarded to the frontend that its port map has for
its destination port, to nobody if there is no entry, and on the ports 0 and 0xFFFF to all
connected frontends, exactly if the 16 bits at the offset 36 select what its port selects. -/
theorem receive_follows_header {s : State F} (hcarries : Carries data) :
    (∀ dom, dom ∈ (backendReceive tcpPortmap udpPortmap s.frontendDom data).2 ↔
      Target tcpPortmap udpPortmap (Connected s) data dom) ↔
    Agrees (portmapOf tcpPortmap udpPortmap data) s.frontendDom (Connected s) (data.load16 36)
      (ethertypeSwap (destPort data)) := by
  rw [backendReceive_carries hcarries]
  exact deliver_iff_agrees

/-- They do in a header without options, where on the ports 0 and 0xFFFF all frontends that are
connected were new ones. -/
theorem agrees_newcomers [DecidableEq F] {s : State F} (hihl : ihl data = 5)
    (hnew : Broadcast data → Trans.Reach step newcomer Init s) :
    Agrees (portmapOf tcpPortmap udpPortmap data) s.frontendDom (Connected s) (data.load16 36)
      (ethertypeSwap (destPort data)) := by
  rw [load16_destPort hihl, Agrees]
  split
  next hport =>
    have hinv : Assigned s := Trans.Reach.inv (I := Assigned) (fun _ h => assigned_init h)
      (fun _ _ _ h hok hstep => h.step hok hstep) (hnew (everybody_swap.mp hport))
    exact fun dom => connected_iff hinv
  next => rfl

end

/-- A TCP packet with the given bytes of the header's first word, of its options and of its
destination port. -/
def tcpFrame (first : UInt8) (options : List UInt8) (port : List UInt8) : Data :=
  List.replicate 12 0 ++ [0x08, 0x00] ++ [first] ++ List.replicate 8 0 ++ [0x06] ++
    List.replicate 10 0 ++ options ++ [0x30, 0x39] ++ port

/-- Two applications: the one with the index 2 on port 80, the one with the index 5 on port
257. -/
def twoApps : Portmap := fun key =>
  if key = ethertypeSwap 80 then 2 else if key = ethertypeSwap 257 then 5 else -1

/-- A packet with options that spell its port. -/
theorem receive_follows_header_web : Carries (tcpFrame 0x46 [0, 0, 0, 80] [0, 80]) ∧
    ∀ dom, dom ∈ (backendReceive twoApps twoApps 0 (tcpFrame 0x46 [0, 0, 0, 80] [0, 80])).2 ↔
      Target twoApps twoApps (Connected (Backend.backendInit fun _ => (none : Option ℕ)))
        (tcpFrame 0x46 [0, 0, 0, 80] [0, 80]) dom := by
  refine ⟨by decide, (receive_follows_header (by decide)).mpr ?_⟩
  rw [Agrees, if_neg (by decide), if_neg (by decide)]
  decide

/-- **The port is missed.**  With one word of options (four no-operations) a packet to port
80 goes to the application on port 257, and not to that on port 80.  A packet without options
to port 0xFFFF does not reach a frontend that has reconnected. -/
theorem receive_misled :
    (Carries (tcpFrame 0x46 [1, 1, 1, 1] [0, 80]) ∧
      Target twoApps twoApps (fun _ => False) (tcpFrame 0x46 [1, 1, 1, 1] [0, 80]) 2 ∧
      backendReceive twoApps twoApps 0 (tcpFrame 0x46 [1, 1, 1, 1] [0, 80]) = (0, [5])) ∧
    ∃ s : Backend.State ℕ, Trans.Reach Backend.step Trans.any Backend.Init s ∧ Connected s 0 ∧
      Carries (tcpFrame 0x45 [] [0xFF, 0xFF]) ∧ Broadcast (tcpFrame 0x45 [] [0xFF, 0xFF]) ∧
      backendReceive twoApps twoApps s.frontendDom (tcpFrame 0x45 [] [0xFF, 0xFF]) = (enoent, []) := by
  refine ⟨⟨by decide, .inr ⟨by decide, by decide, by decide⟩, by decide⟩, ?_⟩
  obtain ⟨s, hreach, hconn, hdom⟩ := Trans.any_finds Backend.step Backend.Init
    (fun s => s.conn = [(7, 0)] ∧ s.frontendDom = 0) [(7, 1)] Backend.init_one (by decide)
  refine ⟨s, hreach, ⟨7, by simp [hconn]⟩, by decide, by decide, ?_⟩
  rw [hdom]
  decide

end Librettos.Demux
