import Mathlib
import Cykusz.Net.Checksum

/-!
# TCP segments on the wire

`TcpHeader` as its bytes on the wire, and the functions of `net::tcp` that make a segment and send
it. `create_packet` asks IP for a packet of the segment's length, and sets the ports and the header
length in the memory the driver gave; the caller fills in the rest of the header and the payload;
`send_packet` sets the checksum (`TcpHeader::calc_checksum`) and hands the packet down to IP.

A receiver checks a segment as RFC 793 says: the ones'-complement sum of the pseudo-header (source,
destination, zero, protocol, TCP length) and of the whole segment, checksum included, is all ones
(`ChecksumVerifies`). Every segment `send_packet` sends passes the check
(`send_packet_checksum_verifies`), whatever its header and its payload, of odd or even length, as
long as the packet's length fits the IP length field. The checksum field is a word of its own
(`sum_setChecksum`), and the sum it completes is the one the receiver takes.
-/

namespace Cykusz.Net.Tcp

open OnesComplement Checksum

/-- `TcpHeader`, `repr(C, packed)`: its fields are `NetU16` and `NetU32`. -/
structure TcpHeader where
  srcPort : UInt16
  dstPort : UInt16
  seqNr : UInt32
  ackNr : UInt32
  flags : UInt16
  window : UInt16
  checksum : UInt16
  urgentPtr : UInt16
deriving DecidableEq, Repr

namespace TcpHeader

/-- The twenty bytes of a `TcpHeader`. -/
def bytes (h : TcpHeader) : List UInt8 :=
  be16 h.srcPort ++ be16 h.dstPort ++ be32 h.seqNr ++ be32 h.ackNr ++ be16 h.flags ++
    be16 h.window ++ be16 h.checksum ++ be16 h.urgentPtr

/-- `TcpHeader::set_header_len`: bits 12 to 15 of the flags hold the length in words. -/
def setHeaderLen (h : TcpHeader) (len : UInt8) : TcpHeader :=
  { h with flags := (h.flags &&& (0x0fff : UInt16)) ||| ((len.toUInt16 / 4) <<< 12) }

/-- `TcpHeader::calc_checksum`: the checksum of the pseudo-header and of the IP packet's length,
less the IP header, of bytes from the TCP header on, taken with the checksum field zero.
`calc_ref_len` reads memory from the header on; here that is the header and the payload. -/
def calcChecksum (h : TcpHeader) (data : List UInt8) (ip : IpHeader) : TcpHeader :=
  let h := { h with checksum := 0 }
  { h with
    checksum := makeCombine [calcRef (PseudoHeader.new ip),
      Checksum.calcChecksum ((h.bytes ++ data).take (ip.len.toNat - ipHeaderSize))] }

@[simp]
theorem length_bytes (h : TcpHeader) : h.bytes.length = 20 := rfl

/-- The checksum field is one word of the segment's sum. -/
theorem sum_setChecksum (h : TcpHeader) (c : UInt16) (data : List UInt8) :
    (beWords ({ h with checksum := c }.bytes ++ data)).sum =
      (beWords ({ h with checksum := 0 }.bytes ++ data)).sum + c.toNat := by
  simp only [bytes, List.append_assoc, beWords_be16_append, beWords_be32_append, List.sum_cons,
    UInt16.toNat_zero]
  omega

end TcpHeader

/-- A `Packet<Tcp>` as IP sends it: the IP header, the TCP header and the payload. -/
structure TcpPacket where
  ip : IpHeader
  header : TcpHeader
  data : List UInt8

/-- The bytes of the TCP segment: the header, then the payload. -/
def TcpPacket.segment (p : TcpPacket) : List UInt8 := p.header.bytes ++ p.data

/-- `tcp::create_packet`, with the header and the payload the driver's memory held (`size` is the
payload's length): `ip::create_packet` sets the IP length to the TCP header and payload with the
IP header (`u16` arithmetic), the protocol and the addresses; then the ports and the header length
are set. -/
def createPacket (srcPort dstPort : UInt16) (target srcIp : Ip4) (hdr : TcpHeader)
    (data : List UInt8) : TcpPacket :=
  let totalLen := data.length + 20
  let ip : IpHeader := ⟨(totalLen + ipHeaderSize).toUInt16, .tcp, srcIp, target⟩
  let header := { hdr with dstPort := dstPort, srcPort := srcPort }.setHeaderLen 20
  ⟨ip, header, data⟩

/-- `tcp::send_packet`: the checksum is set, and the packet goes to IP. -/
def sendPacket (packet : TcpPacket) : TcpPacket :=
  { packet with header := packet.header.calcChecksum packet.data packet.ip }

/-- The receiver's check of a TCP segment from `src` to `dst` (RFC 793): the ones'-complement sum
of the pseudo-header and the whole segment is all ones. -/
def ChecksumVerifies (src dst : Ip4) (segment : List UInt8) : Prop :=
  onesSum 16 (beWords (ip4Bytes src ++ ip4Bytes dst ++ [0, IpType.tcp.toUInt8] ++
    be16 segment.length.toUInt16 ++ segment)) = 0xFFFF

instance (src dst : Ip4) (segment : List UInt8) : Decidable (ChecksumVerifies src dst segment) :=
  inferInstanceAs (Decidable (_ = _))

/-! ## The checksum of a segment -/

section Send

variable {ip : IpHeader} {h : TcpHeader} {data : List UInt8}

/-- The pseudo-header `send_packet` sums, for a TCP packet whose IP length is right, is the one the
receiver rebuilds from the segment. -/
theorem pseudoHeader_bytes (hprot : ip.protocol = .tcp) (hlen : ip.len.toNat = 40 + data.length) :
    (PseudoHeader.new ip).bytes = ip4Bytes ip.srcIp ++ ip4Bytes ip.destIp ++
      [0, IpType.tcp.toUInt8] ++ be16 (20 + data.length).toUInt16 := by
  have hsub : ip.len - ipHeaderSize.toUInt16 = (20 + data.length).toUInt16 := by
    have := ip.len.toNat_lt
    apply UInt16.toNat_inj.mp
    rw [UInt16.toNat_sub_of_le]
    all_goals simp only [ipHeaderSize, Nat.toUInt16, UInt16.toNat_ofNat', UInt16.le_iff_toNat_le]
    all_goals omega
  simp only [PseudoHeader.new, PseudoHeader.bytes, hprot, hsub]

/-- The bytes `send_packet` sums from the header on are the whole segment. -/
theorem take_segment (hlen : ip.len.toNat = 40 + data.length) :
    (h.bytes ++ data).take (ip.len.toNat - ipHeaderSize) = h.bytes ++ data := by
  apply List.take_of_length_le
  simp only [List.length_append, TcpHeader.length_bytes, ipHeaderSize]
  omega

/-- A TCP packet whose IP length is its header and payload with the IP header passes the
receiver's check once `send_packet` has set its checksum. -/
theorem sendPacket_verifies (hprot : ip.protocol = .tcp) (hlen : ip.len.toNat = 40 + data.length) :
    ChecksumVerifies ip.srcIp ip.destIp (sendPacket ⟨ip, h, data⟩).segment := by
  set P := (PseudoHeader.new ip).bytes with hP
  -- the sum `send_packet` completes: the pseudo-header's and the segment's with a zero checksum
  set S := (beWords P).sum + (beWords ({ h with checksum := 0 }.bytes ++ data)).sum with hS
  set c := (sendPacket ⟨ip, h, data⟩).header.checksum with hc_def
  have hc : c.toNat = 0xFFFF - norm 16 S := by
    simp only [hc_def, sendPacket, TcpHeader.calcChecksum, makeCombine, calcRef, make_toNat,
      List.sum_cons, List.sum_nil, Nat.add_zero, take_segment hlen, calcChecksum_eq_sum]
    rfl
  have hseg : (sendPacket ⟨ip, h, data⟩).segment = { h with checksum := c }.bytes ++ data := rfl
  have hsegLen : (sendPacket ⟨ip, h, data⟩).segment.length = 20 + data.length := by
    simp [hseg]
  have hPeven : Even P.length := ⟨6, by simp [P]⟩
  unfold ChecksumVerifies
  rw [hsegLen, ← pseudoHeader_bytes hprot hlen, ← hP, onesSum_eq_norm (by decide) beWords_lt,
    beWords_append _ hPeven, List.sum_append, hseg, TcpHeader.sum_setChecksum, hc,
    ← Nat.add_assoc, ← hS]
  exact norm_add_compl (w := 16) (by decide) S

/-- `create_packet` sets the IP length to the segment with the IP header, when that fits. -/
theorem len_createPacket (srcPort dstPort : UInt16) (target srcIp : Ip4) (hdr : TcpHeader)
    (hlen : 40 + data.length < 2 ^ 16) :
    (createPacket srcPort dstPort target srcIp hdr data).ip.len.toNat = 40 + data.length := by
  simp only [createPacket, ipHeaderSize, Nat.toUInt16, UInt16.toNat_ofNat']
  omega

/-- Every segment `create_packet` makes and `send_packet` sends, whatever the caller wrote in its
header and payload, passes the receiver's checksum check. -/
theorem send_packet_checksum_verifies (srcPort dstPort : UInt16) (target srcIp : Ip4)
    (hdr : TcpHeader) (payload : List UInt8) (fill : TcpHeader → TcpHeader)
    (hlen : 40 + payload.length < 2 ^ 16) :
    let p := createPacket srcPort dstPort target srcIp hdr payload
    let sent := sendPacket { p with header := fill p.header }
    ChecksumVerifies sent.ip.srcIp sent.ip.destIp sent.segment :=
  sendPacket_verifies rfl (len_createPacket srcPort dstPort target srcIp hdr hlen)

/-- A SYN from `10.0.0.1:1234` to `10.0.0.2:80` with three bytes of payload. -/
theorem send_packet_checksum_verifies_odd :
    40 + [1, 2, 3].length < 2 ^ 16 ∧
      let p := createPacket 1234 80 ⟨0x0A000002⟩ ⟨0x0A000001⟩ ⟨0, 0, 0, 0, 0, 0, 0, 0⟩ [1, 2, 3]
      let h := p.header
      let sent := sendPacket { p with header := { h with seqNr := 7, window := 1024, flags := h.flags ||| 2 } }
      ChecksumVerifies sent.ip.srcIp sent.ip.destIp sent.segment :=
  ⟨by decide, send_packet_checksum_verifies 1234 80 ⟨0x0A000002⟩ ⟨0x0A000001⟩
    ⟨0, 0, 0, 0, 0, 0, 0, 0⟩ [1, 2, 3]
    (fun h => { h with seqNr := 7, window := 1024, flags := h.flags ||| 2 }) (by decide)⟩

end Send

end Cykusz.Net.Tcp
