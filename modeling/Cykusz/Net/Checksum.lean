import Mathlib
import Cykusz.Lib.OnesComplement
import Cykusz.Net.Tcp.Socket

/-!
# The Internet checksum

`net::util::checksum`. `calc_checksum` adds the 16-bit words of a byte string, read in network byte
order, into a `u32`, an odd last byte counting as the high byte of a word; `make` folds the carries
above bit 15 back in and complements the result; `make_combine` does so for the sum of partial
sums. `PseudoHeader::new` builds the pseudo-header of TCP and UDP from the IP header; an `Ip4` is
its four bytes on the wire (`ip4Bytes`, `ip4OfBytes`).

`calc_checksum` is the plain sum of the words (`calcChecksum_eq_sum`), and `make` is the complement
of its `norm` (`make_toNat`): the carries are those RFC 1071 defers. The `u32` of `calc_checksum`
takes the sum of a packet without wrapping: it is at most `0xFFFF` for each word
(`calcChecksum_le`), far below `2 ^ 32` for a packet whose length fits the 16-bit length field.
-/

namespace Cykusz.Net.Checksum

open OnesComplement Tcp

/-- The four bytes `v` of an `Ip4`, the first the most significant byte of the address. -/
def ip4Bytes (ip : Ip4) : List UInt8 := be32 (UInt32.ofBitVec ip.addr)

/-- `Ip4 { v: [a, b, c, d] }`. -/
def ip4OfBytes (a b c d : UInt8) : Ip4 := ⟨a.toBitVec ++ b.toBitVec ++ c.toBitVec ++ d.toBitVec⟩

/-- `IpType`, a byte on the wire. -/
inductive IpType
  | icmp
  | tcp
  | udp
deriving DecidableEq, Repr

def IpType.toUInt8 : IpType → UInt8
  | .icmp => 1
  | .tcp => 6
  | .udp => 17

/-- The fields of `IpHeader` that the checksums of TCP and UDP read. -/
structure IpHeader where
  len : UInt16
  protocol : IpType
  srcIp : Ip4
  destIp : Ip4

/-- `core::mem::size_of::<IpHeader>()`. -/
def ipHeaderSize : ℕ := 20

/-- `PseudoHeader`, `repr(C, packed)`. -/
structure PseudoHeader where
  srcIp : Ip4
  dstIp : Ip4
  zero : UInt8
  prot : IpType
  len : UInt16

/-- `PseudoHeader::new`: the length is the IP packet's, less the IP header (`u16` arithmetic). -/
def PseudoHeader.new (ipHdr : IpHeader) : PseudoHeader :=
  ⟨ipHdr.srcIp, ipHdr.destIp, 0, ipHdr.protocol, ipHdr.len - ipHeaderSize.toUInt16⟩

/-- The twelve bytes of a `PseudoHeader`. -/
def PseudoHeader.bytes (p : PseudoHeader) : List UInt8 :=
  ip4Bytes p.srcIp ++ ip4Bytes p.dstIp ++ [p.zero, p.prot.toUInt8] ++ be16 p.len

/-- The `NetU16` at word `i` of `data`. -/
def wordAt (data : List UInt8) (i : ℕ) : ℕ :=
  (data.getD (2 * i) 0).toNat * 256 + (data.getD (2 * i + 1) 0).toNat

/-- `calc_checksum`: the words `0 … data.len() / 2 - 1`, then an odd last byte shifted to the high
half. -/
def calcChecksum (data : List UInt8) : ℕ :=
  let sum := ∑ i ∈ Finset.range (data.length / 2), wordAt data i
  if data.length % 2 = 1 then sum + (data.getLast?.getD 0).toNat <<< 8 else sum

/-- The loop of `make`: while the sum has a carry above bit 15, the carry is added back at
bit 0. -/
def foldCarries (sum : ℕ) : ℕ :=
  let carry := sum >>> 16
  if carry > 0 then foldCarries ((sum &&& 0xffff) + carry) else sum
termination_by sum
decreasing_by
  rename_i hcarry
  rw [Nat.and_two_pow_sub_one_eq_mod sum 16, Nat.shiftRight_eq_div_pow] at *
  omega

/-- `make`: the complement of the folded sum. -/
def make (sum : ℕ) : UInt16 := ~~~(foldCarries sum).toUInt16

/-- `make_combine`: `make` of the sum of partial sums. -/
def makeCombine (a : List ℕ) : UInt16 := make a.sum

/-- `calc_ref` of a `PseudoHeader`: `calc_checksum` of its bytes. -/
def calcRef (p : PseudoHeader) : ℕ := calcChecksum p.bytes

/-! ## The sum -/

@[simp]
theorem length_ip4Bytes (ip : Ip4) : (ip4Bytes ip).length = 4 := rfl

@[simp]
theorem PseudoHeader.length_bytes (p : PseudoHeader) : p.bytes.length = 12 := rfl

/-- An address read back from its four bytes is the address. -/
theorem ip4OfBytes_ip4Bytes (ip : Ip4) :
    ip4OfBytes (ip4Bytes ip)[0] (ip4Bytes ip)[1] (ip4Bytes ip)[2] (ip4Bytes ip)[3] = ip := by
  obtain ⟨x⟩ := ip
  simp only [ip4Bytes, be32, ip4OfBytes, List.getElem_cons_zero, List.getElem_cons_succ,
    Ip4.mk.injEq]
  ext i hi
  simp only [UInt32.toBitVec_toUInt8, UInt32.toBitVec_shiftRight, BitVec.getElem_append,
    BitVec.getElem_setWidth]
  -- each byte is the address shifted down by its place, its bit `i` the address's
  split_ifs <;> rw [← BitVec.getLsbD_eq_getElem hi] <;>
    simp only [UInt32.toBitVec_ofNat, BitVec.ofNat_eq_ofNat, BitVec.reduceMod,
      BitVec.ushiftRight_eq', BitVec.toNat_ofNat, Nat.reducePow, Nat.reduceMod,
      BitVec.getLsbD_ushiftRight] <;>
    congr 1 <;> omega

theorem wordAt_cons_cons (a b : UInt8) (rest : List UInt8) (i : ℕ) :
    wordAt (a :: b :: rest) (i + 1) = wordAt rest i := by
  simp only [wordAt, Nat.mul_add, Nat.mul_one, List.getD_cons_succ]

/-- One turn of the loop of `calc_checksum`. -/
theorem calcChecksum_cons_cons (a b : UInt8) (rest : List UInt8) :
    calcChecksum (a :: b :: rest) = a.toNat * 256 + b.toNat + calcChecksum rest := by
  have hlen : (a :: b :: rest).length / 2 = rest.length / 2 + 1 := by simp; omega
  have hodd : (a :: b :: rest).length % 2 = rest.length % 2 := by simp; omega
  -- an odd `rest` is not empty, so the last byte is its own
  have hlast : rest.length % 2 = 1 → (a :: b :: rest).getLast? = rest.getLast? := by
    intro h
    cases rest with
    | nil => simp at h
    | cons c rest => simp [List.getLast?_cons]
  unfold calcChecksum
  simp only [hlen, hodd, Finset.sum_range_succ', wordAt_cons_cons]
  split_ifs with h
  · rw [hlast h, wordAt]
    simp only [Nat.mul_zero, List.getD_cons_zero, Nat.zero_add, List.getD_cons_succ]
    omega
  · simp only [wordAt, Nat.mul_zero, List.getD_cons_zero, Nat.zero_add, List.getD_cons_succ]
    omega

/-- `calc_checksum` is the plain sum of the words of the data. -/
theorem calcChecksum_eq_sum (data : List UInt8) : calcChecksum data = (beWords data).sum := by
  induction data using beWords.induct with
  | case1 a b rest ih => rw [calcChecksum_cons_cons, ih, beWords, List.sum_cons]
  | case2 a => simp [calcChecksum, beWords, Nat.shiftLeft_eq]
  | case3 => simp [calcChecksum, beWords]

/-- The `u32` of `calc_checksum` holds at most `0xFFFF` for each word. -/
theorem calcChecksum_le (data : List UInt8) :
    calcChecksum data ≤ (data.length + 1) / 2 * 0xFFFF := by
  rw [calcChecksum_eq_sum]
  exact sum_beWords_le data

/-! ## Folding and complementing -/

/-- The loop of `make` ends with the `norm` of the sum. -/
theorem foldCarries_eq_norm (sum : ℕ) : foldCarries sum = norm 16 sum := by
  induction sum using foldCarries.induct with
  | case1 sum carry hcarry ih =>
    rw [foldCarries, if_pos hcarry, ih]
    simp only [carry, Nat.and_two_pow_sub_one_eq_mod sum 16, Nat.shiftRight_eq_div_pow] at hcarry ⊢
    exact norm_fold (by omega)
  | case2 sum carry hcarry =>
    rw [foldCarries, if_neg hcarry]
    simp only [carry, Nat.shiftRight_eq_div_pow] at hcarry
    exact (norm_of_lt (by omega)).symm

/-- `make` is the ones' complement of the `norm` of the sum. -/
theorem make_toNat (sum : ℕ) : (make sum).toNat = 0xFFFF - norm 16 sum := by
  have hle : norm 16 sum ≤ 0xFFFF := norm_le (by decide)
  rw [make, UInt16.toNat_not, foldCarries_eq_norm, Nat.toUInt16, UInt16.toNat_ofNat',
    Nat.mod_eq_of_lt (by omega)]
  rfl

end Cykusz.Net.Checksum
