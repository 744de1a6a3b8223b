import Mathlib
import Cykusz.Net.Checksum
import Cykusz.Net.Dns

/-!
# DHCP options

A received `DhcpHeader` carries its options in a 64-byte field, after a 4-byte magic cookie.
`OptionsIter` walks them: a zero byte is padding, `255` ends them, and any other byte is the code of
an option, followed by a length byte and that many bytes of value. `find` runs the iterator to the
first option with a code; `opt_subnet`, `opt_router` and `opt_dns` read the first four bytes of its
value as an address, and `process_packet` answers an offer, or configures the interface from an
acknowledgement.

The iterator keeps its pointer and the length left in step (`next_eq_some`), so every value it
yields ends within the window it started with (`find_bounded`). That window starts after the
cookie but has the whole field's length, 64, and so reaches four bytes past the field; and the
length bytes are trusted. An option at the start with length byte 62 has a value that runs past
the field; with 63 the assertion of `shift_inplace` fails; and an acknowledgement whose router
option is empty makes `opt_router` index past the value (`options_unchecked`). The three accessors
do return an address only from a value of four bytes or more (`optIp4_eq_some`).

`send_discovery` and `process_offer` fill the field of the header they send with an
`OptionsBuilder`: the cookie, one option after another, and `finish`'s `255`. Every chain of its
setters that fits leaves a field the iterator reads back, each code answered with the first value
written for it (`finds_of_written`), and the two messages the client sends carry their type, and the
request its address (`discovery_and_request_read_back`).
-/

namespace Cykusz.Net.Dhcp

open OnesComplement Tcp Checksum
open Dns (Written ok_bind)

/-- How the code panics: the assertion of `shift_inplace`, or a slice index out of bounds. -/
inductive Panic
  | assertion
  | indexOutOfBounds (len index : ℕ)
deriving DecidableEq, Repr

/-- The fields of a received `DhcpHeader` that `process_packet` reads. -/
structure DhcpHeader where
  yourIp : Ip4
  options : Vector UInt8 64

/-- The memory from the start of `options` on: the field, then whatever follows the header. -/
def DhcpHeader.mem (h : DhcpHeader) (after : ℕ → UInt8) (i : ℕ) : UInt8 :=
  if hi : i < 64 then h.options[i] else after (i - 64)

/-- `OptionsIter`: its pointer, as an offset from the start of `options`, and the length left. -/
structure OptionsIter where
  ptr : ℕ
  len : ℕ
deriving DecidableEq, Repr

/-- An option as `next` yields it: its code, and its value as a slice, a pointer and a length. -/
structure DhcpOption where
  code : UInt8
  start : ℕ
  len : ℕ
deriving DecidableEq, Repr

/-- `DhcpHeader::iter`: after the magic cookie, with the length of the whole field. -/
def iter : OptionsIter := ⟨4, 64⟩

namespace OptionsIter

variable {mem : ℕ → UInt8} {it it' : OptionsIter} {n : ℕ} {o : DhcpOption}

/-- `OptionsIter::shift_inplace`. -/
def shiftInplace (it : OptionsIter) (n : ℕ) : Except Panic OptionsIter :=
  if it.len ≥ n then .ok ⟨it.ptr + n, it.len - n⟩ else .error .assertion

theorem shiftInplace_eq_ok (h : it.shiftInplace n = .ok it') :
    n ≤ it.len ∧ it' = ⟨it.ptr + n, it.len - n⟩ := by
  unfold shiftInplace at h
  split_ifs at h with hn
  · exact ⟨hn, (Except.ok.inj h).symm⟩

theorem shiftInplace_of_le (h : n ≤ it.len) : it.shiftInplace n = .ok ⟨it.ptr + n, it.len - n⟩ := by
  rw [shiftInplace, if_pos h]

/-- `OptionsIter::next`: padding is skipped, `255` ends the options, and any other code is read
with its length byte, the iterator moving past the value. -/
def next (mem : ℕ → UInt8) (it : OptionsIter) : Except Panic (Option (DhcpOption × OptionsIter)) :=
  if it.len > 0 then
    if mem it.ptr = 0 then
      match _hs : it.shiftInplace 1 with
      | .ok it' => next mem it'
      | .error e => .error e
    else if mem it.ptr = 255 then .ok none
    else
      let len := mem (it.ptr + 1)
      let ptr := it.ptr + 2
      match it.shiftInplace (2 + len.toNat) with
      | .ok it' => .ok (some (⟨mem it.ptr, ptr, len.toNat⟩, it'))
      | .error e => .error e
  else .ok none
termination_by it.len
decreasing_by
  obtain ⟨-, rfl⟩ := shiftInplace_eq_ok _hs
  simp only
  omega

/-! ### One call of `next` -/

theorem next_of_len_eq_zero (h : it.len = 0) : it.next mem = .ok none := by
  rw [next, if_neg (by omega)]

theorem next_of_pad (h : 0 < it.len) (h0 : mem it.ptr = 0) :
    it.next mem = next mem ⟨it.ptr + 1, it.len - 1⟩ := by
  rw [next, if_pos h, if_pos h0]
  split
  · next it'' hs' => rw [shiftInplace_of_le h] at hs'; cases hs'; rfl
  · next e hs' => rw [shiftInplace_of_le h] at hs'; cases hs'

theorem next_of_end (h : 0 < it.len) (h255 : mem it.ptr = 255) : it.next mem = .ok none := by
  rw [next, if_pos h, if_neg (by rw [h255]; decide), if_pos h255]

theorem next_of_option (h : 0 < it.len) (h0 : mem it.ptr ≠ 0) (h255 : mem it.ptr ≠ 255)
    (hfit : 2 + (mem (it.ptr + 1)).toNat ≤ it.len) :
    it.next mem = .ok (some (⟨mem it.ptr, it.ptr + 2, (mem (it.ptr + 1)).toNat⟩,
      ⟨it.ptr + (2 + (mem (it.ptr + 1)).toNat), it.len - (2 + (mem (it.ptr + 1)).toNat)⟩)) := by
  rw [next, if_pos h, if_neg h0, if_neg h255]
  simp only [shiftInplace_of_le hfit]

theorem next_of_overlong (h : 0 < it.len) (h0 : mem it.ptr ≠ 0) (h255 : mem it.ptr ≠ 255)
    (hlong : it.len < 2 + (mem (it.ptr + 1)).toNat) : it.next mem = .error .assertion := by
  rw [next, if_pos h, if_neg h0, if_neg h255]
  simp only [shiftInplace, if_neg (show ¬it.len ≥ 2 + (mem (it.ptr + 1)).toNat by omega)]

/-- An option `next` yields lies past the pointer, in the window left, and the iterator moves to
its end: the pointer and the length left keep their sum. -/
theorem next_eq_some (h : it.next mem = .ok (some (o, it'))) :
    it.ptr + 2 ≤ o.start ∧ o.start + o.len = it'.ptr ∧ it'.ptr + it'.len = it.ptr + it.len ∧
      it'.len < it.len := by
  induction it using next.induct mem with
  | case1 it hlen h0 it'' hs ih =>
    obtain ⟨-, rfl⟩ := shiftInplace_eq_ok hs
    rw [next_of_pad hlen h0] at h
    have := ih h
    simp only at this
    omega
  | case2 it hlen h0 e hs =>
    rw [shiftInplace_of_le hlen] at hs
    cases hs
  | case3 it hlen h0 h255 => rw [next_of_end hlen h255] at h; cases h
  | case4 it hlen h0 h255 len it'' hs =>
    -- `len` is the length byte, bound by a `let` of the body
    dsimp only [len] at hs
    obtain ⟨hfit, rfl⟩ := shiftInplace_eq_ok hs
    rw [next_of_option hlen h0 h255 hfit] at h
    cases h
    simp only
    omega
  | case5 it hlen h0 h255 len e hs =>
    dsimp only [len] at hs
    rw [next, if_pos hlen, if_neg h0, if_neg h255] at h
    simp only [hs] at h
    cases h
  | case6 it hlen => rw [next_of_len_eq_zero (by omega)] at h; cases h

/-- `Iterator::find` on the options, for a code. -/
def find (mem : ℕ → UInt8) (code : UInt8) (it : OptionsIter) : Except Panic (Option DhcpOption) :=
  match _h : it.next mem with
  | .ok (some (o, it')) => if o.code = code then .ok (some o) else find mem code it'
  | .ok none => .ok none
  | .error e => .error e
termination_by it.len
decreasing_by exact (next_eq_some _h).2.2.2

theorem find_of_next (h : it.next mem = .ok (some (o, it'))) (code : UInt8) :
    it.find mem code = if o.code = code then .ok (some o) else it'.find mem code := by
  rw [find]
  split
  · next o' it'' h' => rw [h] at h'; cases h'; rfl
  · next h' => rw [h] at h'; cases h'
  · next e h' => rw [h] at h'; cases h'

/-- Every option `find` returns lies in the window the iterator started with. -/
theorem find_bounded {code : UInt8} (h : it.find mem code = .ok (some o)) :
    it.ptr + 2 ≤ o.start ∧ o.start + o.len ≤ it.ptr + it.len := by
  induction it using find.induct mem code with
  | case1 it o' it' hn hcode =>
    rw [find_of_next hn, if_pos hcode] at h
    cases h
    have := next_eq_some hn
    omega
  | case2 it o' it' hn hcode ih =>
    rw [find_of_next hn, if_neg hcode] at h
    have := next_eq_some hn
    have := ih h
    omega
  | case3 it hn => rw [find, hn] at h; cases h
  | case4 it e hn =>
    rw [find] at h
    split at h <;> simp_all

end OptionsIter

open OptionsIter

/-- `opt_message_type`: the byte at the start of the value of option 53, read through the slice's
pointer whatever its length. -/
def optMessageType (mem : ℕ → UInt8) : Except Panic (Option UInt8) :=
  (iter.find mem 53).map (Option.map fun o => mem o.start)

/-- The address in the value of the option with a code: `[ptr[0], ptr[1], ptr[2], ptr[3]]`, each
index checked against the slice's length. -/
def optIp4 (mem : ℕ → UInt8) (code : UInt8) : Except Panic (Option Ip4) :=
  match iter.find mem code with
  | .ok (some o) =>
    if o.len < 4 then .error (.indexOutOfBounds o.len o.len)
    else .ok (some (ip4OfBytes (mem o.start) (mem (o.start + 1)) (mem (o.start + 2))
      (mem (o.start + 3))))
  | .ok none => .ok none
  | .error e => .error e

/-- `opt_subnet`. -/
def optSubnet (mem : ℕ → UInt8) : Except Panic (Option Ip4) := optIp4 mem 1

/-- `opt_router`. -/
def optRouter (mem : ℕ → UInt8) : Except Panic (Option Ip4) := optIp4 mem 3

/-- `opt_dns`. -/
def optDns (mem : ℕ → UInt8) : Except Panic (Option Ip4) := optIp4 mem 6

/-- An accessor returns an address only from a value of four bytes or more, inside the iterator's
window. -/
theorem optIp4_eq_some {mem : ℕ → UInt8} {code : UInt8} {ip : Ip4}
    (h : optIp4 mem code = .ok (some ip)) :
    ∃ o, iter.find mem code = .ok (some o) ∧ 4 ≤ o.len ∧ 6 ≤ o.start ∧ o.start + o.len ≤ 68 := by
  unfold optIp4 at h
  split at h
  · next o ho =>
    split_ifs at h with hlen
    have := find_bounded ho
    exact ⟨o, ho, by omega, this.1, this.2⟩
  · cases h
  · cases h

/-- What `process_packet` does with a packet. -/
inductive Action
  /-- `process_offer`: a request for the offered address goes out. -/
  | request (ip : Ip4)
  /-- `process_ack` configures the interface: address, gateway, subnet mask and name server. -/
  | configure (ip gw subnet dns : Ip4)
  | ignore

/-- `process_ack`: the router, the subnet and the name server, in that order. -/
def processAck (h : DhcpHeader) (mem : ℕ → UInt8) : Except Panic Action := do
  let myIp := h.yourIp
  let defaultGw ← optRouter mem
  let subnet ← optSubnet mem
  let dns ← optDns mem
  match defaultGw, subnet, dns with
  | some dg, some sb, some dns => pure (.configure myIp dg sb dns)
  | _, _, _ => pure .ignore

/-- `process_packet`: the message type's byte is read as `DhcpOptMsgType`, whose `DhcpOffer` is `2`
and `DhcpAck` is `5`. -/
def processPacket (h : DhcpHeader) (after : ℕ → UInt8) : Except Panic Action := do
  let mem := h.mem after
  match ← optMessageType mem with
  | some mtype =>
    if mtype = 2 then pure (.request h.yourIp)
    else if mtype = 5 then processAck h mem
    else pure .ignore
  | none => pure .ignore

/-! ## Length bytes the iterator trusts -/

theorem mem_of_lt {h : DhcpHeader} {after : ℕ → UInt8} {i : ℕ} (hi : i < 64) :
    h.mem after i = h.options[i] := by
  rw [DhcpHeader.mem, dif_pos hi]

/-- Three options fields a server may send. A first option whose length byte is 62 has a value that
runs four bytes past the field; one with 63 fails the assertion of `shift_inplace`; and an
acknowledgement whose router option is empty makes `process_packet` panic. -/
theorem options_unchecked (h : DhcpHeader) (after : ℕ → UInt8) (c : UInt8) (hc : c ≠ 0 ∧ c ≠ 255) :
    (h.options[4] = c → h.options[5] = 62 →
      iter.next (h.mem after) = .ok (some (⟨c, 6, 62⟩, ⟨68, 0⟩))) ∧
    (h.options[4] = c → h.options[5] = 63 → iter.next (h.mem after) = .error .assertion) ∧
    (h.options[4] = 53 → h.options[5] = 1 → h.options[6] = 5 → h.options[7] = 3 →
      h.options[8] = 0 → processPacket h after = .error (.indexOutOfBounds 0 0)) := by
  refine ⟨fun h4 h5 => ?_, fun h4 h5 => ?_, fun h4 h5 h6 h7 h8 => ?_⟩
  · have hc4 : h.mem after 4 = c := (mem_of_lt (by decide)).trans h4
    have hl5 : h.mem after 5 = 62 := (mem_of_lt (by decide)).trans h5
    rw [iter, next_of_option (by decide) (by rw [hc4]; exact hc.1) (by rw [hc4]; exact hc.2)
      (by rw [hl5]; decide), hc4, hl5]
    rfl
  · have hc4 : h.mem after 4 = c := (mem_of_lt (by decide)).trans h4
    have hl5 : h.mem after 5 = 63 := (mem_of_lt (by decide)).trans h5
    exact next_of_overlong (by decide) (by rw [iter, hc4]; exact hc.1)
      (by rw [iter, hc4]; exact hc.2)
      (by rw [iter, hl5]; decide)
  · -- option 53 of length 1 holds ACK; option 3 follows it, with length 0
    have m4 : h.mem after 4 = 53 := (mem_of_lt (by decide)).trans h4
    have m5 : h.mem after 5 = 1 := (mem_of_lt (by decide)).trans h5
    have m6 : h.mem after 6 = 5 := (mem_of_lt (by decide)).trans h6
    have m7 : h.mem after 7 = 3 := (mem_of_lt (by decide)).trans h7
    have m8 : h.mem after 8 = 0 := (mem_of_lt (by decide)).trans h8
    have first : iter.next (h.mem after) = .ok (some (⟨53, 6, 1⟩, ⟨7, 61⟩)) := by
      rw [iter, next_of_option (by decide) (by rw [m4]; decide) (by rw [m4]; decide)
        (by rw [m5]; decide), m4, m5]
      rfl
    have second : (⟨7, 61⟩ : OptionsIter).next (h.mem after) = .ok (some (⟨3, 9, 0⟩, ⟨9, 59⟩)) := by
      rw [next_of_option (by decide) (by rw [m7]; decide) (by rw [m7]; decide)
        (by rw [m8]; decide), m7, m8]
      rfl
    have htype : optMessageType (h.mem after) = .ok (some 5) := by
      rw [optMessageType, find_of_next first, if_pos rfl]
      simp only [Except.map, Option.map_some, m6]
    have hrouter : optRouter (h.mem after) = .error (.indexOutOfBounds 0 0) := by
      rw [optRouter, optIp4, find_of_next first, if_neg (by decide), find_of_next second,
        if_pos rfl]
      rfl
    simp only [processPacket, htype, processAck, hrouter]
    rfl

/-- An options field beginning with `l`, padded with zeros. -/
def optionsOf (l : List UInt8) : Vector UInt8 64 := Vector.ofFn fun i => l.getD i 0

/-- An offer whose first option claims 62 bytes. -/
def longOption : DhcpHeader := ⟨⟨0⟩, optionsOf [0x63, 0x82, 0x53, 0x63, 1, 62]⟩

/-- An offer whose first option claims 63 bytes. -/
def overlongOption : DhcpHeader := ⟨⟨0⟩, optionsOf [0x63, 0x82, 0x53, 0x63, 1, 63]⟩

/-- An acknowledgement with an empty router option. -/
def emptyRouterAck : DhcpHeader := ⟨⟨0⟩, optionsOf [0x63, 0x82, 0x53, 0x63, 53, 1, 5, 3, 0]⟩

theorem options_unchecked_offers :
    iter.next (longOption.mem fun _ => 0) = .ok (some (⟨1, 6, 62⟩, ⟨68, 0⟩)) ∧
      iter.next (overlongOption.mem fun _ => 0) = .error .assertion ∧
      processPacket emptyRouterAck (fun _ => 0) = .error (.indexOutOfBounds 0 0) :=
  ⟨(options_unchecked longOption _ 1 ⟨by decide, by decide⟩).1 rfl rfl,
    (options_unchecked overlongOption _ 1 ⟨by decide, by decide⟩).2.1 rfl rfl,
    (options_unchecked emptyRouterAck _ 1 ⟨by decide, by decide⟩).2.2 rfl rfl rfl rfl rfl⟩


/-! ## Writing the options -/

/-- `OptionsBuilder`: the memory from the start of `options` on, the offset of the next byte to
write, and the length left. -/
structure OptionsBuilder where
  mem : ℕ → UInt8
  ptr : ℕ
  len : ℕ

/-- `DhcpHeader::options_builder`: from the start of the field, with its whole length. -/
def optionsBuilder (mem : ℕ → UInt8) : OptionsBuilder := ⟨mem, 0, 64⟩

namespace OptionsBuilder

/-- Bytes stored from the next byte to write on; the pointer stays. -/
def write (b : OptionsBuilder) (l : List UInt8) : OptionsBuilder :=
  { b with mem := fun i => if b.ptr ≤ i then (l[i - b.ptr]?).getD (b.mem i) else b.mem i }

/-- `OptionsBuilder::shift`, with its assertion. -/
def shift (b : OptionsBuilder) (n : ℕ) : Except Panic OptionsBuilder :=
  if b.len ≥ n then .ok ⟨b.mem, b.ptr + n, b.len - n⟩ else .error .assertion

/-- `set_magic_cookie`: `0x63825363`, in network order. -/
def setMagicCookie (b : OptionsBuilder) : Except Panic OptionsBuilder :=
  (b.write (be32 0x63825363)).shift 4

/-- An option's code, its length byte and its value, and a shift past them. The setters but
`set_host_name` are this with their own code and value; the length bytes they write as literals,
`1`, `7` and `4`, are their values' lengths. -/
def setOption (b : OptionsBuilder) (code : UInt8) (value : List UInt8) :
    Except Panic OptionsBuilder :=
  (b.write (code :: value.length.toUInt8 :: value)).shift (value.length + 2)

/-- `set_message_type`. -/
def setMessageType (b : OptionsBuilder) (typ : UInt8) : Except Panic OptionsBuilder :=
  b.setOption 53 [typ]

/-- `set_client_identifier`: `HType::Ethernet`, then the six bytes `read_mac` fills in. -/
def setClientIdentifier (b : OptionsBuilder) (mac : Vector UInt8 6) :
    Except Panic OptionsBuilder :=
  b.setOption 61 (1 :: mac.toList)

/-- `set_requested_ip`. -/
def setRequestedIp (b : OptionsBuilder) (ip : Ip4) : Except Panic OptionsBuilder :=
  b.setOption 50 (ip4Bytes ip)

/-- `set_host_name`: the option, then a zero byte, which the shift passes too. -/
def setHostName (b : OptionsBuilder) (name : List UInt8) : Except Panic OptionsBuilder :=
  (b.write (12 :: name.length.toUInt8 :: name ++ [0])).shift (name.length + 3)

/-- `set_parameter_request_list`: subnet mask, router, domain name and name server. -/
def setParameterRequestList (b : OptionsBuilder) : Except Panic OptionsBuilder :=
  b.setOption 55 [1, 3, 15, 6]

/-- `finish`: `0xff`, then `len - 1` zeros. At `len = 0` the code's subtraction underflows; the
model's stops at zero. -/
def finish (b : OptionsBuilder) : ℕ → UInt8 :=
  (b.write (0xff :: List.replicate (b.len - 1) 0)).mem

end OptionsBuilder

open OptionsBuilder

/-- The header with the field `mem` holds. -/
def DhcpHeader.withOptions (h : DhcpHeader) (mem : ℕ → UInt8) : DhcpHeader :=
  { h with options := Vector.ofFn fun i => mem i }

/-- `"cykusz-os"`, in ASCII. -/
def hostName : List UInt8 := [0x63, 0x79, 0x6b, 0x75, 0x73, 0x7a, 0x2d, 0x6f, 0x73]

/-- The options of `send_discovery`, `mac` being the driver's address. -/
def discoveryHeader (h : DhcpHeader) (after : ℕ → UInt8) (mac : Vector UInt8 6) :
    Except Panic DhcpHeader := do
  let b ← (optionsBuilder (h.mem after)).setMagicCookie
  let b ← b.setMessageType 1
  let b ← b.setClientIdentifier mac
  let b ← b.setHostName hostName
  let b ← b.setParameterRequestList
  pure (h.withOptions b.finish)

/-- The options of `process_offer`, requesting `requestedIp`. -/
def requestHeader (h : DhcpHeader) (after : ℕ → UInt8) (mac : Vector UInt8 6)
    (requestedIp : Ip4) : Except Panic DhcpHeader := do
  let b ← (optionsBuilder (h.mem after)).setMagicCookie
  let b ← b.setMessageType 3
  let b ← b.setClientIdentifier mac
  let b ← b.setHostName hostName
  let b ← b.setRequestedIp requestedIp
  let b ← b.setParameterRequestList
  pure (h.withOptions b.finish)

/-! ### Chains of setters -/

/-- A call between `set_magic_cookie` and `finish`. -/
inductive Setter
  /-- `set_message_type`, `set_client_identifier`, `set_requested_ip` or
  `set_parameter_request_list` -/
  | option (code : UInt8) (value : List UInt8)
  /-- `set_host_name` -/
  | hostName (name : List UInt8)

namespace Setter

def apply (b : OptionsBuilder) : Setter → Except Panic OptionsBuilder
  | .option code value => b.setOption code value
  | .hostName name => b.setHostName name

/-- The bytes a setter writes. -/
def bytes : Setter → List UInt8
  | .option code value => code :: value.length.toUInt8 :: value
  | .hostName name => 12 :: name.length.toUInt8 :: name ++ [0]

/-- The value a setter writes for a code. -/
def valueOf (code : UInt8) : Setter → Option (List UInt8)
  | .option c value => if c = code then some value else none
  | .hostName name => if 12 = code then some name else none

/-- A setter the iterator reads back: a code that is neither padding nor the end, and a value
whose length fits its byte. -/
def WellFormed : Setter → Prop
  | .option code value => code ≠ 0 ∧ code ≠ 255 ∧ value.length < 256
  | .hostName name => name.length < 256

instance (s : Setter) : Decidable s.WellFormed := by
  cases s <;> unfold WellFormed <;> infer_instance

theorem apply_eq (s : Setter) (b : OptionsBuilder) :
    s.apply b = (b.write s.bytes).shift s.bytes.length := by
  cases s <;> simp [apply, bytes, setOption, setHostName, Nat.add_assoc]

end Setter

/-- A chain of setters on the header's field, after the cookie. -/
def DhcpHeader.buildOptions (h : DhcpHeader) (after : ℕ → UInt8) (setters : List Setter) :
    Except Panic DhcpHeader := do
  let b ← (optionsBuilder (h.mem after)).setMagicCookie
  let b ← setters.foldlM Setter.apply b
  pure (h.withOptions b.finish)

/-- The setters of `send_discovery`. -/
def discoverySetters (mac : Vector UInt8 6) : List Setter :=
  [.option 53 [1], .option 61 (1 :: mac.toList), .hostName hostName, .option 55 [1, 3, 15, 6]]

/-- The setters of `process_offer`. -/
def requestSetters (mac : Vector UInt8 6) (requestedIp : Ip4) : List Setter :=
  [.option 53 [3], .option 61 (1 :: mac.toList), .hostName hostName,
    .option 50 (ip4Bytes requestedIp), .option 55 [1, 3, 15, 6]]

theorem discoveryHeader_eq (h : DhcpHeader) (after : ℕ → UInt8) (mac : Vector UInt8 6) :
    discoveryHeader h after mac = h.buildOptions after (discoverySetters mac) := by
  simp [discoveryHeader, DhcpHeader.buildOptions, discoverySetters, Setter.apply,
    setMessageType, setClientIdentifier, setParameterRequestList]

theorem requestHeader_eq (h : DhcpHeader) (after : ℕ → UInt8) (mac : Vector UInt8 6)
    (requestedIp : Ip4) :
    requestHeader h after mac requestedIp =
      h.buildOptions after (requestSetters mac requestedIp) := by
  simp [requestHeader, DhcpHeader.buildOptions, requestSetters, Setter.apply,
    setMessageType, setClientIdentifier, setRequestedIp, setParameterRequestList]


/-! ### What a chain writes -/

namespace OptionsBuilder

variable {b b₁ b₂ : OptionsBuilder} {l l₁ l₂ : List UInt8} {j : ℕ}

theorem written_write (b : OptionsBuilder) (l : List UInt8) : Written (b.write l).mem b.ptr l := by
  intro i hi
  simp [write, hi]

theorem write_mem_of_lt (hj : j < b.ptr) : (b.write l).mem j = b.mem j := by
  simp [write, Nat.not_le.2 hj]

/-- What a call leaves: its bytes at the old pointer, the pointer past them, the length left
less them, and the memory below the old pointer as it was. -/
structure Appends (b b' : OptionsBuilder) (l : List UInt8) : Prop where
  written : Written b'.mem b.ptr l
  ptr : b'.ptr = b.ptr + l.length
  len : b'.len + l.length = b.len
  below : ∀ j < b.ptr, b'.mem j = b.mem j

theorem Appends.refl (b : OptionsBuilder) : Appends b b [] :=
  ⟨Written.nil, rfl, rfl, fun _ _ => rfl⟩

theorem Appends.trans (h₁ : Appends b b₁ l₁) (h₂ : Appends b₁ b₂ l₂) :
    Appends b b₂ (l₁ ++ l₂) where
  written := by
    refine (h₁.written.congr h₁.ptr.ge fun j hj => h₂.below j hj).append ?_
    rw [← h₁.ptr]
    exact h₂.written
  ptr := by rw [h₂.ptr, h₁.ptr, List.length_append, Nat.add_assoc]
  len := by
    have := h₁.len
    have := h₂.len
    simp only [List.length_append]
    omega
  below j hj := (h₂.below j (by have := h₁.ptr; omega)).trans (h₁.below j hj)

/-- Bytes that fit, stored and passed. -/
theorem shift_write (hl : l.length ≤ b.len) :
    ∃ b', (b.write l).shift l.length = .ok b' ∧ Appends b b' l := by
  refine ⟨_, by rw [shift, if_pos (show (b.write l).len ≥ l.length from hl)], ?_⟩
  exact ⟨written_write b l, rfl, by dsimp only [write]; omega, fun j hj => write_mem_of_lt hj⟩

theorem finish_ptr (b : OptionsBuilder) : b.finish b.ptr = 255 :=
  (written_write b _).head

theorem finish_of_lt (hj : j < b.ptr) : b.finish j = b.mem j := write_mem_of_lt hj

end OptionsBuilder

/-- A chain that fits runs to its end, its setters' bytes one after another. -/
theorem foldlM_apply (setters : List Setter) {b : OptionsBuilder}
    (hl : (setters.flatMap Setter.bytes).length ≤ b.len) :
    ∃ b', setters.foldlM Setter.apply b = .ok b' ∧ Appends b b' (setters.flatMap Setter.bytes) := by
  induction setters generalizing b with
  | nil => exact ⟨b, rfl, Appends.refl b⟩
  | cons s setters ih =>
    rw [List.flatMap_cons, List.length_append] at hl
    obtain ⟨b₁, h₁, ha₁⟩ := shift_write (b := b) (l := s.bytes) (by omega)
    obtain ⟨b₂, h₂, ha₂⟩ := ih (b := b₁) (by have := ha₁.len; omega)
    refine ⟨b₂, ?_, by rw [List.flatMap_cons]; exact ha₁.trans ha₂⟩
    rw [List.foldlM_cons, Setter.apply_eq, h₁, ok_bind, h₂]

/-- The field a chain that fits leaves: the cookie, the setters' bytes, and `255`. -/
theorem buildOptions_written (h : DhcpHeader) (after : ℕ → UInt8) {setters : List Setter}
    (hfit : (setters.flatMap Setter.bytes).length < 60) :
    ∃ mem', h.buildOptions after setters = .ok (h.withOptions mem') ∧
      Written mem' 0 (be32 0x63825363 ++ setters.flatMap Setter.bytes ++ [255]) := by
  obtain ⟨b₁, h₁, ha₁⟩ := shift_write (b := optionsBuilder (h.mem after))
    (l := be32 0x63825363) (by simp [optionsBuilder])
  obtain ⟨b₂, h₂, ha₂⟩ := foldlM_apply setters (b := b₁)
    (by have := ha₁.len; simp only [optionsBuilder, length_be32] at this; omega)
  have ha := ha₁.trans ha₂
  rw [length_be32] at h₁
  refine ⟨b₂.finish, by rw [DhcpHeader.buildOptions, setMagicCookie, h₁, ok_bind, h₂]; rfl, ?_⟩
  refine (ha.written.congr ha.ptr.ge fun j hj => finish_of_lt hj).append ?_
  rw [← ha.ptr]
  exact Written.cons (finish_ptr b₂) Written.nil

theorem withOptions_mem {h : DhcpHeader} {mem after : ℕ → UInt8} {i : ℕ} (hi : i < 64) :
    (h.withOptions mem).mem after i = mem i := by
  simp [DhcpHeader.mem, DhcpHeader.withOptions, hi]


/-! ### Reading them back -/

/-- What `find` answers for a code: the first option with it, its value `v` in place, or none. -/
def Finds (mem : ℕ → UInt8) (it : OptionsIter) (code : UInt8) : Option (List UInt8) → Prop
  | some v => ∃ o, it.find mem code = .ok (some o) ∧ o.code = code ∧ o.len = v.length ∧
      Written mem o.start v
  | none => it.find mem code = .ok none

namespace OptionsIter

variable {mem : ℕ → UInt8} {it it' : OptionsIter} {e : Panic} {code : UInt8}

theorem find_of_next_none (h : it.next mem = .ok none) (code : UInt8) :
    it.find mem code = .ok none := by
  rw [find]
  split
  · next o it'' h' => rw [h] at h'; cases h'
  · rfl
  · next e h' => rw [h] at h'; cases h'

theorem find_of_next_error (h : it.next mem = .error e) (code : UInt8) :
    it.find mem code = .error e := by
  rw [find]
  split
  · next o it'' h' => rw [h] at h'; cases h'
  · next h' => rw [h] at h'; cases h'
  · next e' h' => rw [h] at h'; cases h'; rfl

/-- Two iterators whose next steps agree find the same. -/
theorem find_eq_of_next_eq (h : it.next mem = it'.next mem) (code : UInt8) :
    it.find mem code = it'.find mem code := by
  rcases hn : it'.next mem with e | _ | ⟨o, it''⟩
  · rw [find_of_next_error (h.trans hn), find_of_next_error hn]
  · rw [find_of_next_none (h.trans hn), find_of_next_none hn]
  · rw [find_of_next (h.trans hn), find_of_next hn]

theorem finds_congr {r : Option (List UInt8)} (h : it.find mem code = it'.find mem code) :
    Finds mem it code r ↔ Finds mem it' code r := by
  cases r <;> simp only [Finds, h]

/-- An option in memory whose length byte is its value's length. -/
theorem find_of_option {c : UInt8} {v : List UInt8}
    (hw : Written mem it.ptr (c :: v.length.toUInt8 :: v)) (hc : c ≠ 0 ∧ c ≠ 255)
    (hv : v.length < 256) (hfit : v.length + 2 ≤ it.len) (code : UInt8) :
    it.find mem code = if c = code then .ok (some ⟨c, it.ptr + 2, v.length⟩)
      else find mem code ⟨it.ptr + (v.length + 2), it.len - (v.length + 2)⟩ := by
  have hcode : mem it.ptr = c := hw.head
  have hlen : (mem (it.ptr + 1)).toNat = v.length := by
    rw [hw.tail.head]
    simp only [Nat.toUInt8_eq, UInt8.toNat_ofNat', Nat.reducePow]
    omega
  rw [find_of_next (next_of_option (by omega) (by rw [hcode]; exact hc.1)
    (by rw [hcode]; exact hc.2) (by omega)), hcode, hlen, Nat.add_comm 2]

end OptionsIter

/-- A setter's bytes in memory: `find` stops at its option if it has the code, and goes on past the
bytes otherwise. -/
theorem Setter.find {mem : ℕ → UInt8} {it : OptionsIter} {s : Setter} (hok : s.WellFormed)
    (hw : Written mem it.ptr s.bytes) (hfit : s.bytes.length ≤ it.len) (code : UInt8) :
    (∀ v, s.valueOf code = some v → Finds mem it code (some v)) ∧
      (s.valueOf code = none →
        it.find mem code = find mem code ⟨it.ptr + s.bytes.length, it.len - s.bytes.length⟩) := by
  cases s with
  | option c v =>
    obtain ⟨hc0, hc255, hv⟩ := hok
    have hlen : (Setter.option c v).bytes.length = v.length + 2 := by simp [Setter.bytes]
    rw [hlen] at hfit ⊢
    have hfind := find_of_option hw ⟨hc0, hc255⟩ hv hfit code
    refine ⟨fun v' hv' => ?_, fun hv' => ?_⟩
    · simp only [Setter.valueOf] at hv'
      split_ifs at hv' with hc
      cases hv'
      exact ⟨⟨c, it.ptr + 2, v.length⟩, by rw [hfind, if_pos hc], hc, rfl, hw.tail.tail⟩
    · simp only [Setter.valueOf] at hv'
      split_ifs at hv' with hc
      rw [hfind, if_neg hc]
  | hostName n =>
    have hlen : (Setter.hostName n).bytes.length = n.length + 3 := by simp [Setter.bytes]
    have hw' : Written mem it.ptr ((12 :: n.length.toUInt8 :: n) ++ [0]) := hw
    have hpad : mem (it.ptr + (n.length + 2)) = 0 := by simpa using hw'.right.head
    rw [hlen] at hfit ⊢
    have hfind := find_of_option hw'.left ⟨by decide, by decide⟩ hok (by omega) code
    refine ⟨fun v' hv' => ?_, fun hv' => ?_⟩
    · simp only [Setter.valueOf] at hv'
      split_ifs at hv' with hc
      cases hv'
      exact ⟨⟨12, it.ptr + 2, n.length⟩, by rw [hfind, if_pos hc], hc, rfl, hw'.left.tail.tail⟩
    · simp only [Setter.valueOf] at hv'
      split_ifs at hv' with hc
      -- the zero byte after the name is padding
      rw [hfind, if_neg hc, find_eq_of_next_eq (next_of_pad (by dsimp only; omega) hpad)]
      congr 2

/-- Setters' bytes and `255` in memory, within the iterator's window: `find` answers every code with
the value of the first setter that writes it. -/
theorem finds_of_written {mem : ℕ → UInt8} {it : OptionsIter} {setters : List Setter}
    (hok : ∀ s ∈ setters, s.WellFormed)
    (hw : Written mem it.ptr (setters.flatMap Setter.bytes ++ [255]))
    (hlen : (setters.flatMap Setter.bytes).length < it.len) (code : UInt8) :
    Finds mem it code (setters.findSome? (Setter.valueOf code)) := by
  -- on the setters, the iterator moving past each one's bytes
  induction setters generalizing it with
  | nil =>
    exact find_of_next_none (next_of_end (by simpa using hlen) (by simpa using hw.head)) code
  | cons s setters ih =>
    rw [List.flatMap_cons, List.append_assoc] at hw
    rw [List.flatMap_cons, List.length_append] at hlen
    have hs := Setter.find (hok s List.mem_cons_self) hw.left (by omega) code
    rw [List.findSome?_cons]
    rcases hv : s.valueOf code with _ | v
    · rw [finds_congr (hs.2 hv)]
      exact ih (fun s hs => hok s (List.mem_cons_of_mem _ hs)) hw.right (by dsimp only; omega)
    · exact hs.1 v hv


/-! ### The field sent -/

theorem written_withOptions {h : DhcpHeader} {mem : ℕ → UInt8} {l : List UInt8}
    (hw : Written mem 0 l) (hl : l.length ≤ 64) (after : ℕ → UInt8) :
    Written ((h.withOptions mem).mem after) 0 l :=
  hw.congr (by omega) fun _ hj => withOptions_mem hj

/-- The header a chain that fits leaves: the cookie, the setters' bytes and `255` at the start of
its field, whatever follows it. -/
theorem buildOptions_field (h : DhcpHeader) (after : ℕ → UInt8) {setters : List Setter}
    (hfit : (setters.flatMap Setter.bytes).length < 60) :
    ∃ h', h.buildOptions after setters = .ok h' ∧ ∀ after',
      Written (h'.mem after') 0 (be32 0x63825363 ++ (setters.flatMap Setter.bytes ++ [255])) := by
  obtain ⟨mem', hb, hw⟩ := buildOptions_written h after hfit
  rw [List.append_assoc] at hw
  exact ⟨_, hb, written_withOptions hw
    (by simp only [List.length_append, length_be32, List.length_singleton]; omega)⟩

/-- The field a chain that fits leaves, read back by `find` from the header. -/
theorem buildOptions_finds (h : DhcpHeader) (after : ℕ → UInt8) {setters : List Setter}
    (hok : ∀ s ∈ setters, s.WellFormed) (hfit : (setters.flatMap Setter.bytes).length < 60) :
    ∃ h', h.buildOptions after setters = .ok h' ∧
      ∀ after' code, Finds (h'.mem after') iter code (setters.findSome? (Setter.valueOf code)) := by
  obtain ⟨h', hb, hw⟩ := buildOptions_field h after hfit
  exact ⟨h', hb, fun after' => finds_of_written hok (hw after').right (by simp only [iter]; omega)⟩

/-- Every chain of setters that fits the field leaves the cookie and options the iterator reads
back: `find` answers each code with the value of the first setter that writes it, and with none
when no setter does. -/
theorem options_round_trip (h : DhcpHeader) (after : ℕ → UInt8) (setters : List Setter)
    (hok : ∀ s ∈ setters, s.WellFormed) (hfit : (setters.flatMap Setter.bytes).length < 60) :
    ∃ h', h.buildOptions after setters = .ok h' ∧ ∀ after',
      Written (h'.mem after') 0 (be32 0x63825363) ∧
      ∀ code, Finds (h'.mem after') iter code (setters.findSome? (Setter.valueOf code)) := by
  obtain ⟨h', hb, hw⟩ := buildOptions_field h after hfit
  refine ⟨h', hb, fun after' => ⟨(hw after').left, ?_⟩⟩
  exact finds_of_written hok (hw after').right (by simp only [iter]; omega)

theorem options_round_trip_discovery :
    ∃ h', (⟨⟨0⟩, optionsOf []⟩ : DhcpHeader).buildOptions (fun _ => 0)
      (discoverySetters (Vector.replicate 6 0)) = .ok h' ∧ ∀ after',
      Written (h'.mem after') 0 (be32 0x63825363) ∧
      ∀ code, Finds (h'.mem after') iter code
        ((discoverySetters (Vector.replicate 6 0)).findSome? (Setter.valueOf code)) :=
  options_round_trip _ _ _ (by decide) (by decide)


/-! ### The client's own messages -/

section Accessors

variable {mem : ℕ → UInt8}

theorem optMessageType_of_finds {t : UInt8} (hf : Finds mem iter 53 (some [t])) :
    optMessageType mem = .ok (some t) := by
  obtain ⟨o, ho, -, -, hw⟩ := hf
  rw [optMessageType, ho]
  simp only [Except.map, Option.map_some, hw.head]

theorem optIp4_of_finds {code : UInt8} {ip : Ip4} (hf : Finds mem iter code (some (ip4Bytes ip))) :
    optIp4 mem code = .ok (some ip) := by
  obtain ⟨o, ho, -, hlen, hw⟩ := hf
  have h0 : mem o.start = _ := hw 0 (by simp)
  rw [optIp4, ho]
  dsimp only
  rw [if_neg (by simp [hlen]), h0, hw 1 (by simp), hw 2 (by simp), hw 3 (by simp),
    ip4OfBytes_ip4Bytes]

/-- A message whose type is neither an offer nor an acknowledgement is ignored. -/
theorem processPacket_of_messageType {h : DhcpHeader} {after : ℕ → UInt8} {t : UInt8}
    (hmt : optMessageType (h.mem after) = .ok (some t)) (h2 : t ≠ 2) (h5 : t ≠ 5) :
    processPacket h after = .ok .ignore := by
  simp only [processPacket, hmt, ok_bind, if_neg h2, if_neg h5]
  rfl

end Accessors

/-- The discovery and the request the client sends carry their message types, `DhcpDiscover` and
`DhcpRequest`, and the request the address it asks for; `process_packet`, given either back,
ignores it. -/
theorem discovery_and_request_read_back (h : DhcpHeader) (after : ℕ → UInt8)
    (mac : Vector UInt8 6) (requestedIp : Ip4) :
    ∃ hd hr, discoveryHeader h after mac = .ok hd ∧
      requestHeader h after mac requestedIp = .ok hr ∧ ∀ after',
      optMessageType (hd.mem after') = .ok (some 1) ∧
      optMessageType (hr.mem after') = .ok (some 3) ∧
      optIp4 (hr.mem after') 50 = .ok (some requestedIp) ∧
      processPacket hd after' = .ok .ignore ∧ processPacket hr after' = .ok .ignore := by
  have hokd : ∀ s ∈ discoverySetters mac, s.WellFormed := by
    simp [discoverySetters, Setter.WellFormed, hostName]
  have hokr : ∀ s ∈ requestSetters mac requestedIp, s.WellFormed := by
    simp [requestSetters, Setter.WellFormed, hostName]
  obtain ⟨hd, hbd, hfd⟩ := buildOptions_finds h after hokd
    (by simp [discoverySetters, Setter.bytes, hostName])
  obtain ⟨hr, hbr, hfr⟩ := buildOptions_finds h after hokr
    (by simp [requestSetters, Setter.bytes, hostName])
  refine ⟨hd, hr, by rw [discoveryHeader_eq, hbd], by rw [requestHeader_eq, hbr], fun after' => ?_⟩
  -- the first setter with each code, in each chain
  have htd : optMessageType (hd.mem after') = .ok (some 1) :=
    optMessageType_of_finds (hfd after' 53)
  have htr : optMessageType (hr.mem after') = .ok (some 3) :=
    optMessageType_of_finds (hfr after' 53)
  have hip : optIp4 (hr.mem after') 50 = .ok (some requestedIp) :=
    optIp4_of_finds (hfr after' 50)
  exact ⟨htd, htr, hip, processPacket_of_messageType htd (by decide) (by decide),
    processPacket_of_messageType htr (by decide) (by decide)⟩

end Cykusz.Net.Dhcp
