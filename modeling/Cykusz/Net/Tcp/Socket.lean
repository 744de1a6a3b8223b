import Mathlib
import Cykusz.Kernel.Buffer

/-!
# The data of a TCP socket

`SocketData` is what one TCP socket keeps under its lock: the connection `State`, the sequence
numbers of `TransmissionCtl`, the ring of bytes sent and not yet acknowledged (`sndBuffer`), the
ring of bytes written while the send window was closed (`proxyBuffer`), and the packets it handed
to the network. It also holds the owning socket's `in_buffer`, which the source reaches through
`self.socket()` and from which the application reads. `process` is what the socket does with one
incoming segment, `close` what it does when the socket goes away, `writeAt` and `readAt` the
application's calls.

The receive path stores an in-order payload with `try_append_data` and moves `rcv_nxt` only when
all of it was stored. A payload that fits only in part is stored in part with `rcv_nxt` left
where it was (`process_stores_prefix`), so a retransmission stores its first bytes a second time
(`partial_store_duplicates`). The send path takes any ack number other than `snd_una`
(`process_takes_any_ack`), also one for bytes never sent.

Timers are not state of the model: a timer callback is a call of its own (`rx_timeout` is
`sendAck`, `dc_timeout` is `finalize`).
-/

namespace Cykusz.Net.Tcp

open Cykusz.Kernel

/-- `State`: the states of a connection. -/
inductive State
  | closed
  | listen
  | synSent
  | synReceived
  | established
  | finWait1
  | finWait2
  | closeWait
  | lastAck
  | closing
deriving DecidableEq, Repr

/-- The flags of `TcpFlags` that the socket sets or tests. -/
structure TcpFlags where
  fin : Bool
  syn : Bool
  rst : Bool
  ack : Bool
deriving DecidableEq, Repr

namespace TcpFlags

def empty : TcpFlags := ⟨false, false, false, false⟩

def FIN : TcpFlags := { empty with fin := true }

def SYN : TcpFlags := { empty with syn := true }

def RST : TcpFlags := { empty with rst := true }

end TcpFlags

/-- An IPv4 address; `Ip4::empty()` is `0.0.0.0`. -/
structure Ip4 where
  addr : BitVec 32
deriving DecidableEq, Repr

def Ip4.empty : Ip4 := ⟨0⟩

/-- A TCP segment, `Packet<Tcp>`: the fields of `TcpHeader` the socket reads or writes, and the
payload. -/
structure Segment where
  srcPort : BitVec 16
  dstPort : BitVec 16
  seqNr : BitVec 32
  ackNr : BitVec 32
  flags : TcpFlags
  window : BitVec 16
  data : List UInt8
deriving DecidableEq, Repr

/-- `Packet<Tcp>::ack_len`: the sequence numbers a segment takes, one more for SYN or FIN. -/
def Segment.ackLen (packet : Segment) : BitVec 32 :=
  BitVec.ofNat 32 packet.data.length + if packet.flags.fin || packet.flags.syn then 1 else 0

/-- `TransmissionCtl`; `iss` and `irs` are written and never read, and are left out. -/
structure TransmissionCtl where
  sndNxt : BitVec 32
  sndUna : BitVec 32
  sndWnd : BitVec 32
  rcvNxt : BitVec 32
  rcvWnd : BitVec 32
deriving DecidableEq, Repr

/-- `TransmissionCtl::available_window`: how much more the peer's window lets the socket send. -/
def TransmissionCtl.availableWindow (ctl : TransmissionCtl) : ℕ :=
  let outstanding := ctl.sndNxt - ctl.sndUna
  if outstanding > ctl.sndWnd then 0 else ctl.sndWnd.toNat - outstanding.toNat

/-- `SocketData` of a socket whose rings hold `n` (`in_buffer`), `m` (`snd_buffer`) and `p`
(`proxy_buffer`) bytes. TCP never changes the flags of the proxy queue (it has readers and
writers and is never shut down), so the proxy queue is its ring. `sent` lists the packets handed
to `tcp::send_packet`, in order. -/
structure SocketData (n m p : ℕ) where
  srcPort : BitVec 16
  dstPort : BitVec 16
  target : Ip4
  state : State
  ctl : TransmissionCtl
  proxyBuffer : Buffer p
  sndBuffer : Buffer m
  inBuffer : BufferQueue n
  sent : List Segment

namespace SocketData

variable {n m p : ℕ}

/-- `SocketData::make_packet` with the payload it is filled with. The ack number is not set. -/
def makePacket (s : SocketData n m p) (data : List UInt8) (flags : TcpFlags) : Segment where
  srcPort := s.srcPort
  dstPort := s.dstPort
  seqNr := s.ctl.sndNxt
  ackNr := 0
  flags := flags
  window := BitVec.ofNat 16 (min 65535 s.inBuffer.buffer.availableSize)
  data := data

/-- `SocketData::make_ack_packet`; `set_ack_nr` also sets ACK. -/
def makeAckPacket (s : SocketData n m p) (data : List UInt8) (flags : TcpFlags) : Segment :=
  { s.makePacket data flags with ackNr := s.ctl.rcvNxt, flags := { flags with ack := true } }

/-- `SocketData::send_packet`: the packet takes its sequence numbers, and with `queue` its payload
is kept for retransmission. -/
def sendPacket (s : SocketData n m p) (packet : Segment) (queue : Bool) : SocketData n m p :=
  { s with
    ctl := { s.ctl with sndNxt := s.ctl.sndNxt + packet.ackLen }
    sndBuffer := if queue then (s.sndBuffer.appendData packet.data).1 else s.sndBuffer
    sent := s.sent ++ [packet] }

def sendSync (s : SocketData n m p) : SocketData n m p :=
  { s with state := .synSent }.sendPacket (s.makePacket [] TcpFlags.SYN) false

def sendAck (s : SocketData n m p) : SocketData n m p :=
  s.sendPacket (s.makeAckPacket [] TcpFlags.empty) false

def sendAckFlags (s : SocketData n m p) (flags : TcpFlags) : SocketData n m p :=
  s.sendPacket (s.makeAckPacket [] flags) false

/-- A read of `cap ≥ 1` bytes shrinks a ring that holds some. -/
theorem size_readData_lt {b : Buffer p} {cap : ℕ} (h : b.hasData = true) (hcap : 0 < cap) :
    (b.readData cap).1.size < b.size := by
  have := Buffer.size_pos_of_hasData h
  rw [Buffer.size_readData]
  omega

/-- The loop of `drain_proxy_buffer`: while the proxy ring holds bytes and the window is open,
send up to 1460 of them. -/
def drainLoop (s : SocketData n m p) : SocketData n m p :=
  if _h : s.proxyBuffer.hasData = true ∧ 0 < s.ctl.availableWindow then
    let cap := min s.proxyBuffer.size (min 1460 s.ctl.availableWindow)
    let packet := s.makeAckPacket (s.proxyBuffer.readData cap).2 TcpFlags.empty
    drainLoop ({ s with proxyBuffer := (s.proxyBuffer.readData cap).1 }.sendPacket packet true)
  else s
termination_by s.proxyBuffer.size
decreasing_by
  have := Buffer.size_pos_of_hasData _h.1
  exact size_readData_lt _h.1 (by omega)

/-- `SocketData::drain_proxy_buffer`: only an established connection sends. -/
def drainProxyBuffer (s : SocketData n m p) : SocketData n m p :=
  if s.state ≠ .established then s else s.drainLoop

/-- `SocketData::process_ack`: any ack number other than `snd_una` acknowledges the bytes up to
it, by wrapping subtraction. -/
def processAck (s : SocketData n m p) (header : Segment) : SocketData n m p :=
  if s.ctl.sndUna ≠ header.ackNr then
    let bytesAcked := header.ackNr - s.ctl.sndUna
    drainProxyBuffer
      { s with
        sndBuffer := (s.sndBuffer.markAsRead bytesAcked.toNat).1
        ctl := { s.ctl with sndUna := header.ackNr } }
  else s

def updateRcvNext (s : SocketData n m p) (packet : Segment) : SocketData n m p :=
  { s with ctl := { s.ctl with rcvNxt := packet.seqNr + packet.ackLen } }

/-- `SocketData::finalize`; `none` is its `assert_ne!(state, Closed)` failing. Releasing the
handler is the demultiplexer's part. -/
def finalize (s : SocketData n m p) : Option (SocketData n m p) :=
  if s.state = .closed then none
  else some { s with state := .closed, inBuffer := { s.inBuffer with shuttingDown := true } }

def handleSynReceived (s : SocketData n m p) (packet : Segment) : Option (SocketData n m p) :=
  match packet.flags.ack, packet.flags.rst with
  | true, false => some { s with state := .established }.drainProxyBuffer
  | _, true => s.finalize
  | false, false => some s

def handleSynSent (s : SocketData n m p) (packet : Segment) : SocketData n m p :=
  if packet.flags.syn ∧ packet.flags.ack then
    { s.updateRcvNext packet with state := .established }.sendAck.drainProxyBuffer
  else s

/-- The in-order branch of `handle_established`: store the payload, and take it as received only
when all of it was stored; an ACK goes out once 16 KiB have been received since the last. -/
def storeSegment (s : SocketData n m p) (packet : Segment) : SocketData n m p :=
  let s' := { s with inBuffer := (s.inBuffer.tryAppendData packet.data).1 }
  if (s.inBuffer.tryAppendData packet.data).2 = packet.data.length then
    let s' := s'.updateRcvNext packet
    let s' := { s' with ctl := { s'.ctl with rcvWnd := s'.ctl.rcvWnd + packet.ackLen } }
    if s'.ctl.rcvWnd ≥ 4096 * 4 then
      let s' := s'.sendAck
      { s' with ctl := { s'.ctl with rcvWnd := 0 } }
    else s'
  else s'

def handleEstablished (s : SocketData n m p) (packet : Segment) : SocketData n m p :=
  if packet.data ≠ [] ∨ packet.flags.fin = true then
    let s := if packet.seqNr = s.ctl.rcvNxt then s.storeSegment packet else s
    if packet.flags.fin then { s with state := .lastAck }.sendAckFlags TcpFlags.FIN else s
  else s

def handleFinwait1 (s : SocketData n m p) (packet : Segment) : Option (SocketData n m p) :=
  match packet.flags.fin, packet.flags.ack with
  | false, true => some { s with state := .finWait2 }
  | true, true => (s.updateRcvNext packet).sendAck.finalize
  | true, false => some { (s.updateRcvNext packet).sendAck with state := .closing }
  | false, false => (s.sendAckFlags TcpFlags.RST).finalize

def handleFinwait2 (s : SocketData n m p) (packet : Segment) : Option (SocketData n m p) :=
  match packet.flags.fin, packet.flags.ack with
  | true, true => (s.updateRcvNext packet).sendAck.finalize
  | _, _ => (s.sendAckFlags TcpFlags.RST).finalize

def handleClosing (s : SocketData n m p) (packet : Segment) : Option (SocketData n m p) :=
  if packet.flags.ack then s.finalize else some s

def handleLastack (s : SocketData n m p) (packet : Segment) : Option (SocketData n m p) :=
  if packet.flags.ack then s.finalize else some s

/-- The `match self.state` of `process`; `handle_listen` panics, and a closed socket or one in
`CloseWait` ignores the segment. -/
def dispatch (s : SocketData n m p) (packet : Segment) : Option (SocketData n m p) :=
  match s.state with
  | .listen => none
  | .synReceived => s.handleSynReceived packet
  | .synSent => some (s.handleSynSent packet)
  | .established => some (s.handleEstablished packet)
  | .finWait1 => s.handleFinwait1 packet
  | .finWait2 => s.handleFinwait2 packet
  | .lastAck => s.handleLastack packet
  | .closing => s.handleClosing packet
  | .closed | .closeWait => some s

/-- The first lines of `process`: take the peer's window, and its ack when ACK is set. -/
def takeAck (s : SocketData n m p) (packet : Segment) : SocketData n m p :=
  let s := { s with ctl := { s.ctl with sndWnd := packet.window.setWidth 32 } }
  if packet.flags.ack then s.processAck packet else s

/-- `SocketData::process`: take the peer's window and ack, drop a segment out of order, and hand
the rest to the state's handler; a reset then finalizes. -/
def process (s : SocketData n m p) (packet : Segment) : Option (SocketData n m p) :=
  let s := s.takeAck packet
  if s.state ≠ .listen ∧ s.state ≠ .synSent ∧ s.ctl.rcvNxt ≠ packet.seqNr then some s
  else
    (s.dispatch packet).bind fun s =>
      if packet.flags.rst ∧ s.state ≠ .closed ∧ s.state ≠ .listen then s.finalize else some s

/-- `SocketData::close`. -/
def close (s : SocketData n m p) : Option (SocketData n m p) :=
  match s.state with
  | .established | .synReceived => some { s.sendAckFlags TcpFlags.FIN with state := .finWait1 }
  | .closeWait => some { s.sendAckFlags TcpFlags.FIN with state := .lastAck }
  | .closed => some s
  | _ => s.finalize

/-- `SocketData::connect` with the clock's low 32 bits `v` as initial sequence number. -/
def connect (s : SocketData n m p) (v : BitVec 32) : SocketData n m p :=
  { s with ctl := { s.ctl with sndNxt := v, sndUna := v } }.sendSync

/-- The direct branch of `Socket::write_at`: send `buf` in packets of up to 1460 bytes. -/
def sendChunks (s : SocketData n m p) (buf : List UInt8) : SocketData n m p :=
  if buf = [] then s
  else
    let s := s.sendPacket (s.makeAckPacket (buf.take 1460) TcpFlags.empty) true
    sendChunks { s with ctl := { s.ctl with rcvWnd := 0 } } (buf.drop 1460)
termination_by buf.length
decreasing_by
  have : buf.length ≠ 0 := by simpa using ‹¬buf = []›
  simp only [List.length_drop]
  omega

/-- `Socket::write_at`: a listening socket refuses; an established one sends when the window
allows and otherwise waits for room in the proxy ring (`none` while it sleeps) and appends what
fits, returning the whole length; before the connection is up `proxy_buffer.append_data` waits
for some room. -/
def writeAt (s : SocketData n m p) (buf : List UInt8) (nonblock : Bool) :
    Option (Except Fs.FsError (SocketData n m p × ℕ)) :=
  if s.state = .listen then some (.error .notSupported)
  else if s.state = .established then
    if s.ctl.availableWindow < buf.length then
      if s.proxyBuffer.availableSize < buf.length ∧ nonblock = false then none
      else
        let proxy := if buf = [] then s.proxyBuffer else (s.proxyBuffer.appendData buf).1
        some (.ok ({ s with proxyBuffer := proxy }, buf.length))
    else some (.ok (s.sendChunks buf, buf.length))
  else if buf = [] then some (.ok (s, 0))
  else if s.proxyBuffer.availableSize = 0 then none
  else
    some (.ok ({ s with proxyBuffer := (s.proxyBuffer.appendData buf).1 },
      (s.proxyBuffer.appendData buf).2))

/-- `Socket::read_at` into a buffer of `len` bytes: read from `in_buffer`, and announce the new
window with an ACK when something was read. -/
def readAt (s : SocketData n m p) (len : ℕ) (noHang : Bool) :
    Option (Except Fs.FsError (SocketData n m p × List UInt8)) :=
  (s.inBuffer.readDataFlags len noHang).map fun r =>
    r.map fun qr =>
      let s := { s with inBuffer := qr.1 }
      (if qr.2 ≠ [] then s.sendAck else s, qr.2)

/-! ## What sending changes -/

/-- `s'` agrees with `s` on the receiving side: the state, `in_buffer` and `rcv_nxt`. -/
structure SameRecv (s s' : SocketData n m p) : Prop where
  state : s'.state = s.state
  inBuffer : s'.inBuffer = s.inBuffer
  rcvNxt : s'.ctl.rcvNxt = s.ctl.rcvNxt

/-- `s'` is `s` after sending: only `snd_nxt`, `rcv_wnd`, the rings of outgoing bytes and the
packets sent may differ. -/
structure Sends (s s' : SocketData n m p) : Prop extends SameRecv s s' where
  sndUna : s'.ctl.sndUna = s.ctl.sndUna
  sndWnd : s'.ctl.sndWnd = s.ctl.sndWnd

theorem Sends.refl (s : SocketData n m p) : Sends s s := ⟨⟨rfl, rfl, rfl⟩, rfl, rfl⟩

theorem Sends.trans {s₁ s₂ s₃ : SocketData n m p} (h₁ : Sends s₁ s₂) (h₂ : Sends s₂ s₃) :
    Sends s₁ s₃ :=
  ⟨⟨h₂.state.trans h₁.state, h₂.inBuffer.trans h₁.inBuffer, h₂.rcvNxt.trans h₁.rcvNxt⟩,
    h₂.sndUna.trans h₁.sndUna, h₂.sndWnd.trans h₁.sndWnd⟩

theorem sendPacket_sends (s : SocketData n m p) (packet : Segment) (queue : Bool) :
    Sends s (s.sendPacket packet queue) :=
  ⟨⟨rfl, rfl, rfl⟩, rfl, rfl⟩

theorem drainLoop_sends (s : SocketData n m p) : Sends s s.drainLoop := by
  fun_induction drainLoop s with
  | case1 s h cap packet ih =>
    refine Sends.trans ?_ ih
    exact ⟨⟨rfl, rfl, rfl⟩, rfl, rfl⟩
  | case2 s h => exact .refl s

theorem drainProxyBuffer_sends (s : SocketData n m p) : Sends s s.drainProxyBuffer := by
  unfold drainProxyBuffer
  split_ifs
  · exact .refl s
  · exact drainLoop_sends s

variable {s : SocketData n m p} {packet : Segment}

theorem processAck_of_eq (h : s.ctl.sndUna = packet.ackNr) : s.processAck packet = s := by
  simp [processAck, h]

/-- A new ack number drops the bytes it acknowledges and becomes `snd_una`; the drain that follows
only sends. -/
theorem processAck_of_ne (h : s.ctl.sndUna ≠ packet.ackNr) :
    Sends { s with
        sndBuffer := (s.sndBuffer.markAsRead (packet.ackNr - s.ctl.sndUna).toNat).1
        ctl := { s.ctl with sndUna := packet.ackNr } }
      (s.processAck packet) := by
  rw [processAck, if_pos h]
  exact drainProxyBuffer_sends _

theorem processAck_sameRecv : SameRecv s (s.processAck packet) := by
  by_cases h : s.ctl.sndUna = packet.ackNr
  · rw [processAck_of_eq h]
    exact (Sends.refl s).toSameRecv
  · have h' := processAck_of_ne h
    exact ⟨h'.state, h'.inBuffer, h'.rcvNxt⟩

/-! ## The receive path -/

/-- A payload that does not all fit is stored in part, and nothing else changes. -/
theorem storeSegment_of_partial
    (h : (s.inBuffer.tryAppendData packet.data).2 ≠ packet.data.length) :
    s.storeSegment packet = { s with inBuffer := (s.inBuffer.tryAppendData packet.data).1 } := by
  rw [storeSegment, if_neg h]

/-- A payload stored whole moves `rcv_nxt` past it; the ACK that may follow only sends. -/
theorem storeSegment_of_stored
    (h : (s.inBuffer.tryAppendData packet.data).2 = packet.data.length) :
    (s.storeSegment packet).state = s.state ∧
      (s.storeSegment packet).inBuffer = (s.inBuffer.tryAppendData packet.data).1 ∧
      (s.storeSegment packet).ctl.rcvNxt = packet.seqNr + packet.ackLen ∧
      (s.storeSegment packet).ctl.sndUna = s.ctl.sndUna := by
  rw [storeSegment, if_pos h]
  dsimp only
  split_ifs <;> exact ⟨rfl, rfl, rfl, rfl⟩

/-- An in-order payload without FIN is stored; nothing is sent back for it at once unless 16 KiB
have come in. -/
theorem handleEstablished_of_inOrder (hd : packet.data ≠ []) (hfin : packet.flags.fin = false)
    (hseq : packet.seqNr = s.ctl.rcvNxt) :
    s.handleEstablished packet = s.storeSegment packet := by
  simp [handleEstablished, hd, hfin, hseq]

/-- Taking the peer's window and ack leaves the receiving side as it was. -/
theorem takeAck_sameRecv : SameRecv s (s.takeAck packet) := by
  unfold takeAck
  split_ifs
  · have h := @processAck_sameRecv n m p
      { s with ctl := { s.ctl with sndWnd := packet.window.setWidth 32 } } packet
    exact ⟨h.state, h.inBuffer, h.rcvNxt⟩
  · exact ⟨rfl, rfl, rfl⟩

/-- Without a new ack number only the window is taken. -/
theorem takeAck_of_old (hack : packet.flags.ack = false ∨ packet.ackNr = s.ctl.sndUna) :
    s.takeAck packet = { s with ctl := { s.ctl with sndWnd := packet.window.setWidth 32 } } := by
  unfold takeAck
  rcases hack with h | h
  · rw [if_neg (by simp [h])]
  · split_ifs
    · exact processAck_of_eq h.symm
    · rfl

/-- A new ack number becomes `snd_una`, whatever it is. -/
theorem takeAck_sndUna (hack : packet.flags.ack = true) (hne : packet.ackNr ≠ s.ctl.sndUna) :
    (s.takeAck packet).ctl.sndUna = packet.ackNr := by
  unfold takeAck
  rw [if_pos hack]
  exact (@processAck_of_ne n m p
    { s with ctl := { s.ctl with sndWnd := packet.window.setWidth 32 } } packet (Ne.symm hne)).sndUna

/-- An in-order segment that sets no RST, on a connection established after its ack, goes to
`handle_established`. -/
theorem process_of_established (hst : (s.takeAck packet).state = .established)
    (hseq : (s.takeAck packet).ctl.rcvNxt = packet.seqNr) (hrst : packet.flags.rst = false) :
    s.process packet = some ((s.takeAck packet).handleEstablished packet) := by
  simp only [process, hst, hseq, ne_eq, not_true_eq_false, and_false, if_false, dispatch,
    Option.bind_some, hrst, Bool.false_eq_true, false_and]

/-- An in-order segment with a payload and without FIN or RST, on an established connection, is
stored by the in-order branch of `handle_established`. -/
theorem process_of_inOrder (hst : s.state = .established) (hseq : packet.seqNr = s.ctl.rcvNxt)
    (hd : packet.data ≠ []) (hfin : packet.flags.fin = false) (hrst : packet.flags.rst = false) :
    s.process packet = some ((s.takeAck packet).storeSegment packet) := by
  have h := @takeAck_sameRecv n m p s packet
  rw [process_of_established (h.state.trans hst) (h.rcvNxt.trans hseq.symm) hrst,
    handleEstablished_of_inOrder hd hfin (hseq.trans h.rcvNxt.symm)]

/-- An in-order payload that does not all fit in `in_buffer` is stored in part, and `rcv_nxt`
stays. -/
theorem process_stores_prefix (hst : s.state = .established) (hseq : packet.seqNr = s.ctl.rcvNxt)
    (hfin : packet.flags.fin = false) (hrst : packet.flags.rst = false)
    (hack : packet.flags.ack = false ∨ packet.ackNr = s.ctl.sndUna)
    (hpart : s.inBuffer.buffer.availableSize < packet.data.length) :
    ∃ s', s.process packet = some s' ∧ s'.state = .established ∧ s'.ctl.rcvNxt = s.ctl.rcvNxt ∧
      s'.ctl.sndUna = s.ctl.sndUna ∧
      s'.inBuffer.buffer.contents =
        s.inBuffer.buffer.contents ++ packet.data.take s.inBuffer.buffer.availableSize := by
  have hd : packet.data ≠ [] := List.ne_nil_of_length_pos (by omega)
  obtain ⟨hq, hw, hc⟩ := s.inBuffer.tryAppendData_spec packet.data
  rw [← Buffer.availableSize_eq] at hw hc
  have hpartial : (s.inBuffer.tryAppendData packet.data).2 ≠ packet.data.length := by omega
  rw [process_of_inOrder hst hseq hd hfin hrst, takeAck_of_old hack,
    storeSegment_of_partial (s := { s with ctl := { s.ctl with sndWnd := packet.window.setWidth 32 } })
      hpartial]
  exact ⟨_, rfl, hst, rfl, rfl, hc⟩

/-- An in-order payload that fits in `in_buffer` is stored whole, and `rcv_nxt` moves past it. -/
theorem process_stores_whole (hst : s.state = .established) (hseq : packet.seqNr = s.ctl.rcvNxt)
    (hd : packet.data ≠ []) (hfin : packet.flags.fin = false) (hrst : packet.flags.rst = false)
    (hack : packet.flags.ack = false ∨ packet.ackNr = s.ctl.sndUna)
    (hfit : packet.data.length ≤ s.inBuffer.buffer.availableSize) :
    ∃ s', s.process packet = some s' ∧ s'.state = .established ∧
      s'.ctl.rcvNxt = packet.seqNr + packet.ackLen ∧ s'.ctl.sndUna = s.ctl.sndUna ∧
      s'.inBuffer.buffer.contents = s.inBuffer.buffer.contents ++ packet.data := by
  obtain ⟨hq, hw, hc⟩ := s.inBuffer.tryAppendData_spec packet.data
  rw [← Buffer.availableSize_eq] at hw hc
  have hwhole : (s.inBuffer.tryAppendData packet.data).2 = packet.data.length := by omega
  rw [process_of_inOrder hst hseq hd hfin hrst, takeAck_of_old hack]
  obtain ⟨h₁, h₂, h₃, h₄⟩ := storeSegment_of_stored (s := { s with
    ctl := { s.ctl with sndWnd := packet.window.setWidth 32 } }) hwhole
  refine ⟨_, rfl, h₁.trans hst, h₃, h₄, ?_⟩
  rw [h₂, hc, List.take_of_length_le hfit]

/-- A read from an `in_buffer` that holds bytes takes the first `len` of them, and changes nothing
else on the receiving side. -/
theorem readAt_of_data (h : s.inBuffer.buffer.contents ≠ []) (len : ℕ) (noHang : Bool) :
    ∃ s', s.readAt len noHang = some (.ok (s', s.inBuffer.buffer.contents.take len)) ∧
      s'.state = s.state ∧ s'.ctl.rcvNxt = s.ctl.rcvNxt ∧ s'.ctl.sndUna = s.ctl.sndUna ∧
      s'.inBuffer.buffer.contents = s.inBuffer.buffer.contents.drop len := by
  have hdata : s.inBuffer.buffer.hasData = true := Buffer.hasData_iff.2 h
  obtain ⟨hread, hrest⟩ := Buffer.readData_spec (b := s.inBuffer.buffer) len
  simp only [readAt, BufferQueue.readDataFlags, BufferQueue.hasDataLocked, hdata, Bool.true_or,
    waitLockFor, if_true, Option.map_some, Except.map, hread]
  -- an ACK announcing the new window goes out when something was read; it only sends
  split_ifs
  · exact ⟨_, rfl, rfl, rfl, rfl, hrest⟩
  · exact ⟨_, rfl, rfl, rfl, rfl, hrest⟩

/-- A payload that fits `in_buffer` only in part is stored in part with `rcv_nxt` left where it
was; once the application has read the buffer, the retransmission of the same segment is stored
whole. The first bytes of the payload reach the application twice, and `rcv_nxt` ends one payload
past where it started although more than one payload was appended. -/
theorem partial_store_duplicates (s : SocketData n m p) (packet : Segment)
    (hst : s.state = .established) (hseq : packet.seqNr = s.ctl.rcvNxt)
    (hfin : packet.flags.fin = false) (hrst : packet.flags.rst = false)
    (hack : packet.flags.ack = false ∨ packet.ackNr = s.ctl.sndUna)
    (hroom : 0 < s.inBuffer.buffer.availableSize)
    (hpart : s.inBuffer.buffer.availableSize < packet.data.length) (hfit : packet.data.length ≤ n) :
    ∃ s₁ s₂ s₃ bytes, s.process packet = some s₁ ∧ s₁.readAt n false = some (.ok (s₂, bytes)) ∧
      s₂.process packet = some s₃ ∧ s₁.ctl.rcvNxt = s.ctl.rcvNxt ∧
      bytes = s.inBuffer.buffer.contents ++ packet.data.take s.inBuffer.buffer.availableSize ∧
      s₃.inBuffer.buffer.contents = packet.data ∧ s₃.ctl.rcvNxt = s.ctl.rcvNxt + packet.ackLen := by
  obtain ⟨s₁, h₁, hst₁, hnxt₁, huna₁, hc₁⟩ := process_stores_prefix hst hseq hfin hrst hack hpart
  -- the partial store fills the ring
  have hlen₁ : s₁.inBuffer.buffer.contents.length = n := by
    have := s.inBuffer.buffer.size_le
    rw [hc₁, List.length_append, List.length_take, Buffer.length_contents,
      Buffer.availableSize_eq]
    rw [Buffer.availableSize_eq] at hpart
    omega
  have hne₁ : s₁.inBuffer.buffer.contents ≠ [] := by
    rw [hc₁]
    exact List.append_ne_nil_of_right_ne_nil _ (List.ne_nil_of_length_pos (by simp; omega))
  obtain ⟨s₂, h₂, hst₂, hnxt₂, huna₂, hc₂⟩ := readAt_of_data hne₁ n false
  have hempty : s₂.inBuffer.buffer.contents = [] := by
    rw [hc₂, List.drop_eq_nil_of_le hlen₁.le]
  have hfit₂ : packet.data.length ≤ s₂.inBuffer.buffer.availableSize := by
    rw [Buffer.availableSize_eq, ← Buffer.length_contents, hempty]
    simpa using hfit
  obtain ⟨s₃, h₃, -, hnxt₃, -, hc₃⟩ := process_stores_whole (hst₂.trans hst₁)
    (by rw [hnxt₂, hnxt₁, hseq]) (List.ne_nil_of_length_pos (by omega)) hfin hrst
    (by rw [huna₂, huna₁]; exact hack) hfit₂
  refine ⟨s₁, s₂, s₃, _, h₁, h₂, h₃, hnxt₁, ?_, by rw [hc₃, hempty, List.nil_append], ?_⟩
  · rw [List.take_of_length_le hlen₁.le, hc₁]
  · rw [hnxt₃, hseq]

/-- The rings of a connected socket are not empty: 18 pages for `in_buffer` and `snd_buffer`,
8 for `proxy_buffer`. -/
theorem eighteen_pages_pos : 0 < 4096 * 18 := by decide

theorem eight_pages_pos : 0 < 4096 * 8 := by decide

/-- A connection established with `rcv_nxt = 1000` and `snd_una = snd_nxt = 5000`, with the rings of
a connected socket (`in_buffer` and `snd_buffer` of 18 pages, `proxy_buffer` of 8), whose
`in_buffer` holds 73726 bytes the application has not read yet. -/
def nearlyFull : SocketData (4096 * 18) (4096 * 18) (4096 * 8) where
  srcPort := 80
  dstPort := 40000
  target := ⟨0x0A000002⟩
  state := .established
  ctl := ⟨5000, 5000, 65535, 1000, 0⟩
  proxyBuffer := Buffer.new _ eight_pages_pos
  sndBuffer := Buffer.new _ eighteen_pages_pos
  inBuffer :=
    { buffer := ⟨Vector.replicate _ 0, ⟨0, eighteen_pages_pos⟩, ⟨73726, by decide⟩, false,
        fun h => absurd h Bool.false_ne_true⟩
      shuttingDown := false
      hasWriters := true
      hasReaders := true }
  sent := []

/-- The peer's segment of six bytes at `rcv_nxt`, acknowledging nothing new. -/
def sixBytes : Segment where
  srcPort := 40000
  dstPort := 80
  seqNr := 1000
  ackNr := 5000
  flags := { TcpFlags.empty with ack := true }
  window := 65535
  data := [1, 2, 3, 4, 5, 6]

/-- Two of the six bytes fit: they are stored and read by the application with `rcv_nxt` still at
1000, and after the read the retransmission stores all six, so bytes 1000 and 1001 of the stream
are delivered twice. -/
theorem partial_store_duplicates_nearlyFull :
    ∃ s₁ s₂ s₃ bytes, nearlyFull.process sixBytes = some s₁ ∧
      s₁.readAt (4096 * 18) false = some (.ok (s₂, bytes)) ∧ s₂.process sixBytes = some s₃ ∧
      s₁.ctl.rcvNxt = 1000 ∧ bytes = nearlyFull.inBuffer.buffer.contents ++ [1, 2] ∧
      s₃.inBuffer.buffer.contents = [1, 2, 3, 4, 5, 6] ∧ s₃.ctl.rcvNxt = 1006 := by
  obtain ⟨s₁, s₂, s₃, bytes, h₁, h₂, h₃, hnxt₁, hbytes, hc₃, hnxt₃⟩ :=
    partial_store_duplicates nearlyFull sixBytes rfl rfl rfl rfl (Or.inr rfl) (by decide)
      (by decide) (by decide)
  have havail : nearlyFull.inBuffer.buffer.availableSize = 2 := by decide
  refine ⟨s₁, s₂, s₃, bytes, h₁, h₂, h₃, hnxt₁, ?_, hc₃, ?_⟩
  · rw [hbytes, havail]
    rfl
  · rw [hnxt₃]
    decide

/-- A connection that has answered a SYN takes a further SYN without ACK or RST for nothing: it is
out of order, or `handle_syn_received` has no branch for it. -/
theorem process_syn_of_synReceived (hst : s.state = .synReceived)
    (hflags : packet.flags = TcpFlags.SYN) :
    ∃ s', s.process packet = some s' ∧ s'.state = .synReceived := by
  have hack : packet.flags.ack = false := by rw [hflags]; rfl
  have hrst : packet.flags.rst = false := by rw [hflags]; rfl
  have hst₁ : (s.takeAck packet).state = .synReceived := takeAck_sameRecv.state.trans hst
  unfold process
  dsimp only
  split_ifs
  · exact ⟨_, rfl, hst₁⟩
  · simp only [dispatch, hst₁, handleSynReceived, hack, hrst, Option.bind_some,
      Bool.false_eq_true, false_and, if_false]
    exact ⟨_, rfl, hst₁⟩

/-! ## The send window -/

theorem finalize_of_ne (h : s.state ≠ .closed) :
    s.finalize = some { s with state := .closed, inBuffer := { s.inBuffer with shuttingDown := true } } := by
  rw [finalize, if_neg h]

theorem storeSegment_keeps : (s.storeSegment packet).state = s.state ∧
    (s.storeSegment packet).ctl.sndUna = s.ctl.sndUna := by
  unfold storeSegment
  dsimp only
  split_ifs <;> exact ⟨rfl, rfl⟩

/-- `handle_established` leaves `snd_una` alone, and ends established or in `LastAck`. -/
theorem handleEstablished_keeps (hst : s.state = .established) :
    (s.handleEstablished packet).state ≠ .closed ∧
      (s.handleEstablished packet).ctl.sndUna = s.ctl.sndUna := by
  obtain ⟨h₁, h₂⟩ := @storeSegment_keeps n m p s packet
  unfold handleEstablished
  dsimp only
  split_ifs <;> simp [sendAckFlags, sendPacket, h₁, h₂, hst]

/-- On an established connection every ack number other than `snd_una` becomes `snd_una`: one for
bytes never sent, and one older than `snd_una`, alike. -/
theorem process_takes_any_ack (s : SocketData n m p) (packet : Segment)
    (hst : s.state = .established) (hack : packet.flags.ack = true)
    (hne : packet.ackNr ≠ s.ctl.sndUna) :
    ∃ s', s.process packet = some s' ∧ s'.ctl.sndUna = packet.ackNr := by
  have hst₁ : (s.takeAck packet).state = .established := takeAck_sameRecv.state.trans hst
  have huna₁ := takeAck_sndUna hack hne
  obtain ⟨hopen, huna₂⟩ := @handleEstablished_keeps n m p (s.takeAck packet) packet hst₁
  unfold process
  dsimp only
  split_ifs
  · -- out of order: only the ack was taken
    exact ⟨_, rfl, huna₁⟩
  · simp only [dispatch, hst₁, Option.bind_some]
    split_ifs with hrst
    · exact ⟨_, finalize_of_ne hopen, huna₂.trans huna₁⟩
    · exact ⟨_, rfl, huna₂.trans huna₁⟩

/-- An ACK from the peer for byte 5001, one past `snd_nxt`. -/
def ackAhead : Segment where
  srcPort := 40000
  dstPort := 80
  seqNr := 1000
  ackNr := 5001
  flags := { TcpFlags.empty with ack := true }
  window := 65535
  data := []

/-- With nothing sent past 5000, the ACK for 5001 moves `snd_una` past `snd_nxt`. -/
theorem process_takes_any_ack_ahead :
    nearlyFull.ctl.sndNxt = 5000 ∧
      ∃ s', nearlyFull.process ackAhead = some s' ∧ s'.ctl.sndUna = 5001 :=
  ⟨rfl, process_takes_any_ack nearlyFull ackAhead rfl rfl (by decide)⟩

end SocketData

end Cykusz.Net.Tcp
