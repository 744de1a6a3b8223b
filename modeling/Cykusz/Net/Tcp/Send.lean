import Mathlib
import Cykusz.Lib.SeqSpace
import Cykusz.Lib.Simulation
import Cykusz.Net.Tcp.Close

/-!
# The send side of a connection

A connection sends what the application writes in segments numbered from `snd_nxt`, and keeps the
payload of each in `snd_buffer` until the peer acknowledges it: `process_ack` moves `snd_una` to
the ack number and drops as many bytes from the ring, and `tx_timeout` resends from the ring.

Over every run of writes, reads, ACK timeouts and segments from a peer that neither closes nor
resets the connection and acknowledges only what was sent, an established connection keeps
`snd_buffer` exactly the bytes sent and not yet acknowledged, the last `snd_nxt - snd_una` bytes of
the data it has sent, and the segments of the run take consecutive sequence numbers from the old
`snd_nxt` to the new (`snd_buffer_holds_unacked`).

The order of the stream is not kept. `write_at` sends a write at once when the window has room for
all of it and queues it in `proxy_buffer` otherwise, without looking at what that ring already
holds, so a short write that follows a long one goes out first (`short_write_overtakes`).

`tx_timeout`'s retransmissions are not in `sent`: they repeat bytes of the ring and change no
state.
-/

namespace Cykusz.Net.Tcp

open Cykusz.Kernel SeqSpace Simulation

/-- Segments that take consecutive sequence numbers from `a` to `b`: each starts where the one
before it ended. -/
def Tiles : List Segment → BitVec 32 → BitVec 32 → Prop
  | [], a, b => a = b
  | seg :: rest, a, b => seg.seqNr = a ∧ Tiles rest (a + seg.ackLen) b

theorem Tiles.append {l₁ l₂ : List Segment} {a b c : BitVec 32} (h₁ : Tiles l₁ a b)
    (h₂ : Tiles l₂ b c) : Tiles (l₁ ++ l₂) a c := by
  induction l₁ generalizing a with
  | nil =>
    obtain rfl : a = b := h₁
    exact h₂
  | cons seg rest ih => exact ⟨h₁.1, ih h₁.2⟩

/-- A segment without SYN or FIN takes one sequence number for each byte of its payload. -/
theorem Segment.ackLen_of_flags {packet : Segment} (hfin : packet.flags.fin = false)
    (hsyn : packet.flags.syn = false) : packet.ackLen = BitVec.ofNat 32 packet.data.length := by
  simp [Segment.ackLen, hfin, hsyn]

namespace SocketData

variable {n m p : ℕ}

/-- The payload bytes of the segments sent, in the order they were sent. -/
def sentData (s : SocketData n m p) : List UInt8 := s.sent.flatMap Segment.data

/-- How many sequence numbers are sent and not yet acknowledged. -/
def outstanding (s : SocketData n m p) : ℕ := dist s.ctl.sndUna s.ctl.sndNxt

/-- An established connection whose retransmission ring holds the bytes sent and not yet
acknowledged, the last `outstanding` bytes of its data; the peer's window and what is outstanding
fit in 16 bits. -/
structure Retransmits (s : SocketData n m p) : Prop where
  established : s.state = .established
  wnd_lt : s.ctl.sndWnd.toNat < 2 ^ 16
  outstanding_lt : s.outstanding < 2 ^ 16
  outstanding_le : s.outstanding ≤ s.sentData.length
  unacked : s.sndBuffer.contents = s.sentData.rtake s.outstanding

/-- `s'` is `s` after sending some segments, which take consecutive sequence numbers from the old
`snd_nxt` to the new. -/
def Extends (s s' : SocketData n m p) : Prop :=
  ∃ new, s'.sent = s.sent ++ new ∧ Tiles new s.ctl.sndNxt s'.ctl.sndNxt

/-- What drives a connection: the application writes or reads, the ACK timer fires
(`rx_timeout`), or a segment comes in. -/
inductive Event
  | write (buf : List UInt8) (nonblock : Bool)
  | read (len : ℕ) (noHang : Bool)
  | rxTimeout
  | segment (packet : Segment)

/-- One event; a call that blocks or fails ends the run. -/
def step (s : SocketData n m p) : Event → Option (SocketData n m p)
  | .write buf nonblock => (s.writeAt buf nonblock).bind fun r => r.toOption.map Prod.fst
  | .read len noHang => (s.readAt len noHang).bind fun r => r.toOption.map Prod.fst
  | .rxTimeout => some s.sendAck
  | .segment packet => s.process packet

/-- A segment from a peer that neither closes nor resets the connection and acknowledges only
sequence numbers that were sent. -/
def Acceptable (s : SocketData n m p) : Event → Prop
  | .segment packet => packet.flags.fin = false ∧ packet.flags.rst = false ∧
      (packet.flags.ack = true → dist s.ctl.sndUna packet.ackNr ≤ s.outstanding)
  | _ => True

/-- `s'` follows `s` on the send path: from a connection that keeps its retransmission ring, it
keeps its ring too, and the segments sent in between take consecutive sequence numbers. -/
def Keeps (s s' : SocketData n m p) : Prop := s.Retransmits → s'.Retransmits ∧ Extends s s'

/-! ## What each part of the send path keeps -/

variable {s s' s'' : SocketData n m p}

theorem Retransmits.congr (h : s.Retransmits) (hst : s'.state = s.state)
    (hwnd : s'.ctl.sndWnd = s.ctl.sndWnd) (hnxt : s'.ctl.sndNxt = s.ctl.sndNxt)
    (huna : s'.ctl.sndUna = s.ctl.sndUna) (hbuf : s'.sndBuffer = s.sndBuffer)
    (hd : s'.sentData = s.sentData) : s'.Retransmits := by
  have ho : s'.outstanding = s.outstanding := by rw [outstanding, outstanding, hnxt, huna]
  exact ⟨hst.trans h.established, hwnd ▸ h.wnd_lt, ho ▸ h.outstanding_lt,
    ho ▸ hd ▸ h.outstanding_le, by rw [hbuf, ho, hd]; exact h.unacked⟩

theorem extends_of_eq (hnxt : s'.ctl.sndNxt = s.ctl.sndNxt) (hsent : s'.sent = s.sent) :
    Extends s s' :=
  ⟨[], by rw [hsent, List.append_nil], hnxt.symm⟩

theorem Extends.trans (h₁ : Extends s s') (h₂ : Extends s' s'') : Extends s s'' := by
  obtain ⟨new₁, hs₁, ht₁⟩ := h₁
  obtain ⟨new₂, hs₂, ht₂⟩ := h₂
  exact ⟨new₁ ++ new₂, by rw [hs₂, hs₁, List.append_assoc], ht₁.append ht₂⟩

theorem Keeps.refl (s : SocketData n m p) : Keeps s s := fun h => ⟨h, extends_of_eq rfl rfl⟩

theorem Keeps.trans (h₁ : Keeps s s') (h₂ : Keeps s' s'') : Keeps s s'' := fun h =>
  have ⟨h', hx'⟩ := h₁ h
  have ⟨h'', hx''⟩ := h₂ h'
  ⟨h'', hx'.trans hx''⟩

/-- A change that leaves the send side alone: the state, the peer's window, the sequence numbers
sent and acknowledged, the ring and the segments sent. -/
theorem keeps_of_frame (hst : s'.state = s.state) (hwnd : s'.ctl.sndWnd = s.ctl.sndWnd)
    (hnxt : s'.ctl.sndNxt = s.ctl.sndNxt) (huna : s'.ctl.sndUna = s.ctl.sndUna)
    (hbuf : s'.sndBuffer = s.sndBuffer) (hsent : s'.sent = s.sent) : Keeps s s' := fun h =>
  ⟨h.congr hst hwnd hnxt huna hbuf (by rw [sentData, sentData, hsent]), extends_of_eq hnxt hsent⟩

/-- A segment numbered from `snd_nxt` extends what was sent. -/
theorem extends_sendPacket {packet : Segment} (hseq : packet.seqNr = s.ctl.sndNxt) (queue : Bool) :
    Extends s (s.sendPacket packet queue) :=
  ⟨[packet], rfl, hseq, rfl⟩

theorem sentData_sendPacket (packet : Segment) (queue : Bool) :
    (s.sendPacket packet queue).sentData = s.sentData ++ packet.data := by
  simp [sentData, sendPacket]

theorem Retransmits.length_contents (h : s.Retransmits) :
    s.sndBuffer.contents.length = s.outstanding := by
  rw [h.unacked, length_rtake]
  exact min_eq_left h.outstanding_le

/-- A segment with no payload, SYN or FIN, such as an ACK, leaves what is outstanding as it was. -/
theorem Retransmits.sendPacket_empty (h : s.Retransmits) {packet : Segment}
    (hd : packet.data = []) (hfin : packet.flags.fin = false) (hsyn : packet.flags.syn = false) :
    (s.sendPacket packet false).Retransmits := by
  have hlen : packet.ackLen = 0 := by rw [Segment.ackLen_of_flags hfin hsyn, hd]; rfl
  refine h.congr rfl rfl ?_ rfl rfl ?_
  · simp [sendPacket, hlen]
  · rw [sentData_sendPacket, hd, List.append_nil]

/-- A segment whose payload fits in what is left of 16 bits is kept in the ring behind the bytes
that were outstanding. -/
theorem Retransmits.sendPacket_data (hm : 2 ^ 16 ≤ m) (h : s.Retransmits) {packet : Segment}
    (hd : packet.data ≠ []) (hfin : packet.flags.fin = false) (hsyn : packet.flags.syn = false)
    (hfit : s.outstanding + packet.data.length < 2 ^ 16) :
    (s.sendPacket packet true).Retransmits ∧
      (s.sendPacket packet true).outstanding = s.outstanding + packet.data.length := by
  have ho : (s.sendPacket packet true).outstanding = s.outstanding + packet.data.length := by
    have hfit' : dist s.ctl.sndUna s.ctl.sndNxt + packet.data.length < 2 ^ 32 := by
      simp only [outstanding] at hfit
      omega
    simp only [outstanding, sendPacket, Segment.ackLen_of_flags hfin hsyn]
    exact dist_add_ofNat _ _ hfit'
  have hsize : s.sndBuffer.size = s.outstanding := by
    rw [← Buffer.length_contents, h.length_contents]
  obtain ⟨-, hc⟩ := Buffer.appendData_spec (b := s.sndBuffer) packet.data (.inl hd)
  refine ⟨⟨h.established, h.wnd_lt, ho ▸ hfit, ?_, ?_⟩, ho⟩
  · rw [ho, sentData_sendPacket, List.length_append]
    have := h.outstanding_le
    omega
  · -- the ring has room for the whole payload, which lands behind the outstanding bytes
    rw [ho, sentData_sendPacket, rtake_append h.outstanding_le, ← h.unacked]
    simp only [sendPacket, if_true]
    rw [hc, hsize, List.take_of_length_le (by omega)]

@[simp] theorem seqNr_makeAckPacket (data : List UInt8) (flags : TcpFlags) :
    (s.makeAckPacket data flags).seqNr = s.ctl.sndNxt := rfl

@[simp] theorem data_makeAckPacket (data : List UInt8) (flags : TcpFlags) :
    (s.makeAckPacket data flags).data = data := rfl

@[simp] theorem fin_makeAckPacket (data : List UInt8) (flags : TcpFlags) :
    (s.makeAckPacket data flags).flags.fin = flags.fin := rfl

@[simp] theorem syn_makeAckPacket (data : List UInt8) (flags : TcpFlags) :
    (s.makeAckPacket data flags).flags.syn = flags.syn := rfl

/-- `send_ack`: an empty segment numbered from `snd_nxt`. -/
theorem keeps_sendAck (s : SocketData n m p) : Keeps s s.sendAck := fun h =>
  ⟨h.sendPacket_empty rfl rfl rfl, extends_sendPacket rfl false⟩

/-- What the window lets the socket send is what the peer's window leaves over the outstanding
bytes. -/
theorem outstanding_add_le {c : ℕ} (hc : 0 < c) (h : c ≤ s.ctl.availableWindow) :
    s.outstanding + c ≤ s.ctl.sndWnd.toNat := by
  simp only [TransmissionCtl.availableWindow] at h
  split_ifs at h with hgt
  · omega
  · rw [gt_iff_lt, BitVec.lt_def] at hgt
    simp only [outstanding, SeqSpace.dist]
    omega

/-- The loop of `drain_proxy_buffer` sends from the proxy ring only what the window allows, each
payload kept in the ring. -/
theorem keeps_drainLoop (hm : 2 ^ 16 ≤ m) : Keeps s s.drainLoop := by
  fun_induction SocketData.drainLoop s with
  | case1 s hcond cap packet ih =>
    intro h
    obtain ⟨hdata, hwin⟩ := hcond
    -- the payload is the first `cap` bytes of the proxy ring, and there are that many
    have hne := Buffer.hasData_iff.1 hdata
    have hsize : 0 < s.proxyBuffer.size := by
      rw [← Buffer.length_contents]
      exact List.length_pos_of_ne_nil hne
    have hcap : 0 < cap := by simp only [cap]; omega
    have hread := (Buffer.readData_spec (b := s.proxyBuffer) cap).1
    have hlen : packet.data.length = cap := by
      simp only [packet, data_makeAckPacket, hread, List.length_take, Buffer.length_contents, cap]
      omega
    have hfit := outstanding_add_le hcap (show cap ≤ s.ctl.availableWindow by simp only [cap]; omega)
    have h₀ : ({ s with proxyBuffer := (s.proxyBuffer.readData cap).1 }).Retransmits :=
      h.congr rfl rfl rfl rfl rfl rfl
    have hd : packet.data ≠ [] := List.ne_nil_of_length_pos (by omega)
    obtain ⟨h₁, -⟩ := h₀.sendPacket_data hm hd rfl rfl (by
      change s.outstanding + packet.data.length < 2 ^ 16
      have := h.wnd_lt
      omega)
    obtain ⟨h₂, hx₂⟩ := ih h₁
    exact ⟨h₂, (extends_sendPacket rfl true).trans hx₂⟩
  | case2 s _ => exact Keeps.refl s

/-- `write_at`'s direct path sends the bytes in segments of up to 1460, each kept in the ring,
when the window has room for all of them. -/
theorem keeps_sendChunks (hm : 2 ^ 16 ≤ m) (buf : List UInt8) :
    s.outstanding + buf.length ≤ s.ctl.sndWnd.toNat → Keeps s (s.sendChunks buf) := by
  fun_induction SocketData.sendChunks s buf with
  | case1 s => exact fun _ => Keeps.refl s
  | case2 s buf hne s₁ ih =>
    intro hroom h
    have hd : (s.makeAckPacket (buf.take 1460) .empty).data ≠ [] := by simp [hne]
    have hlen := h.wnd_lt
    obtain ⟨h₁, ho₁⟩ := h.sendPacket_data hm hd rfl rfl
      (by simp only [data_makeAckPacket, List.length_take]; omega)
    have h₂ : ({ s₁ with ctl := { s₁.ctl with rcvWnd := 0 } }).Retransmits :=
      h₁.congr rfl rfl rfl rfl rfl rfl
    -- the bytes left and those now outstanding still fit the peer's window
    obtain ⟨h₃, hx₃⟩ := ih (by
      change s₁.outstanding + (buf.drop 1460).length ≤ s.ctl.sndWnd.toNat
      rw [ho₁]
      simp only [data_makeAckPacket, List.length_take, List.length_drop]
      omega) h₂
    exact ⟨h₃, (extends_sendPacket rfl true).trans hx₃⟩

/-- The direct path puts the whole write on the wire, in order. -/
theorem sentData_sendChunks (buf : List UInt8) :
    (s.sendChunks buf).sentData = s.sentData ++ buf := by
  fun_induction SocketData.sendChunks s buf with
  | case1 s => rw [List.append_nil]
  | case2 s buf hne s₁ ih =>
    rw [ih]
    change (s.sendPacket _ true).sentData ++ _ = _
    rw [sentData_sendPacket, data_makeAckPacket, List.append_assoc, List.take_append_drop]

theorem proxyBuffer_sendChunks (buf : List UInt8) :
    (s.sendChunks buf).proxyBuffer = s.proxyBuffer := by
  fun_induction SocketData.sendChunks s buf with
  | case1 s => rfl
  | case2 s buf hne s₁ ih => exact ih

theorem keeps_drainProxyBuffer (hm : 2 ^ 16 ≤ m) : Keeps s s.drainProxyBuffer := by
  unfold drainProxyBuffer
  split_ifs
  · exact Keeps.refl s
  · exact keeps_drainLoop hm

/-- An ack within what is outstanding drops as many bytes from the front of the ring: they are
the oldest of those sent. -/
theorem keeps_ack {packet : Segment} (hack : dist s.ctl.sndUna packet.ackNr ≤ s.outstanding) :
    Keeps s { s with
      sndBuffer := (s.sndBuffer.markAsRead (packet.ackNr - s.ctl.sndUna).toNat).1
      ctl := { s.ctl with sndUna := packet.ackNr } } := by
  intro h
  have ho : dist packet.ackNr s.ctl.sndNxt = s.outstanding - dist s.ctl.sndUna packet.ackNr :=
    dist_of_le _ _ _ hack
  have hle := h.outstanding_le
  refine ⟨⟨h.established, h.wnd_lt, ?_, ?_, ?_⟩, extends_of_eq rfl rfl⟩
  · change dist packet.ackNr s.ctl.sndNxt < 2 ^ 16
    have := h.outstanding_lt
    omega
  · change dist packet.ackNr s.ctl.sndNxt ≤ s.sentData.length
    omega
  · change (s.sndBuffer.markAsRead (dist s.ctl.sndUna packet.ackNr)).1.contents =
      s.sentData.rtake (dist packet.ackNr s.ctl.sndNxt)
    rw [(Buffer.markAsRead_spec _).2, h.unacked, drop_rtake _ hle, ho]

/-- `process_ack` with an ack number within what is outstanding. -/
theorem keeps_processAck (hm : 2 ^ 16 ≤ m) {packet : Segment}
    (hack : dist s.ctl.sndUna packet.ackNr ≤ s.outstanding) : Keeps s (s.processAck packet) := by
  by_cases heq : s.ctl.sndUna = packet.ackNr
  · rw [processAck_of_eq heq]
    exact Keeps.refl s
  · rw [processAck, if_pos heq]
    exact (keeps_ack hack).trans (keeps_drainProxyBuffer hm)

/-- The peer's window is a 16-bit field. -/
theorem keeps_window (packet : Segment) :
    Keeps s { s with ctl := { s.ctl with sndWnd := packet.window.setWidth 32 } } := by
  intro h
  refine ⟨⟨h.established, ?_, h.outstanding_lt, h.outstanding_le, h.unacked⟩, extends_of_eq rfl rfl⟩
  change (packet.window.setWidth 32).toNat < 2 ^ 16
  rw [BitVec.toNat_setWidth]
  have := packet.window.isLt
  omega

theorem keeps_takeAck (hm : 2 ^ 16 ≤ m) {packet : Segment}
    (hack : packet.flags.ack = true → dist s.ctl.sndUna packet.ackNr ≤ s.outstanding) :
    Keeps s (s.takeAck packet) := by
  unfold takeAck
  dsimp only
  split_ifs with hflag
  · exact (keeps_window packet).trans (keeps_processAck hm (hack hflag))
  · exact keeps_window packet

/-! ### The receive side -/

theorem keeps_inBuffer (s : SocketData n m p) (q : BufferQueue n) :
    Keeps s { s with inBuffer := q } :=
  keeps_of_frame rfl rfl rfl rfl rfl rfl

theorem keeps_rcvWnd (s : SocketData n m p) (w : BitVec 32) :
    Keeps s { s with ctl := { s.ctl with rcvWnd := w } } :=
  keeps_of_frame rfl rfl rfl rfl rfl rfl

theorem keeps_updateRcvNext (s : SocketData n m p) (packet : Segment) :
    Keeps s (s.updateRcvNext packet) :=
  keeps_of_frame rfl rfl rfl rfl rfl rfl

/-- Storing a segment changes only the receive side, but for the ACK sent every 16 KiB. -/
theorem keeps_storeSegment (packet : Segment) : Keeps s (s.storeSegment packet) := by
  unfold storeSegment
  dsimp only
  split_ifs
  · -- the ACK goes out between two updates of `rcv_wnd`
    refine Keeps.trans ?_ (keeps_rcvWnd _ 0)
    refine Keeps.trans ?_ (keeps_sendAck _)
    refine Keeps.trans ?_ (keeps_rcvWnd _ _)
    exact (keeps_inBuffer s _).trans (keeps_updateRcvNext _ packet)
  · exact ((keeps_inBuffer s _).trans (keeps_updateRcvNext _ packet)).trans (keeps_rcvWnd _ _)
  · exact keeps_inBuffer s _

theorem keeps_handleEstablished {packet : Segment} (hfin : packet.flags.fin = false) :
    Keeps s (s.handleEstablished packet) := by
  unfold handleEstablished
  simp only [hfin, Bool.false_eq_true, or_false, if_false]
  split_ifs
  · exact keeps_storeSegment packet
  · exact Keeps.refl s
  · exact Keeps.refl s

/-- A segment that neither closes nor resets the connection, and acknowledges only what was
sent, whether it comes in order or not. -/
theorem keeps_process (hm : 2 ^ 16 ≤ m) {packet : Segment} (hfin : packet.flags.fin = false)
    (hrst : packet.flags.rst = false)
    (hack : packet.flags.ack = true → dist s.ctl.sndUna packet.ackNr ≤ s.outstanding)
    (hproc : s.process packet = some s') : Keeps s s' := by
  intro h
  have hx₁ := keeps_takeAck hm hack
  obtain ⟨h₁, -⟩ := hx₁ h
  by_cases hseq : (s.takeAck packet).ctl.rcvNxt = packet.seqNr
  · rw [process_of_established h₁.established hseq hrst, Option.some_inj] at hproc
    subst hproc
    exact (hx₁.trans (keeps_handleEstablished hfin)) h
  · -- out of order: only the ack is taken
    simp only [process, h₁.established, hseq, ne_eq, reduceCtorEq, not_false_eq_true, true_and,
      if_true, Option.some_inj] at hproc
    subst hproc
    exact hx₁ h

/-! ### Reads and writes -/

/-- A read takes bytes from `in_buffer`, and announces the new window with an ACK. -/
theorem keeps_read {len : ℕ} {noHang : Bool} (hstep : step s (.read len noHang) = some s') :
    Keeps s s' := by
  simp only [step, readAt] at hstep
  rcases hq : s.inBuffer.readDataFlags len noHang with _ | (e | qr)
  · simp [hq] at hstep
  · simp [hq, Except.map, Except.toOption] at hstep
  · simp only [hq, Option.map_some, Option.bind_some, Except.map, Except.toOption,
      Option.some_inj] at hstep
    subst hstep
    split_ifs
    · exact (keeps_inBuffer s _).trans (keeps_sendAck _)
    · exact keeps_inBuffer s _

/-- A write on an established connection either goes out at once, when the window has room for
all of it, or waits in the proxy ring. -/
theorem keeps_write (hm : 2 ^ 16 ≤ m) {buf : List UInt8} {nonblock : Bool}
    (hstep : step s (.write buf nonblock) = some s') : Keeps s s' := by
  intro h
  have hl : s.state ≠ .listen := by rw [h.established]; decide
  simp only [step, writeAt, if_neg hl, if_pos h.established] at hstep
  by_cases hwin : s.ctl.availableWindow < buf.length
  · -- the bytes wait in the proxy ring, or the writer sleeps
    rw [if_pos hwin] at hstep
    split at hstep
    · simp at hstep
    · simp only [Option.bind_some, Except.toOption, Option.map_some, Option.some_inj] at hstep
      subst hstep
      exact keeps_of_frame rfl rfl rfl rfl rfl rfl h
  · rw [if_neg hwin] at hstep
    simp only [Option.bind_some, Except.toOption, Option.map_some, Option.some_inj] at hstep
    subst hstep
    by_cases hb : buf = []
    · rw [hb, sendChunks, if_pos rfl]
      exact Keeps.refl s h
    · have hpos := List.length_pos_of_ne_nil hb
      exact keeps_sendChunks hm buf (outstanding_add_le hpos (by omega)) h

/-! ## Over a run -/

/-- One event from a peer that neither closes nor resets the connection and acknowledges only what
was sent. -/
theorem keeps_step (hm : 2 ^ 16 ≤ m) {e : Event} (hok : Acceptable s e)
    (hstep : step s e = some s') : Keeps s s' := by
  cases e with
  | write buf nonblock => exact keeps_write hm hstep
  | read len noHang => exact keeps_read hstep
  | rxTimeout =>
    rw [step, Option.some_inj] at hstep
    subst hstep
    exact keeps_sendAck s
  | segment packet =>
    obtain ⟨hfin, hrst, hack⟩ := hok
    exact keeps_process hm hfin hrst hack hstep

/-- Over every run of writes, reads, ACK timeouts and segments from a peer that neither closes nor
resets the connection and acknowledges only what was sent, the retransmission ring holds exactly
the bytes sent and not yet acknowledged, and the segments of the run take consecutive sequence
numbers from the old `snd_nxt` to the new. -/
theorem snd_buffer_holds_unacked (hm : 2 ^ 16 ≤ m) (hs : s.Retransmits) (events : List Event)
    (hev : Guarded step Acceptable s events) (hrun : run step s events = some s') :
    s'.Retransmits ∧ Extends s s' := by
  -- the invariant of the run: the ring as it should be, and the segments tiling from `s`
  have hstep : ∀ t e t', t.Retransmits ∧ Extends s t → Acceptable t e → step t e = some t' →
      t'.Retransmits ∧ Extends s t' := by
    rintro t e t' ⟨ht, hx⟩ hok hst
    obtain ⟨ht', hx'⟩ := keeps_step hm hok hst ht
    exact ⟨ht', hx.trans hx'⟩
  exact run_inv hstep events s s' ⟨hs, extends_of_eq rfl rfl⟩ hev hrun

/-- Three bytes written and an ACK timeout on an idle established connection. -/
theorem snd_buffer_holds_unacked_write :
    ∃ s', run step nearlyFull [.write [1, 2, 3] false, .rxTimeout] = some s' ∧
      s'.Retransmits ∧ Extends nearlyFull s' :=
  ⟨_, rfl, snd_buffer_holds_unacked (by decide) ⟨rfl, by decide, by decide, by decide, by decide⟩
    [.write [1, 2, 3] false, .rxTimeout] ⟨trivial, fun _ _ => ⟨trivial, fun _ _ => trivial⟩⟩ rfl⟩

/-! ## The order of the stream -/

/-- A write too long for the window waits in the proxy ring, and a write after it short enough
for the window goes out at once, ahead of it: the wire carries the short write right after what
was sent before. -/
theorem short_write_overtakes (hst : s.state = .established) {a b : List UInt8} (nb₁ nb₂ : Bool)
    (hlong : s.ctl.availableWindow < a.length) (hroom : a.length ≤ s.proxyBuffer.availableSize)
    (hshort : b.length ≤ s.ctl.availableWindow) :
    ∃ s₁ s₂, s.writeAt a nb₁ = some (.ok (s₁, a.length)) ∧
      s₁.writeAt b nb₂ = some (.ok (s₂, b.length)) ∧
      s₂.sentData = s.sentData ++ b ∧ s₂.proxyBuffer.contents = s.proxyBuffer.contents ++ a := by
  have hl : s.state ≠ .listen := by rw [hst]; decide
  have ha : a ≠ [] := List.ne_nil_of_length_pos (by omega)
  set s₁ := { s with proxyBuffer := (s.proxyBuffer.appendData a).1 } with hs₁
  have hw₁ : s.writeAt a nb₁ = some (.ok (s₁, a.length)) := by
    simp only [writeAt, if_neg hl, if_pos hst, if_pos hlong, if_neg ha, s₁]
    rw [if_neg (by omega)]
  -- the second write sees the same window: only the proxy ring changed
  have hw₂ : s₁.writeAt b nb₂ = some (.ok (s₁.sendChunks b, b.length)) := by
    simp only [writeAt, s₁, if_neg hl, if_pos hst, if_neg (Nat.not_lt.2 hshort)]
  refine ⟨s₁, s₁.sendChunks b, hw₁, hw₂, sentData_sendChunks b, ?_⟩
  obtain ⟨-, hc⟩ := Buffer.appendData_spec (b := s.proxyBuffer) a (.inl ha)
  rw [proxyBuffer_sendChunks, hc, ← Buffer.availableSize_eq, List.take_of_length_le hroom]

/-- On a connection whose peer has opened a window of two bytes, four bytes are written, then two:
the two go out first. -/
theorem short_write_overtakes_small :
    ∃ s₁ s₂, ({ nearlyFull with ctl := ⟨5000, 5000, 2, 1000, 0⟩ }).writeAt [5, 6, 7, 8] false =
        some (.ok (s₁, 4)) ∧
      s₁.writeAt [1, 2] false = some (.ok (s₂, 2)) ∧
      s₂.sentData = [1, 2] ∧ s₂.proxyBuffer.contents = [5, 6, 7, 8] := by
  obtain ⟨s₁, s₂, h₁, h₂, hd, hc⟩ := short_write_overtakes
    (s := { nearlyFull with ctl := ⟨5000, 5000, 2, 1000, 0⟩ }) (a := [5, 6, 7, 8]) (b := [1, 2])
    rfl false false (by decide) (by decide) (by decide)
  exact ⟨s₁, s₂, h₁, h₂, hd, hc⟩

end SocketData

end Cykusz.Net.Tcp
