import Mathlib
import Cykusz.Syscall.Defs
import Cykusz.Net.Tcp.Socket

/-!
# The TCP handlers

`HANDLERS` maps a local port and a remote address to the socket that takes the segments sent to
them; a listener is registered with the empty address. `process_packet` looks a segment up by its
destination port and source address, and falls back to the listener of the port. A listener makes
a socket for every SYN it gets and registers it under the listener's port and the SYN's source
address; `finalize` releases a socket's key.

The key has no remote port. Once a connection from an address is registered, a SYN from the same
address for the same port, from another remote port, goes to that connection and never reaches
the listener (`second_syn_reaches_first`).

Timers are not modelled: a timer callback is a call of its own.
-/

namespace Cykusz.Net.Tcp

open Cykusz.Kernel Cykusz.Syscall

/-- A listening socket: new connections take its port and its `TransmissionCtl`, and wait in
`connections` for `accept`. A listener that is no longer listening ignores segments. -/
structure Listener where
  srcPort : BitVec 16
  state : State
  ctl : TransmissionCtl
  connections : List ℕ

/-- The data of a connected socket, with the rings `Socket::new_connected` and `connect` give it:
18 pages for `in_buffer` and `snd_buffer`, 8 for `proxy_buffer`. -/
abbrev Conn := SocketData (4096 * 18) (4096 * 18) (4096 * 8)

/-- A TCP socket, listening or connected. -/
inductive Sock
  | listener (l : Listener)
  | conn (c : Conn)

namespace Sock

def srcPort : Sock → BitVec 16
  | .listener l => l.srcPort
  | .conn c => c.srcPort

/-- `Socket::target`; a listener's is the empty address. -/
def target : Sock → Ip4
  | .listener _ => Ip4.empty
  | .conn c => c.target

def setSrcPort (p : BitVec 16) : Sock → Sock
  | .listener l => .listener { l with srcPort := p }
  | .conn c => .conn { c with srcPort := p }

end Sock

/-- The sockets by id, the `HANDLERS` map from keys to socket ids, and the next free id. -/
structure Stack where
  handlers : BitVec 16 × Ip4 → Option ℕ
  sockets : ℕ → Option Sock
  fresh : ℕ

namespace Stack

def empty : Stack := ⟨fun _ => none, fun _ => none, 0⟩

def setSock (net : Stack) (id : ℕ) (sock : Sock) : Stack :=
  { net with sockets := Function.update net.sockets id (some sock) }

/-- A new socket under the next free id. -/
def addSock (net : Stack) (sock : Sock) : Stack :=
  { net.setSock net.fresh sock with fresh := net.fresh + 1 }

def insertHandler (net : Stack) (key : BitVec 16 × Ip4) (id : ℕ) : Stack :=
  { net with handlers := Function.update net.handlers key (some id) }

/-- The first port from 49152 on that is free for `target`, as `register_ephemeral_handler`
tries them. -/
def ephemeralPort (net : Stack) (target : Ip4) : Option (BitVec 16) :=
  ((List.range' 49152 16384).map (BitVec.ofNat 16)).find? fun p => net.handlers (p, target) = none

/-- `register_handler` of the socket `id`: a socket on port 0 takes the first free ephemeral port;
another is registered when its key is free. The port, or `none` when nothing was registered. -/
def registerHandler (net : Stack) (id : ℕ) (sock : Sock) : Stack × Option (BitVec 16) :=
  if sock.srcPort = 0 then
    match net.ephemeralPort sock.target with
    | some p => ((net.setSock id (sock.setSrcPort p)).insertHandler (p, sock.target) id, some p)
    | none => (net, none)
  else if net.handlers (sock.srcPort, sock.target) = none then
    (net.insertHandler (sock.srcPort, sock.target) id, some sock.srcPort)
  else (net, none)

/-- `release_handler`; `none` is its panic on a key that is not registered. -/
def releaseHandler (net : Stack) (key : BitVec 16 × Ip4) : Option Stack :=
  if net.handlers key = none then none
  else some { net with handlers := Function.update net.handlers key none }

/-- The socket `process_packet` hands a segment from `src` to: the one registered for its
destination port and `src`, else the listener of the port. -/
def route (net : Stack) (src : Ip4) (packet : Segment) : Option ℕ :=
  match net.handlers (packet.dstPort, src) with
  | some id => some id
  | none => net.handlers (packet.dstPort, Ip4.empty)

/-- `SocketData::new_connected` from a listener for a SYN from `src`, after `init_connected` and
with the rings of `Socket::new_connected`. -/
def newConnected (l : Listener) (src : Ip4) (packet : Segment) : Conn :=
  SocketData.updateRcvNext
    { srcPort := l.srcPort
      dstPort := packet.srcPort
      target := src
      state := .synReceived
      ctl := l.ctl
      proxyBuffer := Buffer.new _ SocketData.eight_pages_pos
      sndBuffer := Buffer.new _ SocketData.eighteen_pages_pos
      inBuffer := BufferQueue.new _ SocketData.eighteen_pages_pos true true
      sent := [] } packet

@[simp] theorem newConnected_srcPort {l : Listener} {src : Ip4} {packet : Segment} :
    (newConnected l src packet).srcPort = l.srcPort := rfl

@[simp] theorem newConnected_dstPort {l : Listener} {src : Ip4} {packet : Segment} :
    (newConnected l src packet).dstPort = packet.srcPort := rfl

@[simp] theorem newConnected_target {l : Listener} {src : Ip4} {packet : Segment} :
    (newConnected l src packet).target = src := rfl

@[simp] theorem newConnected_state {l : Listener} {src : Ip4} {packet : Segment} :
    (newConnected l src packet).state = .synReceived := rfl

/-- `process_new_connection` of the listener `id`: a SYN without ACK makes a socket, which is
registered (the result is ignored), answers with SYN-ACK and waits for `accept`. -/
def processNewConnection (net : Stack) (id : ℕ) (l : Listener) (src : Ip4) (packet : Segment) :
    Stack :=
  if packet.flags.syn ∧ packet.flags.ack = false then
    let a := net.fresh
    let c := newConnected l src packet
    let net := (net.addSock (.conn c)).registerHandler a (.conn c) |>.1
    -- `ack_connection` runs on the socket as registered
    let net := match net.sockets a with
      | some (.conn c) => net.setSock a (.conn (c.sendAckFlags TcpFlags.SYN))
      | _ => net
    net.setSock id (.listener { l with connections := l.connections ++ [a] })
  else net

/-- `Socket::process_packet` of a connected socket. `finalize` is the only step to `Closed`; it
releases the socket's key. -/
def processConn (net : Stack) (id : ℕ) (c : Conn) (packet : Segment) : Option Stack :=
  (c.process packet).bind fun c' =>
    if c.state ≠ .closed ∧ c'.state = .closed then
      (net.setSock id (.conn c')).releaseHandler (c'.srcPort, c'.target)
    else some (net.setSock id (.conn c'))

/-- `tcp::process_packet` of a segment from `src`; without a handler the source gets an ICMP port
unreachable and nothing here changes. -/
def processPacket (net : Stack) (src : Ip4) (packet : Segment) : Option Stack :=
  match net.route src packet with
  | none => some net
  | some id =>
    match net.sockets id with
    | some (.listener l) =>
      if l.state = .listen then some (net.processNewConnection id l src packet) else some net
    | some (.conn c) => net.processConn id c packet
    | none => some net

/-- `finalize` of the listener `id`: it stops listening and releases its key. -/
def finalizeListener (net : Stack) (id : ℕ) (l : Listener) : Option Stack :=
  if l.state = .closed then none
  else (net.setSock id (.listener { l with state := .closed })).releaseHandler (l.srcPort, Ip4.empty)

/-- `tcp::port_unreachable` for a segment sent from `port`: the socket registered for the port
and the empty address is finalized. -/
def portUnreachable (net : Stack) (port : BitVec 16) : Option Stack :=
  match net.handlers (port, Ip4.empty) with
  | none => some net
  | some id =>
    match net.sockets id with
    | some (.listener l) => net.finalizeListener id l
    | some (.conn c) =>
      (c.finalize).bind fun c' =>
        (net.setSock id (.conn c')).releaseHandler (c'.srcPort, c'.target)
    | none => some net

/-- `SocketService::listen` of a new socket bound to `port`: it is registered and listens, or the
call fails with `EADDRINUSE` and nothing changes. -/
def listen (net : Stack) (port : BitVec 16) : Except SyscallError Stack :=
  let l : Listener := ⟨port, .closed, ⟨0, 0, 0, 0, 0⟩, []⟩
  let a := net.fresh
  match (net.addSock (.listener l)).registerHandler a (.listener l) with
  | (net', some _) =>
    match net'.sockets a with
    | some (.listener l) => .ok (net'.setSock a (.listener { l with state := .listen }))
    | _ => .ok net'
  | (_, none) => .error SyscallError.EADDRINUSE

/-! ## Routing and new connections -/

variable {net : Stack} {src : Ip4} {packet : Segment}

theorem route_of_handler {id : ℕ} (h : net.handlers (packet.dstPort, src) = some id) :
    net.route src packet = some id := by
  simp [route, h]

theorem route_of_listener (h : net.handlers (packet.dstPort, src) = none) :
    net.route src packet = net.handlers (packet.dstPort, Ip4.empty) := by
  simp [route, h]

/-- A listener on a port other than 0 answers a SYN from an address with no socket of its own on
that port: the new socket takes the next id and the key of the port and the address. -/
theorem processNewConnection_syn {id : ℕ} {l : Listener} (hsyn : packet.flags.syn = true)
    (hack : packet.flags.ack = false) (hport : l.srcPort ≠ 0)
    (hfree : net.handlers (l.srcPort, src) = none) (hid : id ≠ net.fresh) :
    (net.processNewConnection id l src packet).handlers =
        Function.update net.handlers (l.srcPort, src) (some net.fresh) ∧
      (net.processNewConnection id l src packet).sockets net.fresh =
        some (.conn ((newConnected l src packet).sendAckFlags TcpFlags.SYN)) ∧
      (net.processNewConnection id l src packet).sockets id =
        some (.listener { l with connections := l.connections ++ [net.fresh] }) := by
  have hport' : ¬l.srcPort = 0#16 := hport
  simp [processNewConnection, hsyn, hack, addSock, registerHandler, Sock.srcPort, Sock.target,
    hport', hfree, setSock, insertHandler, hid.symm]

/-! ## Two connections from one address -/

/-- The net after `listen` on a port other than 0: one listener, id 0, registered under the port
and the empty address. -/
theorem empty_listen {port : BitVec 16} (hport : port ≠ 0) :
    empty.listen port = .ok
      { handlers := Function.update (fun _ => none) (port, Ip4.empty) (some 0)
        sockets := Function.update (fun _ => none) 0
          (some (.listener ⟨port, .listen, ⟨0, 0, 0, 0, 0⟩, []⟩))
        fresh := 1 } := by
  simp [listen, registerHandler, addSock, setSock, insertHandler, empty, Sock.srcPort, Sock.target,
    show ¬port = 0#16 from hport]

/-- The key has no remote port: after the listener on `port` has answered a SYN from `ip`, a SYN
from `ip` to the same port from any other remote port goes to the socket made for the first, and
the listener makes no socket for it. -/
theorem second_syn_reaches_first (port : BitVec 16) (hport : port ≠ 0) (ip : Ip4)
    (hip : ip ≠ Ip4.empty) (syn₁ syn₂ : Segment)
    (h₁ : syn₁.dstPort = port ∧ syn₁.flags = TcpFlags.SYN)
    (h₂ : syn₂.dstPort = port ∧ syn₂.flags = TcpFlags.SYN) (hother : syn₁.srcPort ≠ syn₂.srcPort) :
    ∃ net₀ net₁ net₂ c, empty.listen port = .ok net₀ ∧ net₀.processPacket ip syn₁ = some net₁ ∧
      net₁.route ip syn₂ = some 1 ∧ net₁.sockets 1 = some (.conn c) ∧
      c.dstPort = syn₁.srcPort ∧ c.dstPort ≠ syn₂.srcPort ∧
      net₁.processPacket ip syn₂ = some net₂ ∧
      ∃ l, net₂.sockets 0 = some (.listener l) ∧ l.connections = [1] := by
  obtain ⟨hdst₁, hsyn₁⟩ := h₁
  obtain ⟨hdst₂, hsyn₂⟩ := h₂
  have hkey : ((port, ip) : BitVec 16 × Ip4) ≠ (port, Ip4.empty) := fun h => hip (Prod.mk.inj h).2
  -- the first SYN finds no socket of its own and goes to the listener, which registers id 1
  set l₀ : Listener := ⟨port, .listen, ⟨0, 0, 0, 0, 0⟩, []⟩
  set net₀ : Stack :=
    { handlers := Function.update (fun _ => none) (port, Ip4.empty) (some 0)
      sockets := Function.update (fun _ => none) 0 (some (.listener l₀))
      fresh := 1 }
  have hr₁ : net₀.route ip syn₁ = some 0 := by
    rw [route_of_listener (by simp [net₀, hdst₁, hkey]), hdst₁]
    simp [net₀]
  obtain ⟨hh₁, hs₁, hl₁⟩ := @processNewConnection_syn net₀ ip syn₁ 0 l₀ (by rw [hsyn₁]; rfl) (by rw [hsyn₁]; rfl) hport (by simp [net₀, l₀, hkey])
    Nat.zero_ne_one
  have hp₁ : net₀.processPacket ip syn₁ = some (net₀.processNewConnection 0 l₀ ip syn₁) := by
    rw [processPacket, hr₁]
    simp [net₀, l₀]
  set net₁ := net₀.processNewConnection 0 l₀ ip syn₁
  -- the second SYN finds the key of the first connection
  have hr₂ : net₁.route ip syn₂ = some 1 := by
    apply route_of_handler
    rw [hh₁, hdst₂]
    simp [net₀, l₀]
  set c := (newConnected l₀ ip syn₁).sendAckFlags TcpFlags.SYN
  have hs₁' : net₁.sockets 1 = some (.conn c) := hs₁
  have hl₁' : net₁.sockets 0 = some (.listener { l₀ with connections := [1] }) := hl₁
  have hc : c.state = .synReceived := rfl
  obtain ⟨c', hproc, hst'⟩ := @SocketData.process_syn_of_synReceived _ _ _ c syn₂ hc hsyn₂
  have hp₂ : net₁.processPacket ip syn₂ = some (net₁.setSock 1 (.conn c')) := by
    rw [processPacket, hr₂]
    simp [hs₁', processConn, hproc, hst']
  have hl₂ : (net₁.setSock 1 (.conn c')).sockets 0 =
      some (.listener { l₀ with connections := [1] }) := by
    simp [setSock, hl₁']
  exact ⟨net₀, net₁, _, c, empty_listen hport, hp₁, hr₂, hs₁', rfl, hother, hp₂, _, hl₂, rfl⟩

/-- A SYN to port 80 from the remote port `srcPort`, with initial sequence number `seqNr`. -/
def synFrom (srcPort : BitVec 16) (seqNr : BitVec 32) : Segment :=
  ⟨srcPort, 80, seqNr, 0, TcpFlags.SYN, 65535, []⟩

/-- A server listens on port 80; 10.0.0.2 connects from port 40000, then from port 40001. The
second SYN goes to the socket of the first connection. -/
theorem second_syn_reaches_first_web :
    ∃ net₀ net₁ net₂ c, empty.listen 80 = .ok net₀ ∧
      net₀.processPacket ⟨0x0A000002⟩ (synFrom 40000 100) = some net₁ ∧
      net₁.route ⟨0x0A000002⟩ (synFrom 40001 7000) = some 1 ∧ net₁.sockets 1 = some (.conn c) ∧
      c.dstPort = (synFrom 40000 100).srcPort ∧ c.dstPort ≠ (synFrom 40001 7000).srcPort ∧
      net₁.processPacket ⟨0x0A000002⟩ (synFrom 40001 7000) = some net₂ ∧
      ∃ l, net₂.sockets 0 = some (.listener l) ∧ l.connections = [1] :=
  second_syn_reaches_first 80 (by decide) ⟨0x0A000002⟩ (by decide) (synFrom 40000 100)
    (synFrom 40001 7000) ⟨rfl, rfl⟩ ⟨rfl, rfl⟩ (by decide)

end Stack

end Cykusz.Net.Tcp
