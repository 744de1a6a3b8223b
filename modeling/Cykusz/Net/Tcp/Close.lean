import Mathlib
import Cykusz.Lib.Simulation
import Cykusz.Net.Tcp.Handlers

/-!
# Closing a connection

An application lets go of a TCP socket by dropping its file handles. `INode::close` of a socket
does nothing (its body is commented out), so the connection is closed only by `Drop for Socket`,
which runs `SocketData::close` when the last strong reference to the socket goes. The file handles
hold such references, and so does `HANDLERS`, under the socket's key, from `register_handler` until
`finalize` releases it; a timer holds only a weak one.

For an established connection `finalize` comes only from the peer: `close` is what would send the
FIN, and `close` waits for a `Drop` that waits for `finalize`. From an established connection that
`HANDLERS` holds, every run of closes of the socket's handles and of segments from its peer that
set neither FIN nor RST returns, and leaves the connection established and held
(`close_keeps_established`): the application closing its last handle sends no FIN, and a peer that
keeps acknowledging keeps the connection open forever.

The host is the stack with a count of the file handles of each socket. A dropped socket keeps its
last data in `sockets`, where no key of `HANDLERS` leads.
-/

namespace Cykusz.Net.Tcp

open Simulation

instance : Fintype Ip4 :=
  Fintype.ofEquiv (BitVec 32) ⟨Ip4.mk, Ip4.addr, fun _ => rfl, fun _ => rfl⟩

/-- The stack, and how many file handles the application holds on each socket. -/
structure Host where
  net : Stack
  handles : ℕ → ℕ

/-- What happens to a host: the application drops a file handle of a socket, or a segment comes
in from an address. -/
inductive Event
  | closeHandle (id : ℕ)
  | segment (src : Ip4) (packet : Segment)

/-- `HANDLERS` holds socket `id`, under some key. -/
def heldByHandlers (net : Stack) (id : ℕ) : Prop := ∃ k, net.handlers k = some id

instance (net : Stack) (id : ℕ) : Decidable (heldByHandlers net id) :=
  inferInstanceAs (Decidable (∃ _, _))

namespace Host

/-- The application drops a file handle of socket `id`. `INode::close` does nothing; when no
handle is left and `HANDLERS` does not hold the socket it is dropped, and `Drop` closes a
connection's data. -/
def closeHandle (h : Host) (id : ℕ) : Option Host :=
  let handles := Function.update h.handles id (h.handles id - 1)
  if handles id = 0 ∧ ¬ heldByHandlers h.net id then
    match h.net.sockets id with
    | some (.conn c) => c.close.map fun c' => ⟨h.net.setSock id (.conn c'), handles⟩
    | _ => some ⟨h.net, handles⟩
  else some ⟨h.net, handles⟩

/-- One event. -/
def step (h : Host) : Event → Option Host
  | .closeHandle id => h.closeHandle id
  | .segment src packet => (h.net.processPacket src packet).map fun net => { h with net }

end Host

/-! ## A connection the peer does not close -/

namespace SocketData

variable {n m p : ℕ} {s : SocketData n m p} {packet : Segment}

/-- Without FIN, `handle_established` keeps the state. -/
theorem handleEstablished_state (hfin : packet.flags.fin = false) :
    (s.handleEstablished packet).state = s.state := by
  unfold handleEstablished
  simp only [hfin, Bool.false_eq_true, or_false, if_false]
  split_ifs
  · exact storeSegment_keeps.1
  · rfl
  · rfl

/-- An established connection takes a segment that sets neither FIN nor RST, in order or not, and
stays established. -/
theorem process_keeps_established (hst : s.state = .established)
    (hfin : packet.flags.fin = false) (hrst : packet.flags.rst = false) :
    ∃ s', s.process packet = some s' ∧ s'.state = .established := by
  have hst' : (s.takeAck packet).state = .established := takeAck_sameRecv.state.trans hst
  by_cases hseq : (s.takeAck packet).ctl.rcvNxt = packet.seqNr
  · exact ⟨_, process_of_established hst' hseq hrst, (handleEstablished_state hfin).trans hst'⟩
  · -- out of order: the segment is dropped after its ack is taken
    refine ⟨s.takeAck packet, ?_, hst'⟩
    simp [process, hst', hseq]

end SocketData

/-- Socket `id` is an established connection, and `HANDLERS` holds it under `key`. -/
def HeldOpen (id : ℕ) (key : BitVec 16 × Ip4) (h : Host) : Prop :=
  ∃ c : Conn, h.net.sockets id = some (.conn c) ∧ c.state = .established ∧
    h.net.handlers key = some id

/-- The events of the runs considered: closes of the socket's handles, and segments that reach it
and set neither FIN nor RST. -/
def Allowed (id : ℕ) (h : Host) : Event → Prop
  | .closeHandle j => j = id
  | .segment src packet =>
    h.net.route src packet = some id ∧ packet.flags.fin = false ∧ packet.flags.rst = false

/-- One such event returns and keeps the connection established and held: a close finds the socket
held, so nothing is dropped, and a segment is processed without reaching `finalize`. -/
theorem step_heldOpen {id : ℕ} {key : BitVec 16 × Ip4} {h : Host} {e : Event}
    (hinv : HeldOpen id key h) (he : Allowed id h e) :
    ∃ h', h.step e = some h' ∧ HeldOpen id key h' := by
  obtain ⟨c, hsock, hst, hkey⟩ := hinv
  cases e with
  | closeHandle j =>
    obtain rfl : j = id := he
    have hheld : heldByHandlers h.net j := ⟨key, hkey⟩
    exact ⟨⟨h.net, Function.update h.handles j (h.handles j - 1)⟩,
      by simp [Host.step, Host.closeHandle, hheld], c, hsock, hst, hkey⟩
  | segment src packet =>
    obtain ⟨hroute, hfin, hrst⟩ := he
    obtain ⟨c', hproc, hst'⟩ := c.process_keeps_established hst hfin hrst
    refine ⟨{ h with net := h.net.setSock id (.conn c') }, ?_, c', ?_, hst', ?_⟩
    · simp [Host.step, Stack.processPacket, hroute, hsock, Stack.processConn, hproc, hst']
    · simp [Stack.setSock]
    · simpa [Stack.setSock] using hkey

/-- An established connection that `HANDLERS` holds stays established and held through every run
of closes of its handles and of segments from its peer that set neither FIN nor RST, and every such
run returns: closing the last handle sends no FIN, and a peer that only acknowledges never sees
the connection close. -/
theorem close_keeps_established (h : Host) (id : ℕ) (c : Conn) (key : BitVec 16 × Ip4)
    (hsock : h.net.sockets id = some (.conn c)) (hst : c.state = .established)
    (hkey : h.net.handlers key = some id) (events : List Event)
    (hev : Guarded Host.step (Allowed id) h events) :
    ∃ h', run Host.step h events = some h' ∧ HeldOpen id key h' := by
  have hinv : HeldOpen id key h := ⟨c, hsock, hst, hkey⟩
  obtain ⟨h', hrun⟩ := exists_run_eq_some (fun _ _ hc he => step_heldOpen hc he) events h hinv hev
  refine ⟨h', hrun, run_inv (fun h₁ e h₂ hc he hs => ?_) events h h' hinv hev hrun⟩
  obtain ⟨h₃, hs', hinv'⟩ := step_heldOpen hc he
  rw [hs] at hs'
  exact (Option.some.inj hs') ▸ hinv'

/-- A connection from port 40000 of `10.0.0.2` to a server's port 80, established. -/
def webConn : Conn :=
  { Stack.newConnected ⟨80, .listen, ⟨0, 0, 0, 0, 0⟩, []⟩ ⟨0x0A000002⟩ (Stack.synFrom 40000 0) with
    state := .established }

/-- The server holds the connection as socket 0, under its key, with one file handle open. -/
def webHost : Host :=
  ⟨⟨Function.update (fun _ => none) (80, ⟨0x0A000002⟩) (some 0),
      Function.update (fun _ => none) 0 (some (.conn webConn)), 1⟩,
    Function.update (fun _ => 0) 0 1⟩

/-- The server closes its only handle: the connection stays established and held. -/
theorem close_keeps_established_web :
    ∃ h', run Host.step webHost [.closeHandle 0] = some h' ∧
      HeldOpen 0 (80, ⟨0x0A000002⟩) h' :=
  close_keeps_established webHost 0 webConn (80, ⟨0x0A000002⟩) (by simp [webHost]) rfl
    (by simp [webHost]) [.closeHandle 0] ⟨rfl, fun _ _ => trivial⟩

end Cykusz.Net.Tcp
