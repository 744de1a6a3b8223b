import Mathlib
import Cykusz.Syscall.Defs

/-!
# Unix sockets: listen, connect and accept

A unix socket is in one of the states of `SocketState`: disconnected, connected to a peer, bound
to an address, or listening with the queue of the clients that wait for an `accept`. Sockets are
`Arc`s in the source and numbers here: `Sockets` holds the state of each, and the number the next
`Socket::new_unbound` gets.

`Socket::connect` blocks, so it is two steps: `connectPush` puts the client in the target's queue,
and `connectWait` is one check of the client's wait, which ends when the client is connected, or
with `EINTR` when a signal woke it. `accept` waits the same way for a nonempty queue, then pops the
queue and connects the client it popped to a new socket.

The queue is a `Vec`, and `pop` takes its last element: of two clients that connect one after the
other, the first `accept` pairs the second (`accept_takes_latest`). A client whose wait was
interrupted stays in the queue, and the next `accept` connects it, although its `connect` returned
an error.
-/

namespace Cykusz.Net.Unix

open Cykusz.Syscall SyscallError

/-- `SockAddrUn`, by the bytes of its path. -/
abbrev SockAddrUn := List UInt8

/-- `SocketState`: a connected socket holds its peer, a listening one its `ConnectionQueue`. -/
inductive SocketState
  | disconnected
  | connected (peer : ℕ)
  | listening (queue : List ℕ) (addr : SockAddrUn)
  | bound (addr : SockAddrUn)
deriving DecidableEq, Repr

/-- The unix sockets, by number. -/
structure Sockets where
  data : ℕ → SocketState
  next : ℕ

namespace Sockets

/-- `Socket::is_connected`. -/
def isConnected (w : Sockets) (s : ℕ) : Bool :=
  match w.data s with
  | .connected _ => true
  | _ => false

/-- `Socket::listen`. -/
def listen (w : Sockets) (s : ℕ) : Except SyscallError Sockets :=
  match w.data s with
  | .bound addr => .ok { w with data := Function.update w.data s (.listening [] addr) }
  | _ => .error EINVAL

/-- `Socket::connect` up to its wait: `self` goes to the end of the queue of the socket found at the
path (`none`: no socket there). -/
def connectPush (w : Sockets) (self : ℕ) (target : Option ℕ) : Except SyscallError Sockets :=
  match target with
  | none => .error EADDRNOTAVAIL
  | some t =>
    match w.data t with
    | .listening queue addr =>
      .ok { w with data := Function.update w.data t (.listening (queue ++ [self]) addr) }
    | _ => .error ECONNREFUSED

/-- One check of the wait that ends `Socket::connect` (`WaitQueue::wait_for`): `Ok(0)` once the
client is connected, `EINTR` when a signal woke it, and `none` while it sleeps. -/
def connectWait (w : Sockets) (self : ℕ) (signalled : Bool) : Option (Except SyscallError ℕ) :=
  if w.isConnected self then some (.ok 0)
  else if signalled then some (.error EINTR)
  else none

/-- `Socket::accept`: `none` while the queue is empty and the task sleeps; then the queue's last
client leaves it (`Vec::pop`) and is connected to a new socket. The result is the new socket and
the address copied out. -/
def accept (w : Sockets) (s : ℕ) (signalled : Bool) :
    Option (Except SyscallError (ℕ × SockAddrUn × Sockets)) :=
  match w.data s with
  | .listening queue addr =>
    match queue.getLast? with
    | some client =>
      let new := w.next
      let data := Function.update w.data s (.listening queue.dropLast addr)
      let data := Function.update data new (.connected client)
      let data := Function.update data client (.connected new)
      some (.ok (new, addr, ⟨data, new + 1⟩))
    | none => if signalled then some (.error EINTR) else none
  | _ => some (.error EADDRINUSE)

/-! ## One call at a time -/

variable {w w' : Sockets} {s t self client : ℕ} {queue : List ℕ} {addr : SockAddrUn}

theorem connectPush_listening (ht : w.data t = .listening queue addr) :
    w.connectPush self (some t) =
      .ok ⟨Function.update w.data t (.listening (queue ++ [self]) addr), w.next⟩ := by
  simp [connectPush, ht]

/-- A `connect` that gets to its wait has put its client at the end of a listening queue, and made
no socket. -/
theorem connectPush_eq_ok (h : w.connectPush self (some t) = .ok w') :
    ∃ queue addr, w.data t = .listening queue addr ∧
      w' = ⟨Function.update w.data t (.listening (queue ++ [self]) addr), w.next⟩ := by
  cases ht : w.data t <;> simp only [connectPush, ht, reduceCtorEq] at h
  case listening queue addr => exact ⟨queue, addr, rfl, (Except.ok.inj h).symm⟩

theorem connectWait_of_not_connected (h : w.data self = .disconnected) :
    w.connectWait self true = some (.error EINTR) := by
  simp [connectWait, isConnected, h]

theorem accept_of_getLast (hs : w.data s = .listening queue addr)
    (hc : queue.getLast? = some client) (signalled : Bool) :
    w.accept s signalled = some (.ok (w.next, addr,
      ⟨Function.update (Function.update (Function.update w.data s (.listening queue.dropLast addr))
        w.next (.connected client)) client (.connected w.next), w.next + 1⟩)) := by
  simp [accept, hs, hc]

/-- An `accept` on a nonempty queue connects a new socket and the queue's last client to each
other, takes the client off the queue, and changes no other socket. -/
theorem accept_spec (hs : w.data s = .listening queue addr) (hc : queue.getLast? = some client)
    (hcs : client ≠ s) (hcn : client < w.next) (hsn : s < w.next) (signalled : Bool) :
    ∃ w', w.accept s signalled = some (.ok (w.next, addr, w')) ∧ w'.next = w.next + 1 ∧
      w'.data w.next = .connected client ∧ w'.data client = .connected w.next ∧
      w'.data s = .listening queue.dropLast addr ∧
      ∀ x, x ≠ s → x ≠ w.next → x ≠ client → w'.data x = w.data x := by
  refine ⟨_, accept_of_getLast hs hc signalled, rfl, ?_, ?_, ?_, ?_⟩
  · simp [hcn.ne']
  · simp
  · simp [hcs.symm, hsn.ne]
  · intro x hxs hxn hxc
    simp [hxs, hxn, hxc]

/-! ## Two clients -/

/-- Two clients connect to a listening socket, `a` and then `b`. The first `accept` pairs `b`. When
a signal then ends the wait of `a`, its `connect` returns `EINTR`, and the next `accept` still
connects `a`. -/
theorem accept_takes_latest {a b : ℕ} {w₁ w₂ : Sockets} (hs : w.data s = .listening queue addr)
    (ha : w.data a = .disconnected) (hab : a ≠ b) (has : a ≠ s) (hbs : b ≠ s)
    (hids : s < w.next ∧ a < w.next ∧ b < w.next)
    (h₁ : w.connectPush a (some s) = .ok w₁) (h₂ : w₁.connectPush b (some s) = .ok w₂) :
    ∃ w₃, w₂.accept s false = some (.ok (w.next, addr, w₃)) ∧ w₃.data w.next = .connected b ∧
      w₃.data b = .connected w.next ∧ w₃.connectWait a true = some (.error EINTR) ∧
      ∃ w₄, w₃.accept s false = some (.ok (w.next + 1, addr, w₄)) ∧
        w₄.data a = .connected (w.next + 1) := by
  obtain ⟨hsn, han, hbn⟩ := hids
  -- the queue of `s` is `queue ++ [a, b]` after the two connects
  rw [connectPush_listening hs] at h₁
  cases h₁
  have hs₁ : (⟨Function.update w.data s (.listening (queue ++ [a]) addr), w.next⟩ : Sockets).data s =
      .listening (queue ++ [a]) addr := by simp
  rw [connectPush_listening hs₁] at h₂
  cases h₂
  have hs₂ : (⟨Function.update (Function.update w.data s (.listening (queue ++ [a]) addr)) s
      (.listening (queue ++ [a] ++ [b]) addr), w.next⟩ : Sockets).data s =
      .listening (queue ++ [a] ++ [b]) addr := by simp
  obtain ⟨w₃, hacc₃, hnext₃, hnew₃, hb₃, hs₃, hframe₃⟩ :=
    accept_spec hs₂ (by simp) hbs hbn hsn false
  replace hnext₃ : w₃.next = w.next + 1 := hnext₃
  have ha₃ : w₃.data a = .disconnected := by
    rw [hframe₃ a has han.ne hab]
    simpa [Function.update_apply, has] using ha
  -- the second accept finds `a` last, in a queue the first one popped
  have hq : (queue ++ [a] ++ [b]).dropLast = queue ++ [a] := by simp
  rw [hq] at hs₃
  obtain ⟨w₄, hacc₄, -, -, ha₄, -, -⟩ :=
    accept_spec hs₃ (by simp) has (by omega) (by omega) false
  refine ⟨w₃, hacc₃, hnew₃, hb₃, connectWait_of_not_connected ha₃, w₄, ?_, ?_⟩
  · rwa [hnext₃] at hacc₄
  · rwa [hnext₃] at ha₄

/-- Socket `0` listens at the empty path; `1` and `2` are clients. -/
def listenWorld : Sockets :=
  ⟨Function.update (fun _ => .disconnected) 0 (.listening [] []), 3⟩

theorem accept_takes_latest_pair :
    ∃ w₁ w₂, listenWorld.connectPush 1 (some 0) = .ok w₁ ∧ w₁.connectPush 2 (some 0) = .ok w₂ ∧
      ∃ w₃, w₂.accept 0 false = some (.ok (3, [], w₃)) ∧ w₃.data 3 = .connected 2 ∧
        w₃.data 2 = .connected 3 ∧ w₃.connectWait 1 true = some (.error EINTR) ∧
        ∃ w₄, w₃.accept 0 false = some (.ok (3 + 1, [], w₄)) ∧ w₄.data 1 = .connected (3 + 1) :=
  ⟨_, _, rfl, rfl, accept_takes_latest (w := listenWorld) rfl rfl (by decide) (by decide) (by decide)
    (by decide) rfl rfl⟩

end Sockets

end Cykusz.Net.Unix
