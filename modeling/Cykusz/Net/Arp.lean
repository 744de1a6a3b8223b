import Mathlib
import Cykusz.Lib.Simulation

/-!
# The ARP cache

`ArpCache` maps an address to an entry: a resolved MAC (`Allocated`), or an address asked for
whose packets wait for the answer (`Pending`). `insert` records the MAC of an answer, resolves a
pending entry and sends the packets that waited; `get` gives the MAC of a resolved address;
`request` queues a packet on a pending entry, or makes one. `eth::send_packet` calls `get` and, on
a miss, `request`, as two steps with the lock released between them.

An answer can come between the two. The sender's `get` misses, the `insert` resolves the address,
and the sender's `request` finds the entry `Allocated` and does nothing: the packet is neither
sent nor queued (`send_lost_on_insert`).

Addresses and packets are type parameters: the cache compares addresses and moves packets, and
does nothing else with them.
-/

namespace Cykusz.Net.Arp

open Simulation

/-- `[u8; 6]`. -/
abbrev Mac := Vector UInt8 6

inductive EntryStatus
  | allocated
  | pending
deriving DecidableEq, Repr

structure Entry (P : Type) where
  mac : Mac
  status : EntryStatus
  packets : List P

/-- The map of `ArpCache`, and the packets handed to the driver so far with the MAC each was
sent to. -/
structure ArpCache (ι P : Type) where
  cache : ι → Option (Entry P)
  sent : List (P × Mac)

namespace ArpCache

variable {ι P : Type} [DecidableEq ι]

/-- `ArpCache::insert`: a pending entry takes the MAC and is resolved; the packets that waited on
the entry go out to its MAC. -/
def insert (c : ArpCache ι P) (ip : ι) (mac : Mac) : ArpCache ι P :=
  match c.cache ip with
  | some v =>
    let v := if v.status = .pending then { v with mac := mac, status := .allocated } else v
    { cache := Function.update c.cache ip (some { v with packets := [] })
      sent := c.sent ++ v.packets.map fun p => (p, v.mac) }
  | none => { c with cache := Function.update c.cache ip (some ⟨mac, .allocated, []⟩) }

/-- `ArpCache::get`. -/
def get (c : ArpCache ι P) (ip : ι) : Option Mac :=
  match c.cache ip with
  | some v => if v.status = .allocated then some v.mac else none
  | none => none

/-- `ArpCache::request`: the packet waits on the pending entry, or on a new one; an entry already
resolved takes nothing. -/
def request (c : ArpCache ι P) (ip : ι) (packet : P) : ArpCache ι P :=
  match c.cache ip with
  | some v =>
    if v.status = .pending then
      { c with cache := Function.update c.cache ip (some { v with packets := v.packets ++ [packet] }) }
    else c
  | none =>
    { c with cache := Function.update c.cache ip (some ⟨Vector.replicate 6 0, .pending, [packet]⟩) }

variable {c : ArpCache ι P} {ip : ι}

/-- An answer leaves its address resolved, with no packet waiting. -/
theorem insert_cache_self (mac : Mac) :
    ∃ m, (c.insert ip mac).cache ip = some ⟨m, .allocated, []⟩ := by
  cases hv : c.cache ip with
  | none => exact ⟨mac, by simp [insert, hv]⟩
  | some v =>
    cases hs : v.status with
    | pending => exact ⟨mac, by simp [insert, hv, hs]⟩
    | allocated => exact ⟨v.mac, by simp [insert, hv, hs]⟩

theorem get_insert_self (mac : Mac) : ∃ m, (c.insert ip mac).get ip = some m := by
  obtain ⟨m, hm⟩ := @insert_cache_self ι P _ c ip mac
  exact ⟨m, by simp [get, hm]⟩

/-- A resolved address takes no packet: `request` leaves the cache as it is. -/
theorem request_of_get {m : Mac} (h : c.get ip = some m) (packet : P) : c.request ip packet = c := by
  unfold get at h
  unfold request
  split
  · next v hv =>
    rw [hv] at h
    have : v.status = .allocated := by
      by_contra hne
      simp [hne] at h
    simp [this]
  · next hv => simp [hv] at h

end ArpCache

/-- Where a sender in `eth::send_packet` is: before `get`, before `request` after a miss, done. -/
inductive Pc
  | start
  | requesting
  | done
deriving DecidableEq, Repr

/-- A task sending `packet` to `ip` with `eth::send_packet`. -/
structure Sender (ι P : Type) where
  ip : ι
  packet : P
  pc : Pc

/-- The cache and the senders. -/
structure Sys (ι P : Type) where
  cache : ArpCache ι P
  senders : List (Sender ι P)

/-- A step of the system: a sender's next step, or an answer that `arp::process_packet` records. -/
inductive Op (ι : Type)
  | send (i : ℕ)
  | insert (ip : ι) (mac : Mac)

namespace Sys

variable {ι P : Type} [DecidableEq ι]

/-- Sender `i` takes its next step: `get`, and on a hit the driver sends the packet to the MAC;
then `request` after a miss. A sender that is done, or missing, has no step. -/
def sendStep (s : Sys ι P) (i : ℕ) : Option (Sys ι P) :=
  match s.senders[i]? with
  | some t =>
    match t.pc with
    | .start =>
      match s.cache.get t.ip with
      | some mac =>
        some { cache := { s.cache with sent := s.cache.sent ++ [(t.packet, mac)] }
               senders := s.senders.set i { t with pc := .done } }
      | none => some { s with senders := s.senders.set i { t with pc := .requesting } }
    | .requesting =>
      some { cache := s.cache.request t.ip t.packet, senders := s.senders.set i { t with pc := .done } }
    | .done => none
  | none => none

def step (s : Sys ι P) : Op ι → Option (Sys ι P)
  | .send i => s.sendStep i
  | .insert ip mac => some { s with cache := s.cache.insert ip mac }

/-- An answer that comes between a sender's `get` and its `request` loses the packet: the run
ends as if the sender had never sent it, with the sender done. -/
theorem send_lost_on_insert (s : Sys ι P) (i : ℕ) (t : Sender ι P) (ht : s.senders[i]? = some t)
    (hpc : t.pc = .start) (hmiss : s.cache.get t.ip = none) (mac : Mac) :
    run step s [.send i, .insert t.ip mac, .send i] =
      some { cache := s.cache.insert t.ip mac, senders := s.senders.set i { t with pc := .done } } := by
  have hi : i < s.senders.length := (List.getElem?_eq_some_iff.1 ht).1
  obtain ⟨m, hm⟩ := @ArpCache.get_insert_self ι P _ s.cache t.ip mac
  -- the `get` misses and the sender goes on to `request`
  have h₁ : s.step (.send i) =
      some { s with senders := s.senders.set i { t with pc := .requesting } } := by
    simp [step, sendStep, ht, hpc, hmiss]
  -- the `request` finds the address resolved by the answer
  have h₃ : Sys.step
      { cache := s.cache.insert t.ip mac, senders := s.senders.set i { t with pc := .requesting } }
      (.send i) =
        some { cache := s.cache.insert t.ip mac, senders := s.senders.set i { t with pc := .done } } := by
    simp [step, sendStep, hi, ArpCache.request_of_get hm]
  have h₂ : Sys.step { s with senders := s.senders.set i { t with pc := .requesting } }
      (.insert t.ip mac) =
        some { cache := s.cache.insert t.ip mac,
               senders := s.senders.set i { t with pc := .requesting } } := rfl
  rw [run_cons, h₁, Option.bind_some, run_cons, h₂, Option.bind_some, run_cons, h₃]
  rfl

/-- One sender of packet 42 to address 7, with nothing in the cache: the answer for 7 comes
between its `get` and its `request`, and packet 42 is never sent. -/
theorem send_lost_on_insert_first :
    run step (⟨⟨fun _ => none, []⟩, [⟨7, 42, .start⟩]⟩ : Sys ℕ ℕ)
        [.send 0, .insert 7 (Vector.replicate 6 1), .send 0] =
      some { cache := (⟨fun _ => none, []⟩ : ArpCache ℕ ℕ).insert 7 (Vector.replicate 6 1),
             senders := [⟨7, 42, .done⟩] } ∧
      ((⟨fun _ => none, []⟩ : ArpCache ℕ ℕ).insert 7 (Vector.replicate 6 1)).sent = [] :=
  ⟨send_lost_on_insert _ 0 ⟨7, 42, .start⟩ rfl rfl rfl _, rfl⟩

end Sys

end Cykusz.Net.Arp
