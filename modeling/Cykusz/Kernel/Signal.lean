import Mathlib
import Cykusz.Syscall.Defs
import Cykusz.Arch.Signal

/-!
# Signal system calls

`Signals` holds a task's blocked mask and its pending signals, and the handler table of its
process. `sys_sigaction` sets an entry of the table with `set_signal`, `sys_sigprocmask` changes
the blocked mask with `set_mask`, and `sys_kill` raises a signal with `Task::signal`, which
`trigger`s it.

Signal numbers are the user's `u64`, and the kernel is built without overflow checks, so `sig - 1`
wraps. The bit operations of `bit_field` assert their index is below 64. `set_signal` refuses a
number from `SIGNAL_COUNT` on, but `trigger` only asserts it, and nothing refuses 0: `kill` of a
live task with a signal that is 0 or from 34 on stops the kernel (`kill_bad_signal_panics`).

`do_signal` goes on from the trigger's answer to wake the task or another thread of its process,
or to run `default::cont`; the model stops at the trigger.
-/

namespace Cykusz.Kernel.Signal

open Cykusz.Arch Cykusz.Syscall Cykusz.Syscall.SyscallError

def SIGNAL_COUNT : ℕ := 34

/-- The signals whose handler cannot be set. -/
def immutableMask : BitVec 64 :=
  (1 <<< (SIGSTOP - 1)) ||| (1 <<< (SIGABRT - 1)) ||| (1 <<< (SIGKILL - 1)) |||
    (1 <<< (KSIGKILLTHR - 1)) ||| (1 <<< (KSIGSTOPTHR - 1)) ||| (1 <<< (KSIGEXEC - 1))

/-- `BitField::get_bit` on a `u64`; `none` is its assertion on an index past bit 63. -/
def getBit (x i : BitVec 64) : Option Bool :=
  if i.toNat < 64 then some (x.getLsbD i.toNat) else none

/-- `BitField::set_bit` on a `u64`; `none` is its assertion on an index past bit 63. -/
def setBit (x i : BitVec 64) (b : Bool) : Option (BitVec 64) :=
  if i.toNat < 64 then
    some (if b then x ||| (1#64 <<< i.toNat) else x &&& ~~~(1#64 <<< i.toNat))
  else none

/-- `can_override`. -/
def canOverride (sig : BitVec 64) : Option Bool :=
  (getBit immutableMask (sig - 1)).map (· == false)

/-- `Entries`: the handler table and the signals pending for the whole process. -/
structure Entries where
  entries : Vector SignalEntry SIGNAL_COUNT
  pendingMask : BitVec 64

def Entries.setPending (e : Entries) (sig : BitVec 64) : Option Entries :=
  (setBit e.pendingMask (sig - 1) true).map fun m => { e with pendingMask := m }

/-- `TriggerResult`; `Execute` carries `default::cont`, which is not modelled. -/
inductive TriggerResult
  | blocked
  | triggered
  | execute
deriving DecidableEq, Repr

/-- `Signals` of a task. -/
structure Signals where
  entries : Entries
  blockedMask : BitVec 64
  threadPendingMask : BitVec 64

namespace Signals

/-- `Signals::set_pending`; the shift of a thread's signal wraps its amount. -/
def setPending (s : Signals) (sig : BitVec 64) (threadScope : Bool) : Option Signals :=
  let sig := sig - 1
  if threadScope then
    some { s with threadPendingMask := s.threadPendingMask ||| (1 <<< (sig.toNat % 64)) }
  else (s.entries.setPending (sig + 1)).map fun e => { s with entries := e }

def isBlocked (s : Signals) (signal : BitVec 64) : Option Bool :=
  getBit s.blockedMask (signal - 1)

/-- `Signals::trigger`; `none` is its `assert!(signal < SIGNAL_COUNT)` failing, or a bit
operation's. -/
def trigger (s : Signals) (signal : BitVec 64) (thisThread : Bool) :
    Option (Signals × TriggerResult) :=
  if signal.toNat < SIGNAL_COUNT then
    let r : TriggerResult :=
      if signal = BitVec.ofNat 64 SIGCONT ∨ signal = BitVec.ofNat 64 SIGKILL then .execute
      else .triggered
    (s.setPending signal thisThread).bind fun s =>
      (s.isBlocked signal).map fun b => (s, if b then .blocked else r)
  else none

/-- `Signals::set_signal`: the old entry, for `old`, and the new one in its place. -/
def setSignal (s : Signals) (signal : BitVec 64) (handler : Option SignalEntry) :
    Option (Except SyscallError (Signals × SignalEntry)) :=
  if h : signal.toNat < SIGNAL_COUNT then
    (canOverride signal).map fun can =>
      if can = false then .error EINVAL
      else
        let i : Fin SIGNAL_COUNT := ⟨signal.toNat, h⟩
        let old := s.entries.entries.get i
        match handler with
        | some e =>
          .ok ({ s with entries := { s.entries with entries := s.entries.entries.set i e } }, old)
        | none => .ok (s, old)
  else some (.error EINVAL)

theorem setBit_eq_none_iff {x i : BitVec 64} {b : Bool} : setBit x i b = none ↔ 64 ≤ i.toNat := by
  unfold setBit
  split_ifs with h
  · simp only [false_iff]
    omega
  · simp only [true_iff]
    omega

theorem getBit_eq_none_iff {x i : BitVec 64} : getBit x i = none ↔ 64 ≤ i.toNat := by
  unfold getBit
  split_ifs with h
  · simp only [false_iff]
    omega
  · simp only [true_iff]
    omega

/-- The index `sig - 1` of a signal below `SIGNAL_COUNT` is a bit of a `u64` exactly when the
signal is not 0: 0 wraps to `u64::MAX`. -/
theorem index_lt_iff {sig : BitVec 64} (h : sig.toNat < SIGNAL_COUNT) :
    (sig - 1).toNat < 64 ↔ sig ≠ 0 := by
  unfold SIGNAL_COUNT at h
  constructor
  · rintro hlt rfl
    simp at hlt
  · intro hne
    have : sig.toNat ≠ 0 := fun h0 => hne (BitVec.eq_of_toNat_eq (by simpa using h0))
    bv_omega

/-- A signal for the whole process sets the bit `sig - 1` of the process's pending mask. -/
theorem setPending_process (s : Signals) (sig : BitVec 64) :
    s.setPending sig false = (setBit s.entries.pendingMask (sig - 1) true).map fun m =>
      { s with entries := { s.entries with pendingMask := m } } := by
  simp only [setPending, Bool.false_eq_true, if_false, BitVec.sub_add_cancel, Entries.setPending,
    Option.map_map]
  rfl

/-- `trigger` for the whole process fails exactly for 0 and from `SIGNAL_COUNT` on. -/
theorem trigger_eq_none_iff (s : Signals) (sig : BitVec 64) :
    s.trigger sig false = none ↔ sig = 0 ∨ SIGNAL_COUNT ≤ sig.toNat := by
  unfold trigger
  by_cases hlt : sig.toNat < SIGNAL_COUNT
  · rw [if_pos hlt]
    have hidx := index_lt_iff hlt
    rw [setPending_process]
    by_cases h0 : sig = 0
    · -- 0 wraps to the index `u64::MAX`
      have hnone : setBit s.entries.pendingMask (sig - 1) true = none :=
        setBit_eq_none_iff.2 (by rw [h0]; decide)
      rw [hnone]
      simp [h0]
    · have hi : (sig - 1).toNat < 64 := hidx.2 h0
      obtain ⟨m, hm⟩ := Option.ne_none_iff_exists'.1
        (mt setBit_eq_none_iff.1 (by omega) : setBit s.entries.pendingMask (sig - 1) true ≠ none)
      obtain ⟨b, hb⟩ := Option.ne_none_iff_exists'.1
        (mt getBit_eq_none_iff.1 (by omega) : getBit s.blockedMask (sig - 1) ≠ none)
      rw [hm]
      simp only [Option.bind_some, isBlocked, hb, Option.map_some, reduceCtorEq, false_iff,
        not_or]
      exact ⟨h0, by omega⟩
  · rw [if_neg hlt]
    exact iff_of_true rfl (Or.inr (by omega))

end Signals

/-- `SigAction`, as user space lays it out. -/
structure SigAction where
  saHandler : BitVec 64
  saFlags : BitVec 32
  saRestorer : BitVec 64
  saMask : BitVec 64

/-- `From<u64> for SignalHandler`. -/
def handlerOfU64 (v : BitVec 64) : SignalHandler :=
  if v = 1 then .ignore else if v = 0 then .default else .handle v

/-- `SignalEntry::from_sigaction`: flags other than `RESTART` are refused. -/
def fromSigaction (act : SigAction) : Except SyscallError SignalEntry :=
  if act.saFlags &&& ~~~restartFlag = 0 then
    .ok ⟨handlerOfU64 act.saHandler, act.saFlags, act.saRestorer⟩
  else .error EINVAL

/-- `From<u64> for SigProcMask`; `none` is its panic on another value. -/
def sigProcMaskFrom (v : BitVec 64) : Option SigProcMask :=
  if v = 0 then some .block else if v = 1 then some .unblock else if v = 2 then some .set else none

/-- `set_signal` as `sys_sigaction` calls it: the result, the signals after, and the old entry
for `old`. -/
def sigactionSet (s : Signals) (sig : BitVec 64) (entry : Option SignalEntry) :
    Option (SyscallResult × Signals × Option SignalEntry) :=
  (s.setSignal sig entry).map fun
    | .ok (s', old) => (.ok 0, s', some old)
    | .error e => (.error e, s, none)

/-- `sys_sigaction` with the action user space passes (`none` for a null pointer). -/
def sysSigaction (s : Signals) (sig : BitVec 64) (new : Option SigAction) :
    Option (SyscallResult × Signals × Option SignalEntry) :=
  if sig = 32 then some (.error ENOSYS, s, none)
  else
    match new with
    | some act =>
      match fromSigaction act with
      | .ok e => sigactionSet s sig (some e)
      | .error e => some (.error e, s, none)
    | none => sigactionSet s sig none

/-- `sys_sigprocmask` with the set user space passes (`none` for a null pointer): the result, the
signals after, and the old mask for `old_set`. -/
def sysSigprocmask (s : Signals) (how : BitVec 64) (set : Option (BitVec 64)) :
    Option (SyscallResult × Signals × BitVec 64) :=
  (sigProcMaskFrom how).map fun how =>
    (.ok 0, { s with blockedMask := setMask how set s.blockedMask }, s.blockedMask)

/-- What `sys_kill` reaches of a task: whether it is unused, and its signals. -/
structure KTask where
  unused : Bool
  signals : Signals

/-- `Task::signal` up to the trigger: an unused task takes nothing. -/
def KTask.signal (t : KTask) (sig : BitVec 64) : Option KTask :=
  if t.unused then some t else (t.signals.trigger sig false).map fun r => { t with signals := r.1 }

/-- `Group::signal`: every process of the group in turn. -/
def signalAll (tasks : ℕ → Option KTask) (sig : BitVec 64) : List ℕ → Option (ℕ → Option KTask)
  | [] => some tasks
  | id :: ids =>
    match tasks id with
    | some t => (t.signal sig).bind fun t' => signalAll (Function.update tasks id (some t')) sig ids
    | none => signalAll tasks sig ids

/-- `sys_kill` with the tasks by id, the processes of the caller's group, and the processes of the
groups by id: a positive `pid` names a task, 0 the caller's group, -1 panics, and below it the
group `-pid`. -/
def sysKill (tasks : ℕ → Option KTask) (ownGroup : Option (List ℕ))
    (groups : ℕ → Option (List ℕ)) (pid sig : BitVec 64) :
    Option (SyscallResult × (ℕ → Option KTask)) :=
  let a := pid.toInt
  if 0 < a then
    match tasks a.toNat with
    | some t => (t.signal sig).map fun t' => (.ok 0, Function.update tasks a.toNat (some t'))
    | none => some (.error ESRCH, tasks)
  else if a = 0 then
    match ownGroup with
    | some ids => (signalAll tasks sig ids).map fun ts => (.ok 0, ts)
    | none => some (.error ESRCH, tasks)
  else if a = -1 then none
  else
    match groups (-a).toNat with
    | some ids => (signalAll tasks sig ids).map fun ts => (.ok 0, ts)
    | none => some (.error ESRCH, tasks)

/-- `kill` of a live task panics exactly for the signal numbers without a slot: 0, whose bit
`sig - 1` wraps past bit 63, and every number from `SIGNAL_COUNT` on, which the assertion of
`trigger` refuses. -/
theorem kill_bad_signal_panics (tasks : ℕ → Option KTask) (ownGroup : Option (List ℕ))
    (groups : ℕ → Option (List ℕ)) (pid : BitVec 64) (hpid : 0 < pid.toInt) (t : KTask)
    (ht : tasks pid.toInt.toNat = some t) (hlive : t.unused = false) (sig : BitVec 64) :
    sysKill tasks ownGroup groups pid sig = none ↔ sig = 0 ∨ SIGNAL_COUNT ≤ sig.toNat := by
  rw [← Signals.trigger_eq_none_iff t.signals sig]
  simp only [sysKill, hpid, if_true, ht, KTask.signal, hlive, Bool.false_eq_true, if_false,
    Option.map_eq_none_iff]

/-- `Signals::default`: every handler the default one, nothing blocked or pending. -/
def freshSignals : Signals := ⟨⟨Vector.replicate _ ⟨.default, 0, 0⟩, 0⟩, 0, 0⟩

/-- `kill(1, 0)`, the usual test that init is alive, and `kill(1, 40)` both stop the kernel. -/
theorem kill_bad_signal_panics_init :
    sysKill (fun _ => some ⟨false, freshSignals⟩) none (fun _ => none) 1 0 = none ∧
      sysKill (fun _ => some ⟨false, freshSignals⟩) none (fun _ => none) 1 40 = none :=
  ⟨(kill_bad_signal_panics _ none _ 1 (by decide) ⟨false, freshSignals⟩ rfl rfl 0).2 (Or.inl rfl),
    (kill_bad_signal_panics _ none _ 1 (by decide) ⟨false, freshSignals⟩ rfl rfl 40).2
      (Or.inr (by decide))⟩

end Cykusz.Kernel.Signal
