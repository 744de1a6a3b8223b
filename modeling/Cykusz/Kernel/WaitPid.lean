import Mathlib
import Cykusz.Syscall.Defs

/-!
# Waiting for children

A task queues itself on its parent's `WaitPidEvents` when it exits, is killed, stops or continues.
`wait_pid` takes out the first queued event that is of a child the selector names and of a kind
the flags ask for, and reaps a child that exited or was killed. It decides under the lock of the
queue, through `wait_lock_for`, whose condition is "an event was found, or no child matches the
selector": when the condition holds the call returns, when it does not the task sleeps, unless it
passed `NO_HANG`. A call that finds an event returns the first one that matches, takes it out of
the queue and reaps the child exactly when it exited or was killed (`waitPid_eq_ok`), and a call
returns `ECHILD` exactly when no event matches and either no child does or it may not hang
(`waitPid_echild_iff`).

With `NO_HANG`, `wait_lock_for` returns `None` for a false condition, and `wait_on` reads `None` as
it reads "no child matches": a `waitpid(pid, WNOHANG)` whose child is alive and has nothing to
report returns `ECHILD` where it should return 0 (`nohang_live_child_echild`).

A call that sleeps is `none`; it returns when a later event makes its condition true, and with an
error when a signal interrupts it. The children and the events are records of the fields the
scan reads; the session bookkeeping of a reaped process leader is not modelled.
-/

namespace Cykusz.Kernel.WaitPid

open Cykusz.Syscall Cykusz.Syscall.SyscallError

/-- `waitpid::Status`. -/
inductive Status
  | exited (code : ℕ)
  | signaled (sig : ℕ)
  | stopped (sig : ℕ)
  | continued
  | invalid (v : ℕ)
deriving DecidableEq, Repr

namespace Status

def isExited : Status → Bool
  | .exited _ => true
  | _ => false

def isSignaled : Status → Bool
  | .signaled _ => true
  | _ => false

def isStopped : Status → Bool
  | .stopped _ => true
  | _ => false

def isContinued : Status → Bool
  | .continued => true
  | _ => false

end Status

/-- `WaitPidFlags`, the bits of a `usize`. -/
structure WaitPidFlags where
  bits : BitVec 64
deriving DecidableEq, Repr

namespace WaitPidFlags

def NOHANG : WaitPidFlags := ⟨1 <<< 0⟩
def STOPPED : WaitPidFlags := ⟨1 <<< 1⟩
def EXITED : WaitPidFlags := ⟨1 <<< 2⟩
def CONTINUED : WaitPidFlags := ⟨1 <<< 3⟩
def NOWAIT : WaitPidFlags := ⟨0x01000000⟩

def contains (f g : WaitPidFlags) : Bool := f.bits &&& g.bits == g.bits

/-- `from_bits_truncate`: the bits of no flag are dropped (`UNTRACED` is `STOPPED`). -/
def fromBitsTruncate (v : BitVec 64) : WaitPidFlags :=
  ⟨v &&& (NOHANG.bits ||| STOPPED.bits ||| EXITED.bits ||| CONTINUED.bits ||| NOWAIT.bits)⟩

def nohang (f : WaitPidFlags) : Bool := f.contains NOHANG

def stopped (f : WaitPidFlags) : Bool := f.contains STOPPED

def continued (f : WaitPidFlags) : Bool := f.contains CONTINUED

/-- With no flag at all, exits are waited for. -/
def exited (f : WaitPidFlags) : Bool := f.contains EXITED || f.bits == 0

end WaitPidFlags

/-- The fields of a task that the wait reads. -/
structure Child where
  tid : ℕ
  pid : ℕ
  gid : ℕ
  isProcessLeader : Bool
  waitpidStatus : Status
deriving DecidableEq, Repr

/-- The queued events of a task's children and its children. -/
structure WaitState where
  events : List Child
  children : List Child
deriving DecidableEq, Repr

/-- The cursor loop of `wait_on`: the first element `p` accepts, and the list without it. -/
def takeFirst {α : Type*} (p : α → Bool) : List α → Option (α × List α)
  | [] => none
  | t :: rest =>
    if p t then some (t, rest) else (takeFirst p rest).map fun (u, rest') => (u, t :: rest')

/-- The status test of `wait_on`'s scan. -/
def statusMatches (flags : WaitPidFlags) (st : Status) : Bool :=
  (flags.exited && (st.isExited || st.isSignaled)) || (flags.continued && st.isContinued) ||
    (flags.stopped && st.isStopped)

/-- `WaitPidEvents::wait_on` with the selector `cond`: the state and what it returns, `none` when
the task sleeps. -/
def waitOn (s : WaitState) (flags : WaitPidFlags) (cond : Child → Bool) :
    Option (WaitState × Option (ℕ × Status)) :=
  match takeFirst (fun t => statusMatches flags t.waitpidStatus && cond t) s.events with
  | some (t, events) =>
    -- a child that exited or was killed is reaped: it leaves its parent's children
    let children :=
      if t.waitpidStatus.isExited || t.waitpidStatus.isSignaled then
        s.children.filter (·.tid ≠ t.tid)
      else s.children
    some (⟨events, children⟩, some (t.tid, t.waitpidStatus))
  | none =>
    -- the condition holds when no child matches; `NO_HANG` returns `None` without it
    if !s.children.any cond then some (s, none)
    else if flags.nohang then some (s, none)
    else none

/-- The selector of `wait_pid`, for a caller of group `myGid`: a process leader of the group
`-pid`, any, of the caller's group, or the process `pid`. -/
def selects (myGid : ℕ) (pid : ℤ) (t : Child) : Bool :=
  if !t.isProcessLeader then false
  else if pid < -1 then t.gid == (-pid).toNat
  else if pid = -1 then true
  else if pid = 0 then myGid == t.gid
  else t.pid == pid.toNat

/-- `WaitPidEvents::wait_pid`: the state, the result, and the status it stores, if any. -/
def waitPid (s : WaitState) (myGid : ℕ) (pid : ℤ) (flags : WaitPidFlags) :
    Option (WaitState × SyscallResult × Option Status) :=
  (waitOn s flags (selects myGid pid)).map fun (s', r) =>
    match r with
    | some (tid, st) => (s', .ok tid, some st)
    | none => (s', .error ECHILD, none)

/-- The flags `sys_waitpid` waits with: the known bits of its argument, and `EXITED`. -/
def sysFlags (flags : BitVec 64) : WaitPidFlags :=
  ⟨(WaitPidFlags.fromBitsTruncate flags).bits ||| WaitPidFlags.EXITED.bits⟩

/-- `sys_waitpid`: the state, the result and the status written for the caller, which stays
`Invalid(0)` when the wait stores none. -/
def sysWaitpid (s : WaitState) (myGid : ℕ) (pid flags : BitVec 64) :
    Option (WaitState × SyscallResult × Status) :=
  (waitPid s myGid pid.toInt (sysFlags flags)).map fun (s', r, st) => (s', r, st.getD (.invalid 0))

section TakeFirst

variable {α : Type*} {p : α → Bool}

theorem takeFirst_eq_none_iff {l : List α} : takeFirst p l = none ↔ ∀ x ∈ l, p x = false := by
  induction l with
  | nil => simp [takeFirst]
  | cons t rest ih =>
    cases ht : p t <;> simp [takeFirst, ht, ih]

/-- `takeFirst` takes out the first element `p` accepts, and keeps the others in order. -/
theorem takeFirst_eq_some {l rest : List α} {t : α} (h : takeFirst p l = some (t, rest)) :
    ∃ pre post, l = pre ++ t :: post ∧ rest = pre ++ post ∧ p t = true ∧
      ∀ x ∈ pre, p x = false := by
  induction l generalizing rest with
  | nil => cases h
  | cons u l ih =>
    unfold takeFirst at h
    split_ifs at h with hu
    · obtain ⟨rfl, rfl⟩ := Prod.mk.inj (Option.some.inj h)
      exact ⟨[], l, rfl, rfl, hu, by simp⟩
    · obtain ⟨⟨t', rest'⟩, h', heq⟩ := Option.map_eq_some_iff.1 h
      obtain ⟨rfl, rfl⟩ := Prod.mk.inj heq
      obtain ⟨pre, post, rfl, rfl, ht, hpre⟩ := ih h'
      refine ⟨u :: pre, post, rfl, rfl, ht, ?_⟩
      simp only [List.mem_cons, forall_eq_or_imp]
      exact ⟨by simpa using hu, hpre⟩

end TakeFirst

/-- A wait that finds an event returns the first queued event that matches, takes it out of the
queue and keeps the others in order, and reaps the child exactly when it exited or was killed. -/
theorem waitPid_eq_ok {s s' : WaitState} {myGid : ℕ} {pid : ℤ} {flags : WaitPidFlags}
    {r : SyscallResult} {st : Status} (h : waitPid s myGid pid flags = some (s', r, some st)) :
    ∃ pre t post, s.events = pre ++ t :: post ∧ s'.events = pre ++ post ∧ r = .ok t.tid ∧
      st = t.waitpidStatus ∧
      (statusMatches flags t.waitpidStatus && selects myGid pid t) = true ∧
      (∀ x ∈ pre, (statusMatches flags x.waitpidStatus && selects myGid pid x) = false) ∧
      s'.children = if t.waitpidStatus.isExited || t.waitpidStatus.isSignaled then
        s.children.filter (·.tid ≠ t.tid) else s.children := by
  unfold waitPid waitOn at h
  split at h
  · next t events hfound =>
    obtain ⟨pre, post, hev, rfl, ht, hpre⟩ := takeFirst_eq_some hfound
    simp only [Option.map_some, Option.some.injEq, Prod.mk.injEq] at h
    obtain ⟨rfl, rfl, rfl⟩ := h
    exact ⟨pre, t, post, hev, rfl, rfl, rfl, ht, hpre, rfl⟩
  · -- no event found: the wait stores no status
    split_ifs at h <;> simp at h

/-- A wait returns `ECHILD`, and changes nothing, exactly when no queued event matches, and either
no child matches or the call may not hang. -/
theorem waitPid_echild_iff {s : WaitState} {myGid : ℕ} {pid : ℤ} {flags : WaitPidFlags} :
    waitPid s myGid pid flags = some (s, .error ECHILD, none) ↔
      (∀ t ∈ s.events, (statusMatches flags t.waitpidStatus && selects myGid pid t) = false) ∧
        (s.children.any (selects myGid pid) = false ∨ flags.nohang = true) := by
  unfold waitPid waitOn
  split
  · next t events h =>
    -- the event found is queued, so not every queued event fails the test
    obtain ⟨pre, post, hev, -, ht, -⟩ := takeFirst_eq_some h
    constructor
    · intro h'
      simp at h'
    · rintro ⟨hall, -⟩
      exact absurd (hall t (by simp [hev])) (by simp [ht])
  · next h =>
    rw [takeFirst_eq_none_iff] at h
    rw [and_iff_right h]
    cases hc : s.children.any (selects myGid pid) <;> cases hn : flags.nohang <;> simp

/-- `sys_waitpid` waits without hanging exactly when its argument has the `WNOHANG` bit. -/
theorem sysFlags_nohang (flags : BitVec 64) : (sysFlags flags).nohang = flags.getLsbD 0 := by
  simp only [WaitPidFlags.nohang, WaitPidFlags.contains, sysFlags, WaitPidFlags.fromBitsTruncate,
    WaitPidFlags.NOHANG, WaitPidFlags.STOPPED, WaitPidFlags.EXITED, WaitPidFlags.CONTINUED,
    WaitPidFlags.NOWAIT]
  cases h : flags.getLsbD 0
  · simp only [beq_eq_false_iff_ne, ne_eq]
    intro heq
    have := congrArg (BitVec.getLsbD · 0) heq
    simp only [BitVec.getLsbD_and, BitVec.getLsbD_or, h] at this
    simp at this
  · simp only [beq_iff_eq]
    apply BitVec.eq_of_getLsbD_eq
    intro i hi
    simp only [BitVec.getLsbD_and, BitVec.getLsbD_or]
    rcases Nat.eq_zero_or_pos i with rfl | hpos
    · simp [h]
    · simp [BitVec.getLsbD_one, hpos.ne']

/-- A `waitpid` with `WNOHANG` and no queued event that matches returns `ECHILD`, and leaves the
status `Invalid(0)`, whatever children the caller has. -/
theorem nohang_live_child_echild (s : WaitState) (myGid : ℕ) (pid flags : BitVec 64)
    (hnohang : flags.getLsbD 0 = true)
    (hev : ∀ t ∈ s.events,
      (statusMatches (sysFlags flags) t.waitpidStatus && selects myGid pid.toInt t) = false) :
    sysWaitpid s myGid pid flags = some (s, .error ECHILD, .invalid 0) := by
  have hw := waitPid_echild_iff.2 ⟨hev, Or.inr (by rw [sysFlags_nohang, hnohang])⟩
  simp [sysWaitpid, hw]

/-- A shell's child, alive and with nothing queued. -/
def liveChild : Child := ⟨7, 7, 7, true, .invalid 0⟩

/-- `waitpid(-1, WNOHANG)` with that child returns `ECHILD` though the selector names it. -/
theorem nohang_live_child_echild_shell :
    selects 1 (-1 : BitVec 64).toInt liveChild = true ∧
      sysWaitpid ⟨[], [liveChild]⟩ 1 (-1) 1 = some (⟨[], [liveChild]⟩, .error ECHILD, .invalid 0) :=
  ⟨by decide, nohang_live_child_echild ⟨[], [liveChild]⟩ 1 (-1) 1 (by decide) (by simp)⟩

end Cykusz.Kernel.WaitPid
