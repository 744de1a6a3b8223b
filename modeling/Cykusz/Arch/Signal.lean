import Mathlib
import Cykusz.Lib.WordMemory
import Cykusz.Syscall.Defs

/-!
# Signal delivery and `sigreturn` on x86_64

A task returning from a system call or an interrupt with a signal to handle gets a
`SignalFrame` pushed on its user stack below the red zone, with the address of its `sigreturn`
trampoline under it, and resumes in the handler (`arch_sys_check_signals`,
`arch_int_check_signals`). The trampoline's system call `sigreturn` pops the frame back
(`arch_sys_sigreturn`): the registers, the flags, the instruction pointer and the blocked mask
all come from the frame, and the saved `rax` becomes the call's result through `syscall_from`.

The user stack is a `WordMemory` at the address in the frame's `rsp`; `StackHelper` moves that
address down to write and up to read. The signal chosen by `do_signals` is an argument: the list
of its answers, one for each time the delivery asks (a `Default` or `Ignore` answer asks again).
The return to user mode is `asm_sysretq`: `sysret` takes the instruction pointer from `rcx` and
the flags from `r11` through the mask the instruction applies (`sysretRflags`).
-/

namespace Cykusz.Arch

open Cykusz.Syscall

/-- `RegsFrame`: the registers `pushAll` saves, in the order of their slots. -/
structure RegsFrame where
  cr2 : BitVec 64
  rax : BitVec 64
  rbx : BitVec 64
  rcx : BitVec 64
  rdx : BitVec 64
  rsi : BitVec 64
  rdi : BitVec 64
  rbp : BitVec 64
  r8 : BitVec 64
  r9 : BitVec 64
  r10 : BitVec 64
  r11 : BitVec 64
  r12 : BitVec 64
  r13 : BitVec 64
  r14 : BitVec 64
  r15 : BitVec 64
deriving DecidableEq, Repr

namespace RegsFrame

/-- The frame's words as `#[repr(C)]` lays them out. -/
def toWords (r : RegsFrame) : List (BitVec 64) :=
  [r.cr2, r.rax, r.rbx, r.rcx, r.rdx, r.rsi, r.rdi, r.rbp, r.r8, r.r9, r.r10, r.r11, r.r12,
    r.r13, r.r14, r.r15]

/-- The frame whose words start `ws`. -/
def ofWords (ws : List (BitVec 64)) : RegsFrame :=
  ⟨ws.getD 0 0, ws.getD 1 0, ws.getD 2 0, ws.getD 3 0, ws.getD 4 0, ws.getD 5 0, ws.getD 6 0,
    ws.getD 7 0, ws.getD 8 0, ws.getD 9 0, ws.getD 10 0, ws.getD 11 0, ws.getD 12 0,
    ws.getD 13 0, ws.getD 14 0, ws.getD 15 0⟩

theorem ofWords_toWords_append (r : RegsFrame) (ws : List (BitVec 64)) :
    ofWords (r.toWords ++ ws) = r := rfl

end RegsFrame

/-- `SignalFrame`: what delivery saves on the user stack. -/
structure SignalFrame where
  restartSyscall : BitVec 64
  regs : RegsFrame
  sigmask : BitVec 64
  rflags : BitVec 64
  rip : BitVec 64
deriving DecidableEq, Repr

namespace SignalFrame

/-- `size_of::<SignalFrame>()`, in words. -/
def words : ℕ := 20

def toWords (f : SignalFrame) : List (BitVec 64) :=
  f.restartSyscall :: f.regs.toWords ++ [f.sigmask, f.rflags, f.rip]

def ofWords (ws : List (BitVec 64)) : SignalFrame :=
  ⟨ws.getD 0 0, RegsFrame.ofWords (ws.drop 1), ws.getD 17 0, ws.getD 18 0, ws.getD 19 0⟩

@[simp] theorem length_toWords (f : SignalFrame) : f.toWords.length = words := rfl

@[simp] theorem ofWords_toWords (f : SignalFrame) : ofWords f.toWords = f := rfl

end SignalFrame

/-- `SyscallFrame`: what the system call entry saves for `sysret`. -/
structure SyscallFrame where
  rflags : BitVec 64
  rip : BitVec 64
  rsp : BitVec 64
deriving DecidableEq, Repr

/-- `InterruptFrame`: what the processor saves on an interrupt. -/
structure InterruptFrame where
  ip : BitVec 64
  cs : BitVec 64
  cf : BitVec 64
  sp : BitVec 64
  ss : BitVec 64
deriving DecidableEq, Repr

def syscallInstructionSize : BitVec 64 := 2
def redzoneSize : BitVec 64 := 128

/-! ## Signal masks -/

def SIGABRT : ℕ := 6
def SIGKILL : ℕ := 9
def SIGCONT : ℕ := 18
def SIGSTOP : ℕ := 19
def KSIGKILLTHR : ℕ := 32
def KSIGSTOPTHR : ℕ := 33
def KSIGEXEC : ℕ := 63

/-- The signals no mask blocks. -/
def unblockableMask : BitVec 64 :=
  (1 <<< (SIGSTOP - 1)) ||| (1 <<< (SIGCONT - 1)) ||| (1 <<< (SIGABRT - 1)) |||
    (1 <<< (SIGKILL - 1)) ||| (1 <<< (KSIGKILLTHR - 1)) ||| (1 <<< (KSIGSTOPTHR - 1)) |||
    (1 <<< (KSIGEXEC - 1))

inductive SigProcMask
  | block
  | unblock
  | set
deriving DecidableEq, Repr

/-- `Signals::set_mask` on the blocked mask: the unblockable signals are taken out of `set`
first. -/
def setMask (how : SigProcMask) (set : Option (BitVec 64)) (blocked : BitVec 64) : BitVec 64 :=
  match set with
  | none => blocked
  | some set =>
    let set := set &&& ~~~unblockableMask
    match how with
    | .block => blocked ||| set
    | .unblock => blocked &&& ~~~set
    | .set => set

/-- `SignalHandler`, a handler being the address of its code. -/
inductive SignalHandler
  | ignore
  | default
  | handle (f : BitVec 64)
deriving DecidableEq, Repr

/-- `SignalFlags::RESTART`. -/
def restartFlag : BitVec 32 := 0x10000000

/-- `SignalEntry`: the handler of a signal, its flags and the address of the trampoline that
calls `sigreturn`. -/
structure SignalEntry where
  handler : SignalHandler
  flags : BitVec 32
  sigreturn : BitVec 64
deriving DecidableEq, Repr

/-- `DoSignalsResult`: the answer of `do_signals`. -/
inductive DoSignalsResult
  | none
  | entry (sig : ℕ) (e : SignalEntry)
  | default
  | ignore
deriving DecidableEq, Repr

/-! ## The user stack -/

/-- A memory of 64-bit words. -/
abbrev Memory := BitVec 64 → BitVec 64

namespace StackHelper

def skipBy (ptr n : BitVec 64) : BitVec 64 := ptr - n

def restoreBy (ptr n : BitVec 64) : BitVec 64 := ptr + n

/-- `StackHelper::write`: move down by the value's size and store it there. -/
def write (ptr : BitVec 64) (mem : Memory) (ws : List (BitVec 64)) : BitVec 64 × Memory :=
  let ptr := skipBy ptr (BitVec.ofNat 64 (8 * ws.length))
  (ptr, WordMemory.store mem ptr ws)

/-- `StackHelper::restore` of a value of `n` words: read it and move up past it. -/
def restore (ptr : BitVec 64) (mem : Memory) (n : ℕ) : List (BitVec 64) × BitVec 64 :=
  (WordMemory.load mem ptr n, restoreBy ptr (BitVec.ofNat 64 (8 * n)))

end StackHelper

/-- The stack writes both deliveries make: past the red zone, the frame, then the address of
the trampoline, which the handler's `ret` returns to. -/
def writeSignalFrame (sp : BitVec 64) (mem : Memory) (frame : SignalFrame)
    (sigreturn : BitVec 64) : BitVec 64 × Memory :=
  let sp := StackHelper.skipBy sp redzoneSize
  let (sp, mem) := StackHelper.write sp mem frame.toWords
  StackHelper.write sp mem [sigreturn]

/-! ## Delivery and return -/

/-- A task's state at its return to user mode from a system call. -/
structure SysCtx where
  sys : SyscallFrame
  regs : RegsFrame
  blocked : BitVec 64
  mem : Memory

/-- `SignalFrame::from_syscall`. -/
def SignalFrame.fromSyscall (restart : Bool) (syscallResult : BitVec 64) (sys : SyscallFrame)
    (regs : RegsFrame) (sigmask : BitVec 64) : SignalFrame :=
  let frame : SignalFrame :=
    ⟨if restart then regs.rax else BitVec.allOnes 64, regs, sigmask, sys.rflags, sys.rip⟩
  if !restart then { frame with regs := { frame.regs with rax := syscallResult } } else frame

/-- `SignalFrame::from_interrupt`. -/
def SignalFrame.fromInterrupt (frame : InterruptFrame) (regs : RegsFrame) (sigmask : BitVec 64) :
    SignalFrame :=
  ⟨BitVec.allOnes 64, regs, sigmask, frame.cf, frame.ip⟩

/-- `arch_sys_check_signals`, with the answers `do_signals` gives in turn: the task's state at
the return and whether the system call is to be restarted. -/
def archSysCheckSignals (syscallResult : SyscallResult) :
    List DoSignalsResult → SysCtx → SysCtx × Bool
  | .entry sig entry :: _, c =>
    match entry.handler with
    | .handle f =>
      let oldMask := c.blocked
      let blocked := setMask .block (some (1 <<< (sig - 1))) c.blocked
      let restart := isRestart syscallResult true (entry.flags &&& restartFlag != 0)
      let frame := SignalFrame.fromSyscall restart (syscallInto syscallResult) c.sys c.regs oldMask
      let (sp, mem) := writeSignalFrame c.sys.rsp c.mem frame entry.sigreturn
      ({ sys := { c.sys with rsp := sp, rip := f },
          regs := { c.regs with rdi := BitVec.ofNat 64 sig }, blocked := blocked, mem := mem },
        false)
    | _ => (c, false)
  | .default :: rest, c | .ignore :: rest, c =>
    if isRestart syscallResult false false then
      ({ c with sys := { c.sys with rip := c.sys.rip - syscallInstructionSize } }, true)
    else ((archSysCheckSignals syscallResult rest c).1, false)
  | _, c => ({ c with regs := { c.regs with rax := syscallInto syscallResult } }, false)

/-- `arch_int_check_signals` on the interrupt frame, the saved registers, the blocked mask and the
memory. -/
def archIntCheckSignals :
    List DoSignalsResult → InterruptFrame × RegsFrame × BitVec 64 × Memory →
      InterruptFrame × RegsFrame × BitVec 64 × Memory
  | .entry sig entry :: _, (frame, regs, blocked, mem) =>
    match entry.handler with
    | .handle f =>
      let signalFrame := SignalFrame.fromInterrupt frame regs blocked
      let blocked := setMask .block (some (1 <<< (sig - 1))) blocked
      let (sp, mem) := writeSignalFrame frame.sp mem signalFrame entry.sigreturn
      ({ frame with sp := sp, ip := f }, { regs with rdi := BitVec.ofNat 64 sig }, blocked, mem)
    | _ => (frame, regs, blocked, mem)
  | .default :: rest, s | .ignore :: rest, s => archIntCheckSignals rest s
  | _, s => s

/-- `arch_sys_sigreturn`: the task's state after the frame at the user stack pointer is popped,
the result `syscall_from` makes of its `rax` (`none` where the transmute is of no discriminant),
and whether the frame asks for a restart. -/
def archSysSigreturn (c : SysCtx) : SysCtx × Option SyscallResult × Bool :=
  let (ws, sp) := StackHelper.restore c.sys.rsp c.mem SignalFrame.words
  let frame := SignalFrame.ofWords ws
  let blocked := setMask .set (some frame.sigmask) c.blocked
  let sp := StackHelper.restoreBy sp redzoneSize
  let result := syscallFrom frame.regs.rax
  let wasRestart := frame.restartSyscall != BitVec.allOnes 64
  let rip := if wasRestart then frame.rip - syscallInstructionSize else frame.rip
  ({ sys := ⟨frame.rflags, rip, sp⟩, regs := frame.regs, blocked, mem := c.mem }, result,
    wasRestart)

/-- The `SYS_SIGRETURN` branch of `fast_syscall_handler`: `none` where the frame's `rax` makes no
`SyscallResult`. -/
def sigreturnSyscall (answers : List DoSignalsResult) (c : SysCtx) : Option SysCtx :=
  let (c, res, wasRestart) := archSysSigreturn c
  res.map fun res =>
    if !wasRestart then (archSysCheckSignals res answers c).1
    else { c with regs := { c.regs with rax := syscallInto res } }

/-! ## The return to user mode -/

/-- The flags `sysret` loads from `r11`: it clears RF and VM and sets the reserved bit 1, and
keeps IOPL and IF as `r11` has them. -/
def sysretRflags (r11 : BitVec 64) : BitVec 64 := (r11 &&& 0x3C7FD7) ||| 2

/-- The I/O privilege level of a flags word. -/
def iopl (rflags : BitVec 64) : BitVec 64 := (rflags >>> 12) &&& 3

/-- The interrupt flag of a flags word. -/
def interruptFlag (rflags : BitVec 64) : Bool := rflags.getLsbD 9

/-- `MAX_USER_ADDR`: user space is the addresses below it. -/
def maxUserAddr : BitVec 64 := 0x8000_0000_0000

end Cykusz.Arch
