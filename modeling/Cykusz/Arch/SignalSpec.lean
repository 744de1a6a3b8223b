import Mathlib
import Cykusz.Lib.BitField
import Cykusz.Arch.Signal

/-!
# What delivery writes and what `sigreturn` reads

Delivery writes the frame and the trampoline's address into the 168 bytes under the red zone of
whatever stack pointer the task has (`writeSignalFrame_eq`), and `sigreturn` reads its 160 bytes
at the stack pointer, whatever it is (`archSysSigreturn_of_load`), taking from them every
register, the flags and the instruction pointer unchecked. A handler that returns to the
trampoline with the frame intact resumes the task as the signal found it
(`sigreturn_resumes`), and the blocked mask never gains an unblockable signal
(`setMask_and_unblockable`). Delivery does not align the handler's stack: it starts 8 bytes off
the alignment a function expects whenever the task's stack pointer was
(`handler_stack_unaligned`). A frame the task writes itself is taken as it is:
`sigreturn_forged_frame`.
-/

namespace Cykusz.Arch

open Cykusz.Syscall WordMemory

variable {sp x : BitVec 64} {mem : Memory} {frame : SignalFrame}

/-! ## Masks -/

theorem and_not_and_self (s m : BitVec 64) : s &&& ~~~m &&& m = 0 := by
  rw [BitVec.and_assoc, BitVec.not_and_self]
  simp

/-- No change of the blocked mask adds an unblockable signal to it. -/
theorem setMask_and_unblockable {b : BitVec 64} (how : SigProcMask) (s : Option (BitVec 64))
    (hb : b &&& unblockableMask = 0) : setMask how s b &&& unblockableMask = 0 := by
  cases s with
  | none => exact hb
  | some s =>
    have hs := and_not_and_self s unblockableMask
    cases how with
    | block => simp only [setMask]; rw [BitField.or_and_of_disjoint hs, hb]
    | unblock =>
      simp only [setMask]
      rw [BitVec.and_assoc, BitVec.and_comm (~~~_), ← BitVec.and_assoc, hb]
      simp
    | set => exact hs

/-- A mask without unblockable signals is set as it is. -/
theorem setMask_set_of_and_eq_zero {b m : BitVec 64} (hm : m &&& unblockableMask = 0) :
    setMask .set (some m) b = m := by
  simp only [setMask]
  exact BitField.and_eq_self (by rw [BitVec.not_not]; exact hm)

/-! ## The stack -/

theorem writeSignalFrame_eq (r : BitVec 64) :
    writeSignalFrame sp mem frame r =
      (sp - 296, store (store mem (sp - 288) frame.toWords) (sp - 296) [r]) := by
  have h1 : sp - redzoneSize - BitVec.ofNat 64 (8 * frame.toWords.length) = sp - 288 := by
    simp only [SignalFrame.length_toWords, SignalFrame.words, redzoneSize]
    bv_omega
  have h2 : sp - 288 - BitVec.ofNat 64 (8 * [r].length) = sp - 296 := by
    simp only [List.length_singleton]
    bv_omega
  simp only [writeSignalFrame, StackHelper.write, StackHelper.skipBy, h1, h2]

/-- The frame reads back from the stack delivery leaves. -/
theorem load_writeSignalFrame (r : BitVec 64) :
    load (writeSignalFrame sp mem frame r).2 (sp - 288) SignalFrame.words = frame.toWords := by
  rw [writeSignalFrame_eq]
  have hout : ∀ x, Within (sp - 288) SignalFrame.words x →
      store (store mem (sp - 288) frame.toWords) (sp - 296) [r] x =
        store mem (sp - 288) frame.toWords x := by
    intro x hx
    apply store_of_not_within
    unfold Within at hx ⊢
    simp only [SignalFrame.words, List.length_singleton] at hx ⊢
    bv_omega
  rw [load_congr hout, ← SignalFrame.length_toWords frame, load_store (by simp [SignalFrame.words])]

/-- Delivery writes nothing outside the 168 bytes under the red zone. -/
theorem writeSignalFrame_of_not_within (r : BitVec 64) (hx : ¬Within (sp - 296) 21 x) :
    (writeSignalFrame sp mem frame r).2 x = mem x := by
  rw [writeSignalFrame_eq]
  unfold Within at hx
  have h1 : ¬Within (sp - 296) [r].length x := by
    unfold Within
    simp only [List.length_singleton]
    bv_omega
  have h2 : ¬Within (sp - 288) frame.toWords.length x := by
    unfold Within
    simp only [SignalFrame.length_toWords, SignalFrame.words]
    bv_omega
  simp only [store_of_not_within h1, store_of_not_within h2]

/-! ## `sigreturn` -/

/-- `sigreturn` on a stack holding `frame`: every register, the flags and the instruction pointer
come from the frame, and the stack pointer moves past the frame and the red zone. -/
theorem archSysSigreturn_of_load {c : SysCtx}
    (h : load c.mem c.sys.rsp SignalFrame.words = frame.toWords) :
    archSysSigreturn c =
      ({ sys := ⟨frame.rflags,
            if frame.restartSyscall != BitVec.allOnes 64 then frame.rip - syscallInstructionSize
            else frame.rip, c.sys.rsp + 288⟩,
          regs := frame.regs, blocked := setMask .set (some frame.sigmask) c.blocked,
          mem := c.mem },
        syscallFrom frame.regs.rax, frame.restartSyscall != BitVec.allOnes 64) := by
  have hsp : c.sys.rsp + BitVec.ofNat 64 (8 * SignalFrame.words) + redzoneSize =
      c.sys.rsp + 288 := by
    simp only [SignalFrame.words, redzoneSize]
    bv_omega
  simp only [archSysSigreturn, StackHelper.restore, StackHelper.restoreBy, h,
    SignalFrame.ofWords_toWords, hsp]

/-- What `sigreturn` makes of a task depends on its stack pointer and the 160 bytes there only:
not on its registers, flags, instruction pointer or blocked mask. -/
theorem archSysSigreturn_congr {c c' : SysCtx} (hsp : c.sys.rsp = c'.sys.rsp)
    (hmem : ∀ x, Within c.sys.rsp SignalFrame.words x → c.mem x = c'.mem x) :
    archSysSigreturn c = ({ (archSysSigreturn c').1 with mem := c.mem }, (archSysSigreturn c').2) := by
  have hload : load c.mem c'.sys.rsp SignalFrame.words = load c'.mem c'.sys.rsp SignalFrame.words :=
    hsp ▸ load_congr hmem
  simp only [archSysSigreturn, StackHelper.restore, hsp, hload]
  rfl

/-! ## Delivery and the return through `sigreturn` -/

variable {r : SyscallResult} {sig : ℕ} {e : SignalEntry} {f : BitVec 64}
  {rest : List DoSignalsResult} {c c' : SysCtx}

@[simp] theorem fromSyscall_true (w : BitVec 64) (sys : SyscallFrame) (regs : RegsFrame)
    (mask : BitVec 64) :
    SignalFrame.fromSyscall true w sys regs mask = ⟨regs.rax, regs, mask, sys.rflags, sys.rip⟩ :=
  rfl

@[simp] theorem fromSyscall_false (w : BitVec 64) (sys : SyscallFrame) (regs : RegsFrame)
    (mask : BitVec 64) :
    SignalFrame.fromSyscall false w sys regs mask =
      ⟨BitVec.allOnes 64, { regs with rax := w }, mask, sys.rflags, sys.rip⟩ := rfl

/-- Delivery to a handler from a system call: the frame of the interrupted state goes under the
red zone, the task resumes in the handler with the signal in `rdi`, and the signal is blocked. -/
theorem archSysCheckSignals_handle (he : e.handler = .handle f) :
    archSysCheckSignals r (.entry sig e :: rest) c =
      ({ sys := { c.sys with rsp := c.sys.rsp - 296, rip := f },
          regs := { c.regs with rdi := BitVec.ofNat 64 sig },
          blocked := setMask .block (some (1 <<< (sig - 1))) c.blocked,
          mem := (writeSignalFrame c.sys.rsp c.mem
            (SignalFrame.fromSyscall (isRestart r true (e.flags &&& restartFlag != 0))
              (syscallInto r) c.sys c.regs c.blocked) e.sigreturn).2 }, false) := by
  simp only [archSysCheckSignals, he, writeSignalFrame_eq]

/-- A handler that returns to the trampoline with the frame as delivery wrote it resumes the task
through `sigreturn` as the signal found it: with its flags, stack pointer and blocked mask, and
either restarting the system call (its number in `rax`, the instruction pointer back on the
`syscall` instruction) or returning its result in `rax`. -/
theorem sigreturn_resumes (he : e.handler = .handle f) (hr : ∀ v, r = .ok v → v < 2 ^ 63)
    (hrax : c.regs.rax.toNat < 2 ^ 63) (hmask : c.blocked &&& unblockableMask = 0)
    (hsp : c'.sys.rsp = (archSysCheckSignals r (.entry sig e :: rest) c).1.sys.rsp + 8)
    (hmem : ∀ x, Within c'.sys.rsp SignalFrame.words x →
      c'.mem x = (archSysCheckSignals r (.entry sig e :: rest) c).1.mem x) :
    ∃ c'', sigreturnSyscall [] c' = some c'' ∧ c''.blocked = c.blocked ∧
      if isRestart r true (e.flags &&& restartFlag != 0) then
        c''.sys = { c.sys with rip := c.sys.rip - syscallInstructionSize } ∧ c''.regs = c.regs
      else c''.sys = c.sys ∧ c''.regs = { c.regs with rax := syscallInto r } := by
  rw [archSysCheckSignals_handle he] at hsp hmem
  generalize isRestart r true (e.flags &&& restartFlag != 0) = restart at hsp hmem ⊢
  -- the handler returned to the trampoline, just above the frame
  have hsp' : c'.sys.rsp = c.sys.rsp - 288 := by
    rw [hsp]
    bv_omega
  have hload : load c'.mem c'.sys.rsp SignalFrame.words =
      (SignalFrame.fromSyscall restart (syscallInto r) c.sys c.regs c.blocked).toWords := by
    rw [load_congr hmem, hsp']
    exact load_writeSignalFrame _
  have hrsp : c'.sys.rsp + 288 = c.sys.rsp := by
    rw [hsp']
    bv_omega
  rw [sigreturnSyscall, archSysSigreturn_of_load hload]
  cases restart with
  | true =>
    -- the saved `rax` is the system call's number, which reads back as itself
    have hne : (c.regs.rax != BitVec.allOnes 64) = true := by
      simp only [bne_iff_ne, ne_eq]
      intro h
      rw [h, BitVec.toNat_allOnes] at hrax
      omega
    have hfrom : syscallFrom c.regs.rax = some (.ok c.regs.rax.toNat) := by
      rw [← syscallFrom_ofNat hrax, BitVec.ofNat_toNat, BitVec.setWidth_eq]
    simp only [fromSyscall_true, hne, hfrom, hrsp, setMask_set_of_and_eq_zero hmask,
      Option.map_some, if_true]
    refine ⟨_, rfl, rfl, rfl, ?_⟩
    simp [syscallInto]
  | false =>
    -- the saved `rax` is the result's word, which reads back as a result with that word
    obtain ⟨r', hfrom, hinto⟩ := syscallFrom_syscallInto hr
    have hne : (BitVec.allOnes 64 != BitVec.allOnes 64) = false := by simp
    simp only [fromSyscall_false, hne, hfrom, hrsp, setMask_set_of_and_eq_zero hmask,
      Option.map_some, Bool.not_false, if_true, Bool.false_eq_true, if_false]
    refine ⟨_, rfl, rfl, rfl, ?_⟩
    simp [archSysCheckSignals, hinto]

/-- A handler at `0x402000` for signal 2, with its trampoline at `0x403000`. -/
def sigintEntry : SignalEntry := ⟨.handle 0x40_2000, 0, 0x40_3000⟩

/-- A task returning 3 from system call 1, nothing blocked. -/
def sigintCtx : SysCtx :=
  ⟨⟨0x202, 0x40_1000, 0x7FFF_F000⟩, ⟨0, 1, 0, 0, 0, 0, 0, 0, 0, 0, 0, 0, 0, 0, 0, 0⟩, 0,
    fun _ => 0⟩

/-- The task of `sigintCtx` in its handler for signal 2, just after the handler's `ret`. -/
def sigintReturned : SysCtx :=
  let d := (archSysCheckSignals (.ok 3) [.entry 2 sigintEntry] sigintCtx).1
  { d with sys := { d.sys with rsp := d.sys.rsp + 8 } }

theorem sigreturn_resumes_sigint :
    ∃ c'', sigreturnSyscall [] sigintReturned = some c'' ∧ c''.blocked = sigintCtx.blocked ∧
      if isRestart (.ok 3) true (sigintEntry.flags &&& restartFlag != 0) then
        c''.sys = { sigintCtx.sys with rip := sigintCtx.sys.rip - syscallInstructionSize } ∧
          c''.regs = sigintCtx.regs
      else c''.sys = sigintCtx.sys ∧ c''.regs = { sigintCtx.regs with rax := syscallInto (.ok 3) } :=
  sigreturn_resumes rfl (fun v h => by cases h; decide) (by decide) (by decide) rfl
    (fun _ _ => rfl)

/-! ## The handler's stack -/

/-- The handler starts 296 bytes under the task's stack pointer, so `rsp + 8` is a multiple of 16,
as a function expects at its entry, exactly when the task's stack pointer was one: delivery never
aligns the stack. -/
theorem handler_stack_unaligned (he : e.handler = .handle f) :
    ((archSysCheckSignals r (.entry sig e :: rest) c).1.sys.rsp + 8).toNat % 16 =
      c.sys.rsp.toNat % 16 := by
  rw [archSysCheckSignals_handle he]
  dsimp only
  bv_omega

/-- The task of `sigintCtx` with its stack pointer 8 bytes off a multiple of 16, as in a function
body that has pushed nothing since its call. -/
def sigintCtxOdd : SysCtx := { sigintCtx with sys := { sigintCtx.sys with rsp := 0x7FFF_EFF8 } }

/-- Its handler for signal 2 starts with `rsp + 8` 8 bytes off a multiple of 16. -/
theorem handler_stack_unaligned_sigint :
    ((archSysCheckSignals (.ok 3) [.entry 2 sigintEntry] sigintCtxOdd).1.sys.rsp + 8).toNat % 16 =
      8 := by
  have h : ((archSysCheckSignals (.ok 3) [.entry 2 sigintEntry] sigintCtxOdd).1.sys.rsp +
      8).toNat % 16 = sigintCtxOdd.sys.rsp.toNat % 16 := handler_stack_unaligned rfl
  rw [h]
  rfl

/-! ## A frame the task writes itself -/

/-- A frame no delivery wrote: no restart, `rax` the negation of 5 (no discriminant of
`SyscallError`), flags with IOPL 3 and interrupts off, and the instruction pointer at the first
address above user space, which is not canonical. -/
def forgedFrame : SignalFrame :=
  ⟨BitVec.allOnes 64, ⟨0, -5, 0, 0, 0, 0, 0, 0, 0, 0, 0, 0, 0, 0, 0, 0⟩, 0, 0x3002,
    0x8000_0000_0000⟩

/-- A task calling `sigreturn` with the forged frame at its stack pointer, in user space. -/
def forgedCtx : SysCtx :=
  ⟨⟨0x202, 0x40_1000, 0x7FFF_F000⟩, ⟨0, 15, 0, 0, 0, 0, 0, 0, 0, 0, 0, 0, 0, 0, 0, 0⟩, 0,
    store (fun _ => 0) 0x7FFF_F000 forgedFrame.toWords⟩

/-- `sigreturn` takes the forged frame as it is: its `rax` makes no `SyscallResult` (the
transmute in `syscall_from` builds an invalid `SyscallError`), the task would return to an address
outside user space, and with IOPL 3 and interrupts off. -/
theorem sigreturn_forged_frame :
    (sigreturnSyscall [] forgedCtx).isNone = true ∧
      maxUserAddr ≤ (archSysSigreturn forgedCtx).1.sys.rip ∧
      iopl (sysretRflags (archSysSigreturn forgedCtx).1.sys.rflags) = 3 ∧
      interruptFlag (sysretRflags (archSysSigreturn forgedCtx).1.sys.rflags) = false := by
  have h : load forgedCtx.mem forgedCtx.sys.rsp SignalFrame.words = forgedFrame.toWords :=
    load_store (by decide)
  rw [sigreturnSyscall, archSysSigreturn_of_load h]
  decide

end Cykusz.Arch
