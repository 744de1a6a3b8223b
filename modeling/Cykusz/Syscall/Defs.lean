import Mathlib

/-!
# System call results

`SyscallError` is a `#[repr(u64)]` enumeration: a value of it is one of its discriminants,
which the structure carries as a field. A system call returns a `SyscallResult`, passed to user
space in `rax` as an `isize` (`syscall_into`): the value itself, or the negated discriminant of
the error, with the three restart errors read as `EINTR`. `syscall_from` turns a word back into a
result by transmuting the negated word into a `SyscallError`; a word that is not a negated
discriminant has no `SyscallError` to become, and `syscallFrom` returns `none` for it.
-/

namespace Cykusz.Syscall

/-- The discriminants of `SyscallError`, in the order of its variants. -/
def syscallErrorCodes : List ℕ :=
  [1, 2, 3, 1001, 1002, 1003, 1004, 1005, 1006, 1007, 1008, 1009, 1010, 1011, 1012, 1013, 1014,
    1015, 1016, 1017, 1018, 1019, 1020, 1021, 1022, 1023, 1024, 1025, 1026, 1027, 1028, 1029,
    1030, 1031, 1032, 1034, 1035, 1036, 1037, 1038, 1039, 1040, 1041, 1042, 1043, 1044, 1045,
    1046, 1047, 1048, 1049, 1050, 1051, 1052, 1053, 1054, 1055, 1056, 1057, 1058, 1059, 1060,
    1061, 1062, 1063, 1064, 1065, 1066, 1067, 1068, 1069, 1070, 1071, 1072, 1073, 1075, 1076,
    1077, 1078, 1079, 1080, 1081, 1082, 1083, 1106, 2000, 2001, 2002, 0xffff]

/-- A value of `SyscallError`: one of its discriminants. -/
structure SyscallError where
  code : ℕ
  valid : code ∈ syscallErrorCodes
deriving DecidableEq

namespace SyscallError

def EACCES : SyscallError := ⟨1002, by decide⟩
def EADDRINUSE : SyscallError := ⟨1003, by decide⟩
def EADDRNOTAVAIL : SyscallError := ⟨1004, by decide⟩
def EAGAIN : SyscallError := ⟨1006, by decide⟩
def EBADFD : SyscallError := ⟨1081, by decide⟩
def EBUSY : SyscallError := ⟨1010, by decide⟩
def ECHILD : SyscallError := ⟨1012, by decide⟩
def ECONNREFUSED : SyscallError := ⟨1014, by decide⟩
def EEXIST : SyscallError := ⟨1019, by decide⟩
def EINTR : SyscallError := ⟨1025, by decide⟩
def EINVAL : SyscallError := ⟨1026, by decide⟩
def EISDIR : SyscallError := ⟨1029, by decide⟩
def ENOENT : SyscallError := ⟨1043, by decide⟩
def ENOSYS : SyscallError := ⟨1051, by decide⟩
def ENOTDIR : SyscallError := ⟨1053, by decide⟩
def ENOTTY : SyscallError := ⟨1058, by decide⟩
def ENXIO : SyscallError := ⟨1059, by decide⟩
def EPERM : SyscallError := ⟨1063, by decide⟩
def EPIPE : SyscallError := ⟨1064, by decide⟩
def ESPIPE : SyscallError := ⟨1069, by decide⟩
def ESRCH : SyscallError := ⟨1070, by decide⟩
def ERESTARTSYS : SyscallError := ⟨2000, by decide⟩
def ERESTARTNOHAND : SyscallError := ⟨2001, by decide⟩
def ERESTARTNOINTR : SyscallError := ⟨2002, by decide⟩

theorem codes_bounds : ∀ c ∈ syscallErrorCodes, 1 ≤ c ∧ c ≤ 0xffff := by decide

theorem one_le_code (e : SyscallError) : 1 ≤ e.code := (codes_bounds _ e.valid).1

theorem code_le (e : SyscallError) : e.code ≤ 0xffff := (codes_bounds _ e.valid).2

end SyscallError

/-- `SyscallResult`: `Result<usize, SyscallError>`. -/
abbrev SyscallResult := Except SyscallError ℕ

open SyscallError

/-- `SyscallResult::syscall_from` of the word `e` read as an `isize`: `none` where the transmute
of `-e` does not give a discriminant of `SyscallError`. -/
def syscallFrom (e : BitVec 64) : Option SyscallResult :=
  if 0 ≤ e.toInt then some (.ok e.toNat)
  else
    -- `(-e) as u64`: the negation wraps, so `isize::MIN` stays `2 ^ 63`, which is no
    -- discriminant either
    let code := (-e).toNat
    if h : code ∈ syscallErrorCodes then some (.error ⟨code, h⟩) else none

/-- The result as the word user space gets in `rax`: `SyscallResult::syscall_into`. -/
def syscallInto : SyscallResult → BitVec 64
  | .ok v => BitVec.ofNat 64 v
  | .error e =>
    if e = ERESTARTNOHAND ∨ e = ERESTARTNOINTR ∨ e = ERESTARTSYS then -BitVec.ofNat 64 EINTR.code
    else -BitVec.ofNat 64 e.code

/-- `SyscallRestartable::is_restart`. -/
def isRestart (r : SyscallResult) (hasHandler restartFlag : Bool) : Bool :=
  match r with
  | .error e =>
    if e = ERESTARTNOINTR then true
    else if e = ERESTARTSYS then !hasHandler || (hasHandler && restartFlag)
    else if e = ERESTARTNOHAND then !hasHandler
    else false
  | .ok _ => false

theorem syscallFrom_ofNat {v : ℕ} (hv : v < 2 ^ 63) :
    syscallFrom (BitVec.ofNat 64 v) = some (.ok v) := by
  have hnonneg : 0 ≤ (BitVec.ofNat 64 v).toInt := by
    rw [BitVec.toInt_eq_toNat_cond]
    simp only [BitVec.toNat_ofNat]
    split <;> omega
  have hv' : (BitVec.ofNat 64 v).toNat = v := by
    rw [BitVec.toNat_ofNat]
    omega
  rw [syscallFrom, if_pos hnonneg, hv']

/-- A negated discriminant transmutes back into its error. -/
theorem syscallFrom_neg_code (e : SyscallError) :
    syscallFrom (-BitVec.ofNat 64 e.code) = some (.error e) := by
  have h1 := e.one_le_code
  have h2 := e.code_le
  have hneg : ¬0 ≤ (-BitVec.ofNat 64 e.code).toInt := by
    rw [BitVec.toInt_eq_toNat_cond]
    have : (-BitVec.ofNat 64 e.code).toNat = 2 ^ 64 - e.code := by
      rw [BitVec.toNat_neg, BitVec.toNat_ofNat]
      omega
    simp only [this]
    omega
  have hcode : (- -BitVec.ofNat 64 e.code).toNat = e.code := by
    rw [BitVec.neg_neg, BitVec.toNat_ofNat]
    omega
  simp only [syscallFrom, if_neg hneg, hcode, dif_pos e.valid]

/-- The word of every result whose value fits an `isize` transmutes back into a result with the
same word: what user space gets in `rax` always reads back as a valid `SyscallResult`. -/
theorem syscallFrom_syscallInto {r : SyscallResult} (hr : ∀ v, r = .ok v → v < 2 ^ 63) :
    ∃ r', syscallFrom (syscallInto r) = some r' ∧ syscallInto r' = syscallInto r := by
  cases r with
  | ok v => exact ⟨.ok v, syscallFrom_ofNat (hr v rfl), rfl⟩
  | error e =>
    by_cases hres : e = ERESTARTNOHAND ∨ e = ERESTARTNOINTR ∨ e = ERESTARTSYS
    · refine ⟨.error EINTR, ?_, ?_⟩
      · simp only [syscallInto, if_pos hres, syscallFrom_neg_code]
      · simp only [syscallInto, if_pos hres]
        rw [if_neg (by decide)]
    · refine ⟨.error e, ?_, rfl⟩
      simp only [syscallInto, if_neg hres, syscallFrom_neg_code]

/-! ## Open flags -/

/-- `OpenFlags`, a set of bits of a `usize`; the low three bits are the access mode. -/
structure OpenFlags where
  bits : ℕ
deriving DecidableEq, Repr

namespace OpenFlags

def RDONLY : OpenFlags := ⟨0o0⟩
def WRONLY : OpenFlags := ⟨0o1⟩
def RDWR : OpenFlags := ⟨0o2⟩
def NONBLOCK : OpenFlags := ⟨0o4000⟩

instance : OrOp OpenFlags := ⟨fun a b => ⟨a.bits ||| b.bits⟩⟩

/-- `OpenFlags::is_open_mode`: the access modes agree. -/
def isOpenMode (f mode : OpenFlags) : Bool := f.bits &&& 0b111 == mode.bits &&& 0b111

/-- `OpenFlags::contains`. -/
def contains (f g : OpenFlags) : Bool := f.bits &&& g.bits == g.bits

/-- A flag word has at most one access mode. -/
theorem isOpenMode_exclusive {f m m' : OpenFlags} (h : f.isOpenMode m = true)
    (h' : f.isOpenMode m' = true) : m.bits &&& 0b111 = m'.bits &&& 0b111 := by
  simp only [isOpenMode, beq_iff_eq] at h h'
  rw [← h, ← h']

/-- A flag word in one access mode is in no other. -/
theorem isOpenMode_eq_false {f m m' : OpenFlags} (h : f.isOpenMode m = true)
    (hne : m.bits &&& 0b111 ≠ m'.bits &&& 0b111) : f.isOpenMode m' = false := by
  by_contra h'
  exact hne (isOpenMode_exclusive h (Bool.not_eq_false _ ▸ h'))

end OpenFlags

end Cykusz.Syscall
