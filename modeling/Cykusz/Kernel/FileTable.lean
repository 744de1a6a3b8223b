import Mathlib
import Cykusz.Syscall.Defs
import Cykusz.Fs.Vfs
import Cykusz.Lib.Simulation

/-!
# The file descriptor table

`FileTable` keeps a task's descriptors in `FILE_NUM` slots, each empty or holding a
`FileDescriptor`: a `FileHandle` shared with the descriptor's duplicates (an `Arc`) and the
descriptor's own flags. `open_file` and `duplicate` take the first free slot (at or past `min` for
`duplicate`), `duplicate_at` overwrites the slot it is given, `close_file` empties a slot, and
`close_on_exec` empties those marked `FD_CLOEXEC`. `FileTable::new` makes all `FILE_NUM` slots,
and each of these calls keeps them (`close_all_files`, at a process's exit, drops them).

What the table is for is a map from descriptor numbers to descriptors, in which a new descriptor
takes the lowest free number (`Spec`). Over every sequence of calls from a table of `FILE_NUM`
slots, the table answers as the map does and holds the same descriptors, and `duplicate_at` never
indexes past the end of `files` (`filetable_refines_posix`).

`fcntl(F_SETFD)` departs from it. A descriptor's flags are an `AtomicU64` of its own, and
`get_fd` returns a clone of the descriptor, whose `Clone` makes a new word: in memory, with each
word at a place (`Mem`), `F_SETFD` stores to the clone's word, which no descriptor of the table
names. `F_GETFD` then reads the old flags, and an `exec` keeps a descriptor marked close-on-exec
that way (`setfd_lost_on_exec`).
-/

namespace Cykusz.Kernel

open Cykusz.Syscall Cykusz.Fs SyscallError Simulation

/-- `FILE_NUM`. -/
def fileNum : ℕ := 256

/-- `FDFlags`, whose one flag is `FD_CLOEXEC`, bit 0. -/
structure FDFlags where
  cloexec : Bool
deriving DecidableEq, Repr

namespace FDFlags

/-- `From<OpenFlags> for FDFlags`: `FD_CLOEXEC` when the flags contain `CLOEXEC` (`0o2000000`). -/
def ofOpenFlags (f : OpenFlags) : FDFlags := ⟨f.contains ⟨0o2000000⟩⟩

/-- `FDFlags::FD_CLOEXEC`. -/
def FD_CLOEXEC : FDFlags := ⟨true⟩

/-- `FDFlags::from_bits_truncate`. -/
def fromBitsTruncate (bits : ℕ) : FDFlags := ⟨bits.testBit 0⟩

/-- `FDFlags::bits`. -/
def bits (f : FDFlags) : ℕ := if f.cloexec then 1 else 0

end FDFlags

/-- `FileDescriptor`: the handle, shared with the descriptor's duplicates, and the descriptor's own
flags. -/
structure FileDescriptor (H : Type*) where
  handle : H
  flags : FDFlags

/-- `FileTable`: its slots, `files`. -/
structure FileTable (H : Type*) where
  files : List (Option (FileDescriptor H))

namespace FileTable

variable {H : Type*}

/-- `FileTable::new`. -/
def new : FileTable H := ⟨List.replicate fileNum none⟩

/-- The `find` of `open_file` and `duplicate` over `files.iter_mut().enumerate()`: the first slot,
counting from index `idx`, that is at or past `min` and empty. -/
def findFree : List (Option (FileDescriptor H)) → ℕ → ℕ → Option ℕ
  | [], _, _ => none
  | f :: fs, idx, min => if min ≤ idx ∧ f.isNone then some idx else findFree fs (idx + 1) min

/-- `FileTable::open_file`: the descriptor made for slot `idx` holds the handle `mk idx` (a
`FileHandle` that records `idx`) and the flags' `FD_CLOEXEC`; `opens` is what the handle's
`open(flags)` returns. It takes the first free slot, or a new slot at the end while there are
fewer than `FILE_NUM`; `Busy` otherwise. A failed open leaves the table as it was. -/
def openFile (t : FileTable H) (mk : ℕ → H) (flags : OpenFlags) (opens : Except FsError Unit) :
    Except FsError (FileTable H × ℕ) :=
  let mkHandle (fd : ℕ) : FileDescriptor H := ⟨mk fd, FDFlags.ofOpenFlags flags⟩
  match findFree t.files 0 0 with
  | some idx => opens.map fun _ => (⟨t.files.set idx (some (mkHandle idx))⟩, idx)
  | none =>
    if t.files.length < fileNum then
      opens.map fun _ => (⟨t.files ++ [some (mkHandle t.files.length)]⟩, t.files.length)
    else .error .busy

/-- `FileTable::close_file`: whether slot `fd` held a descriptor, which goes. -/
def closeFile (t : FileTable H) (fd : ℕ) : FileTable H × Bool :=
  match t.files[fd]? with
  | some (some _) => (⟨t.files.set fd none⟩, true)
  | _ => (t, false)

/-- `FileTable::close_on_exec`: the descriptors marked `FD_CLOEXEC` go. -/
def closeOnExec (t : FileTable H) : FileTable H :=
  ⟨t.files.map fun f => if f.any (·.flags.cloexec) then none else f⟩

/-- `FileTable::close_all_files`. -/
def closeAllFiles (_ : FileTable H) : FileTable H := ⟨[]⟩

/-- `FileTable::get_handle`. -/
def getHandle (t : FileTable H) (fd : ℕ) : Option H := (t.files[fd]?).join.map (·.handle)

/-- The descriptor in slot `fd`, as `FileTable::get_fd` reads it. -/
def getFd (t : FileTable H) (fd : ℕ) : Option (FileDescriptor H) := (t.files[fd]?).join

/-- `FileTable::duplicate`. -/
def duplicate (t : FileTable H) (fd : ℕ) (flags : FDFlags) (min : ℕ) :
    Except SyscallError (FileTable H × ℕ) :=
  match t.getHandle fd with
  | none => .error EBADFD
  | some handle =>
    match findFree t.files 0 min with
    | some idx => .ok (⟨t.files.set idx (some ⟨handle, flags⟩)⟩, idx)
    | none =>
      if t.files.length < fileNum then .ok (⟨t.files ++ [some ⟨handle, flags⟩]⟩, t.files.length)
      else .error EINVAL

/-- `FileTable::duplicate_at` of `fd` at `newFd`; `none` is the panic of `files[at]` past the end
of `files`. -/
def duplicateAt (t : FileTable H) (fd newFd : ℕ) (flags : FDFlags) :
    Option (Except SyscallError (FileTable H × ℕ)) :=
  if newFd ≥ fileNum then some (.error EINVAL)
  else
    match t.getHandle fd with
    | none => some (.error EBADFD)
    | some handle =>
      if newFd < t.files.length then some (.ok (⟨t.files.set newFd (some ⟨handle, flags⟩)⟩, newFd))
      else none

/-- A call on the table. -/
inductive Call (H : Type*)
  | openFile (make : ℕ → H) (flags : OpenFlags) (opens : Except FsError Unit)
  | closeFile (fd : ℕ)
  | duplicate (fd : ℕ) (flags : FDFlags) (min : ℕ)
  | duplicateAt (fd newFd : ℕ) (flags : FDFlags)
  | closeOnExec
  | getHandle (fd : ℕ)

/-- What a call returns; `panicked` is a panic. -/
inductive Reply (H : Type*)
  | opened (r : Except FsError ℕ)
  | closed (found : Bool)
  | duplicated (r : SyscallResult)
  | handle (h : Option H)
  | done
  | panicked

/-- One call: what it returns, and the table after it. -/
def exec (t : FileTable H) : Call H → Reply H × FileTable H
  | .openFile make flags opens =>
    match t.openFile make flags opens with
    | .ok (t', idx) => (.opened (.ok idx), t')
    | .error e => (.opened (.error e), t)
  | .closeFile fd => ((.closed (t.closeFile fd).2), (t.closeFile fd).1)
  | .duplicate fd flags min =>
    match t.duplicate fd flags min with
    | .ok (t', idx) => (.duplicated (.ok idx), t')
    | .error e => (.duplicated (.error e), t)
  | .duplicateAt fd newFd flags =>
    match t.duplicateAt fd newFd flags with
    | some (.ok (t', idx)) => (.duplicated (.ok idx), t')
    | some (.error e) => (.duplicated (.error e), t)
    | none => (.panicked, t)
  | .closeOnExec => (.done, t.closeOnExec)
  | .getHandle fd => (.handle (t.getHandle fd), t)

/-- The descriptor each number names. -/
def toFds (t : FileTable H) : ℕ → Option (FileDescriptor H) := fun n => (t.files[n]?).join

end FileTable

/-! ## The descriptor map -/

namespace Spec

open FileTable

variable {H : Type*}

/-- The lowest free descriptor number at or past `min`, below `FILE_NUM`. -/
noncomputable def lowestFree (fds : ℕ → Option (FileDescriptor H)) (min : ℕ) : Option ℕ :=
  open Classical in
  if h : ∃ n, min ≤ n ∧ n < fileNum ∧ fds n = none then some (Nat.find h) else none

/-- A call on the descriptor map: a new descriptor takes the lowest free number, a descriptor
placed at a number replaces the one there, and `exec` drops those marked close-on-exec. -/
noncomputable def exec (fds : ℕ → Option (FileDescriptor H)) :
    Call H → Reply H × (ℕ → Option (FileDescriptor H))
  | .openFile make flags opens =>
    match lowestFree fds 0, opens with
    | some n, .ok () =>
      (.opened (.ok n), Function.update fds n (some ⟨make n, .ofOpenFlags flags⟩))
    | some _, .error e => (.opened (.error e), fds)
    | none, _ => (.opened (.error .busy), fds)
  | .closeFile fd => (.closed (fds fd).isSome, Function.update fds fd none)
  | .duplicate fd flags min =>
    match fds fd, lowestFree fds min with
    | none, _ => (.duplicated (.error EBADFD), fds)
    | some d, some n => (.duplicated (.ok n), Function.update fds n (some ⟨d.handle, flags⟩))
    | some _, none => (.duplicated (.error EINVAL), fds)
  | .duplicateAt fd newFd flags =>
    if fileNum ≤ newFd then (.duplicated (.error EINVAL), fds)
    else
      match fds fd with
      | none => (.duplicated (.error EBADFD), fds)
      | some d => (.duplicated (.ok newFd), Function.update fds newFd (some ⟨d.handle, flags⟩))
  | .closeOnExec => (.done, fun n => (fds n).filter fun d => !d.flags.cloexec)
  | .getHandle fd => (.handle ((fds fd).map (·.handle)), fds)

/-- `lowestFree` is the least free number in range. -/
theorem lowestFree_eq_some_iff {fds : ℕ → Option (FileDescriptor H)} {min n : ℕ} :
    lowestFree fds min = some n ↔
      (min ≤ n ∧ n < fileNum ∧ fds n = none) ∧
        ∀ j, min ≤ j → j < n → fds j ≠ none := by
  classical
  unfold lowestFree
  split_ifs with h
  · rw [Option.some_inj]
    constructor
    · rintro rfl
      exact ⟨Nat.find_spec h, fun j hj hjn hfree =>
        Nat.find_min h hjn ⟨hj, by have := (Nat.find_spec h).2.1; omega, hfree⟩⟩
    · rintro ⟨hn, hmin⟩
      refine le_antisymm (Nat.find_min' h hn) (not_lt.1 fun hlt => ?_)
      obtain ⟨hj, -, hfree⟩ := Nat.find_spec h
      exact hmin _ hj hlt hfree
  · simp only [false_iff, not_and]
    exact fun hn => absurd ⟨n, hn⟩ h

theorem lowestFree_eq_none_iff {fds : ℕ → Option (FileDescriptor H)} {min : ℕ} :
    lowestFree fds min = none ↔ ∀ n, min ≤ n → n < fileNum → fds n ≠ none := by
  classical
  unfold lowestFree
  split_ifs with h
  · simp only [false_iff, not_forall, not_not]
    obtain ⟨n, h₁, h₂, h₃⟩ := h
    exact ⟨n, h₁, h₂, h₃⟩
  · simp only [true_iff]
    exact fun n h₁ h₂ h₃ => h ⟨n, h₁, h₂, h₃⟩

/-- The map never answers with a panic. -/
theorem exec_ne_panicked (fds : ℕ → Option (FileDescriptor H)) (c : Call H) :
    (exec fds c).1 ≠ .panicked := by
  cases c with
  | openFile make flags opens => simp only [exec]; split <;> simp
  | duplicate fd flags min => simp only [exec]; split <;> simp
  | duplicateAt fd newFd flags =>
    simp only [exec]
    split_ifs
    · simp
    · split <;> simp
  | closeFile fd | closeOnExec | getHandle fd => simp [exec]

theorem trace_ne_panicked (fds : ℕ → Option (FileDescriptor H)) (calls : List (Call H)) :
    Reply.panicked ∉ (trace exec fds calls).1 := by
  induction calls generalizing fds with
  | nil => simp [trace]
  | cons c cs ih =>
    simp only [trace, List.mem_cons, not_or]
    exact ⟨(exec_ne_panicked fds c).symm, ih _⟩

end Spec

/-! ## The table refines the map -/

namespace FileTable

variable {H : Type*} {t : FileTable H}

/-- What `findFree` returns: an empty slot at or past `min`, every slot between `idx` and it at or
past `min` being full. -/
theorem findFree_eq_some {l : List (Option (FileDescriptor H))} {idx min k : ℕ}
    (h : findFree l idx min = some k) :
    ∃ i, k = idx + i ∧ min ≤ k ∧ l[i]? = some none ∧
      ∀ i' < i, min ≤ idx + i' → ∃ d, l[i']? = some (some d) := by
  induction l generalizing idx with
  | nil => cases h
  | cons f fs ih =>
    simp only [findFree] at h
    split_ifs at h with hfree
    · -- the first slot is free
      cases h
      obtain ⟨hmin, hnone⟩ := hfree
      exact ⟨0, rfl, hmin, by simpa using hnone, by simp⟩
    · obtain ⟨i, rfl, hmin, hi, hfull⟩ := ih h
      refine ⟨i + 1, by omega, hmin, hi, fun i' hi' hmin' => ?_⟩
      cases i' with
      | zero =>
        -- the first slot, at or past `min`, is full
        cases f with
        | none => exact absurd ⟨by omega, rfl⟩ hfree
        | some d => exact ⟨d, rfl⟩
      | succ i' => exact hfull i' (by omega) (by omega)

theorem findFree_eq_none {l : List (Option (FileDescriptor H))} {idx min : ℕ}
    (h : findFree l idx min = none) :
    ∀ i < l.length, min ≤ idx + i → ∃ d, l[i]? = some (some d) := by
  induction l generalizing idx with
  | nil => simp
  | cons f fs ih =>
    simp only [findFree] at h
    split_ifs at h with hfree
    intro i hi hmin
    cases i with
    | zero =>
      cases f with
      | none => exact absurd ⟨by omega, rfl⟩ hfree
      | some d => exact ⟨d, rfl⟩
    | succ i => exact ih h i (by simpa using hi) (by omega)

/-- On a table of `FILE_NUM` slots, the slot `find` takes is the lowest free number. -/
theorem findFree_eq_lowestFree (ht : t.files.length = fileNum) (min : ℕ) :
    findFree t.files 0 min = Spec.lowestFree t.toFds min := by
  cases hf : findFree t.files 0 min with
  | some k =>
    obtain ⟨i, rfl, hmin, hi, hfull⟩ := findFree_eq_some hf
    have hlt : i < fileNum := ht ▸ (List.getElem?_eq_some_iff.1 hi).1
    refine (Spec.lowestFree_eq_some_iff.2 ⟨⟨hmin, by omega, by simp [toFds, hi]⟩, ?_⟩).symm
    intro j hj hji
    obtain ⟨d, hd⟩ := hfull j (by omega) (by omega)
    simp [toFds, hd]
  | none =>
    refine (Spec.lowestFree_eq_none_iff.2 fun n hn hlt => ?_).symm
    obtain ⟨d, hd⟩ := findFree_eq_none hf n (by omega) (by omega)
    simp [toFds, hd]

theorem toFds_set {n : ℕ} (hn : n < t.files.length) (f : Option (FileDescriptor H)) :
    (⟨t.files.set n f⟩ : FileTable H).toFds = Function.update t.toFds n f := by
  funext j
  by_cases hj : j = n
  · subst hj
    simp [toFds, hn]
  · simp [toFds, Ne.symm hj, hj]

theorem getHandle_eq : t.getHandle fd = (t.toFds fd).map (·.handle) := rfl

/-- One call on a table answers as the map does, leaves the descriptors the map leaves, and keeps
the `FILE_NUM` slots. -/
structure StepOk (t : FileTable H) (c : Call H) : Prop where
  reply : (exec t c).1 = (Spec.exec t.toFds c).1
  fds : (exec t c).2.toFds = (Spec.exec t.toFds c).2
  length : (exec t c).2.files.length = fileNum

theorem stepOk_of_eq {c : Call H} {r : Reply H} {t' : FileTable H}
    {fds' : ℕ → Option (FileDescriptor H)} (hc : exec t c = (r, t'))
    (hs : Spec.exec t.toFds c = (r, fds')) (hfds : t'.toFds = fds')
    (hlen : t'.files.length = fileNum) : StepOk t c :=
  ⟨by rw [hc, hs], by rw [hc, hs]; exact hfds, by rw [hc]; exact hlen⟩

theorem stepOk_openFile (ht : t.files.length = fileNum) (make : ℕ → H) (flags : OpenFlags)
    (opens : Except FsError Unit) : StepOk t (.openFile make flags opens) := by
  have hfree := findFree_eq_lowestFree ht 0
  cases hl : Spec.lowestFree t.toFds 0 with
  | some n =>
    have hn : n < t.files.length := ht ▸ (Spec.lowestFree_eq_some_iff.1 hl).1.2.1
    cases opens with
    | ok u =>
      exact stepOk_of_eq (r := .opened (.ok n)) (by simp [exec, openFile, hfree, hl, Except.map])
        (by simp [Spec.exec, hl]) (toFds_set hn (some ⟨make n, .ofOpenFlags flags⟩)) (by simp [ht])
    | error e =>
      exact stepOk_of_eq (r := .opened (.error e)) (by simp [exec, openFile, hfree, hl, Except.map])
        (by simp [Spec.exec, hl]) rfl ht
  | none =>
    -- no free number: all `FILE_NUM` slots are taken, and the table is full
    exact stepOk_of_eq (r := .opened (.error .busy)) (by simp [exec, openFile, hfree, hl, ht])
      (by simp [Spec.exec, hl]) rfl ht

/-- Closing a number that names nothing leaves the map as it was. -/
theorem stepOk_closeFile_of_none (ht : t.files.length = fileNum) {fd : ℕ}
    (hfd : t.files[fd]?.join = none) : StepOk t (.closeFile fd) := by
  have hnone : t.toFds fd = none := hfd
  have hc : exec t (.closeFile fd) = (.closed false, t) := by
    cases h : t.files[fd]? with
    | none => simp [exec, closeFile, h]
    | some f =>
      cases f with
      | none => simp [exec, closeFile, h]
      | some d => simp [h] at hfd
  have hup : Function.update t.toFds fd none = t.toFds := by
    rw [← hnone, Function.update_eq_self]
  exact stepOk_of_eq hc (by simp [Spec.exec, hnone]) hup.symm ht

theorem stepOk_closeFile (ht : t.files.length = fileNum) (fd : ℕ) : StepOk t (.closeFile fd) := by
  cases hfd : t.files[fd]? with
  | none => exact stepOk_closeFile_of_none ht (by simp [hfd])
  | some f =>
    have hlt := (List.getElem?_eq_some_iff.1 hfd).1
    cases f with
    | none => exact stepOk_closeFile_of_none ht (by simp [hfd])
    | some d =>
      have hsome : t.toFds fd = some d := by simp [toFds, hfd]
      exact stepOk_of_eq (r := .closed true) (by simp [exec, closeFile, hfd])
        (by simp [Spec.exec, hsome]) (toFds_set hlt none) (by simp [ht])

theorem stepOk_duplicate (ht : t.files.length = fileNum) (fd : ℕ) (flags : FDFlags) (min : ℕ) :
    StepOk t (.duplicate fd flags min) := by
  have hfree := findFree_eq_lowestFree ht min
  cases hfd : t.toFds fd with
  | none =>
    exact stepOk_of_eq (r := .duplicated (.error EBADFD))
      (by simp [exec, duplicate, getHandle_eq, hfd]) (by simp [Spec.exec, hfd]) rfl ht
  | some d =>
    cases hl : Spec.lowestFree t.toFds min with
    | some n =>
      have hn : n < t.files.length := ht ▸ (Spec.lowestFree_eq_some_iff.1 hl).1.2.1
      exact stepOk_of_eq (r := .duplicated (.ok n))
        (by simp [exec, duplicate, getHandle_eq, hfd, hfree, hl]) (by simp [Spec.exec, hfd, hl])
        (toFds_set hn (some ⟨d.handle, flags⟩)) (by simp [ht])
    | none =>
      exact stepOk_of_eq (r := .duplicated (.error EINVAL))
        (by simp [exec, duplicate, getHandle_eq, hfd, hfree, hl, ht])
        (by simp [Spec.exec, hfd, hl]) rfl ht

theorem stepOk_duplicateAt (ht : t.files.length = fileNum) (fd newFd : ℕ) (flags : FDFlags) :
    StepOk t (.duplicateAt fd newFd flags) := by
  by_cases hge : fileNum ≤ newFd
  · exact stepOk_of_eq (r := .duplicated (.error EINVAL)) (by simp [exec, duplicateAt, hge])
      (by simp [Spec.exec, hge]) rfl ht
  · cases hfd : t.toFds fd with
    | none =>
      exact stepOk_of_eq (r := .duplicated (.error EBADFD))
        (by simp [exec, duplicateAt, hge, getHandle_eq, hfd]) (by simp [Spec.exec, hge, hfd]) rfl ht
    | some d =>
      -- `newFd` is below `FILE_NUM`, the length of `files`: no panic
      have hn : newFd < t.files.length := by omega
      exact stepOk_of_eq (r := .duplicated (.ok newFd))
        (by simp [exec, duplicateAt, hge, getHandle_eq, hfd, hn]) (by simp [Spec.exec, hge, hfd])
        (toFds_set hn (some ⟨d.handle, flags⟩)) (by simp [ht])

theorem toFds_closeOnExec :
    t.closeOnExec.toFds = fun n => (t.toFds n).filter fun d => !d.flags.cloexec := by
  funext n
  simp only [closeOnExec, toFds, List.getElem?_map]
  cases t.files[n]? with
  | none => rfl
  | some f =>
    cases f with
    | none => rfl
    | some d => cases hc : d.flags.cloexec <;> simp [Option.filter, hc]

/-- Each call keeps the `FILE_NUM` slots, answers as the descriptor map does, and changes the
descriptors as the map does. -/
theorem stepOk (ht : t.files.length = fileNum) (c : Call H) : StepOk t c := by
  cases c with
  | openFile make flags opens => exact stepOk_openFile ht make flags opens
  | closeFile fd => exact stepOk_closeFile ht fd
  | duplicate fd flags min => exact stepOk_duplicate ht fd flags min
  | duplicateAt fd newFd flags => exact stepOk_duplicateAt ht fd newFd flags
  | closeOnExec => exact stepOk_of_eq (r := .done) rfl rfl toFds_closeOnExec (by simp [closeOnExec, ht])
  | getHandle fd => exact ⟨rfl, rfl, ht⟩

theorem exec_refines :
    Refines (exec (H := H)) Spec.exec (fun t => t.files.length = fileNum) toFds :=
  ⟨fun _ c ht => (stepOk ht c).length, fun _ c ht => (stepOk ht c).reply,
    fun _ c ht => (stepOk ht c).fds⟩

/-- Over every sequence of calls from a table of `FILE_NUM` slots, the table answers as the
descriptor map does, holds the same descriptors, keeps its `FILE_NUM` slots, and never panics. -/
theorem filetable_refines_posix (t : FileTable H) (ht : t.files.length = fileNum)
    (calls : List (Call H)) :
    (trace exec t calls).1 = (trace Spec.exec t.toFds calls).1 ∧
      (trace exec t calls).2.toFds = (trace Spec.exec t.toFds calls).2 ∧
      (trace exec t calls).2.files.length = fileNum ∧
      Reply.panicked ∉ (trace exec t calls).1 := by
  obtain ⟨hans, hfds, hlen⟩ := exec_refines.trace_eq calls t ht
  exact ⟨hans, hfds, hlen, hans ▸ Spec.trace_ne_panicked t.toFds calls⟩

/-- A task opens a file, duplicates it at or past 10 with `FD_CLOEXEC`, and execs: the file takes
descriptor 0, its duplicate 10, and the exec closes 10. -/
theorem filetable_refines_posix_dup :
    let calls : List (Call ℕ) :=
      [.openFile id OpenFlags.RDONLY (.ok ()), .duplicate 0 ⟨true⟩ 10, .closeOnExec, .getHandle 10]
    (trace exec new calls).1 = (trace Spec.exec new.toFds calls).1 ∧
      (trace exec new calls).2.toFds = (trace Spec.exec new.toFds calls).2 ∧
      (trace exec new calls).2.files.length = fileNum ∧
      Reply.panicked ∉ (trace exec new calls).1 :=
  filetable_refines_posix new (by simp [new]) _

/-! ## The flag words

A `FileDescriptor` keeps its flags in an `AtomicU64` of its own, which `set_fd_flags` stores to
through a shared reference, and its `Clone` makes a new word holding the flags it loads. In memory
a descriptor names the place of its word (`FdRef`), and `Mem.words` holds the words by place, a
new word going at the end; the clone `get_fd` returns is not reclaimed, as nothing reads it again.
The table of the layer above is what the memory holds (`Mem.view`). -/

/-- A `FileDescriptor` in memory: its handle and the place of its flags word. -/
structure FdRef (H : Type*) where
  handle : H
  flags : ℕ

/-- A `FileTable` in memory: its slots and the flag words by place. -/
structure Mem (H : Type*) where
  files : List (Option (FdRef H))
  words : List ℕ

namespace Mem

/-- `AtomicU64::load` of the word at `l`. -/
def load (m : Mem H) (l : ℕ) : ℕ := m.words.getD l 0

/-- `FileDescriptor::fd_flags`. -/
def fdFlags (m : Mem H) (d : FdRef H) : FDFlags := FDFlags.fromBitsTruncate (m.load d.flags)

/-- `FileDescriptor::set_fd_flags`: a store to the descriptor's own word. -/
def setFdFlags (m : Mem H) (d : FdRef H) (flags : FDFlags) : Mem H :=
  { m with words := m.words.set d.flags flags.bits }

/-- `Clone for FileDescriptor`: the handle, and a new word holding the flags loaded. -/
def clone (m : Mem H) (d : FdRef H) : FdRef H × Mem H :=
  (⟨d.handle, m.words.length⟩, { m with words := m.words ++ [m.load d.flags] })

/-- `FileTable::get_fd`: a clone of the descriptor in slot `fd`. -/
def getFd (m : Mem H) (fd : ℕ) : Option (FdRef H × Mem H) := (m.files[fd]?).join.map m.clone

/-- `sys_fcntl`'s `F_GETFD`: the flags of the clone `get_fd` returns. -/
def fcntlGetFd (m : Mem H) (fd : ℕ) : Except SyscallError ℕ :=
  match m.getFd fd with
  | none => .error EBADFD
  | some (d, m') => .ok (m'.fdFlags d).bits

/-- `sys_fcntl`'s `F_SETFD`: `set_fd_flags` on the clone `get_fd` returns. -/
def fcntlSetFd (m : Mem H) (fd flags : ℕ) : Except SyscallError (Mem H × ℕ) :=
  match m.getFd fd with
  | none => .error EBADFD
  | some (d, m') => .ok (m'.setFdFlags d (FDFlags.fromBitsTruncate flags), 0)

/-- `FileTable::close_on_exec`, reading each descriptor's word. -/
def closeOnExec (m : Mem H) : Mem H :=
  { m with files := m.files.map fun f => if f.any (m.fdFlags · |>.cloexec) then none else f }

/-- The table the memory holds: each descriptor with the flags its word holds. -/
def view (m : Mem H) : FileTable H :=
  ⟨m.files.map (Option.map fun d => ⟨d.handle, m.fdFlags d⟩)⟩

/-- Every descriptor's word is in memory. -/
def Placed (m : Mem H) : Prop := ∀ f ∈ m.files, f.all fun d => d.flags < m.words.length

instance (m : Mem H) : Decidable m.Placed := inferInstanceAs (Decidable (∀ f ∈ m.files, _))

variable {m : Mem H}

theorem flags_lt_of_mem (hm : m.Placed) {f : Option (FdRef H)} (hf : f ∈ m.files) {d : FdRef H}
    (hd : f = some d) : d.flags < m.words.length := by
  have := hm f hf
  rw [hd] at this
  simpa using this

/-- Words written or added off the places of the table's descriptors leave the table it holds. -/
theorem view_congr {m' : Mem H} (hfiles : m'.files = m.files) (hm : m.Placed)
    (hload : ∀ l < m.words.length, m'.load l = m.load l) : m'.view = m.view := by
  have hflags : ∀ f ∈ m.files, f.map (fun d => (⟨d.handle, m'.fdFlags d⟩ : FileDescriptor H)) =
      f.map fun d => ⟨d.handle, m.fdFlags d⟩ := by
    intro f hf
    cases hd : f with
    | none => rfl
    | some d =>
      simp only [Option.map_some, fdFlags, hload d.flags (flags_lt_of_mem hm hf hd)]
  simp only [view, hfiles]
  exact congrArg FileTable.mk (List.map_congr_left hflags)

theorem load_clone_of_lt (d : FdRef H) {l : ℕ} (hl : l < m.words.length) :
    (m.clone d).2.load l = m.load l := by
  simp only [clone, load, List.getD_eq_getElem?_getD, List.getElem?_append_left hl]

theorem placed_clone (hm : m.Placed) (d : FdRef H) : (m.clone d).2.Placed := by
  intro f hf
  have := hm f hf
  cases f with
  | none => rfl
  | some d' =>
    simp only [Option.all_some, decide_eq_true_eq, clone, List.length_append,
      List.length_singleton] at this ⊢
    omega

/-- `F_SETFD` stores to the word of the clone, which is no descriptor's of the table: the table
the memory holds is as it was. -/
theorem view_fcntlSetFd (hm : m.Placed) {fd flags : ℕ} {m' : Mem H} {r : ℕ}
    (h : m.fcntlSetFd fd flags = .ok (m', r)) : m'.view = m.view ∧ m'.Placed := by
  unfold fcntlSetFd getFd at h
  cases hd : (m.files[fd]?).join with
  | none => simp [hd] at h
  | some d =>
    simp only [hd, Option.map_some, Except.ok.injEq, Prod.mk.injEq] at h
    obtain ⟨rfl, -⟩ := h
    -- the clone's word is the one past every descriptor's
    have hfresh : ∀ l < m.words.length, l ≠ (m.clone d).1.flags := by
      intro l hl
      simp only [clone]
      omega
    refine ⟨view_congr rfl hm fun l hl => ?_, fun f hf => ?_⟩
    · simp only [setFdFlags, load, List.getD_eq_getElem?_getD,
        List.getElem?_set_ne (hfresh l hl).symm]
      exact load_clone_of_lt d hl
    · simpa [setFdFlags] using placed_clone hm d f hf

/-- `F_GETFD` reads the flags of the descriptor in the table the memory holds. -/
theorem fcntlGetFd_eq (hm : m.Placed) (fd : ℕ) :
    m.fcntlGetFd fd = match m.view.getFd fd with
      | none => .error EBADFD
      | some d => .ok d.flags.bits := by
  unfold fcntlGetFd getFd FileTable.getFd view
  simp only [List.getElem?_map]
  cases hf : m.files[fd]? with
  | none => rfl
  | some f =>
    cases f with
    | none => rfl
    | some d =>
      have hlt := flags_lt_of_mem hm (List.mem_of_getElem? hf) rfl
      simp only [Option.join, Option.map_some, Option.bind_some, id, fdFlags, clone, load,
        List.getD_eq_getElem?_getD, List.getElem?_concat_length, Option.getD_some]

/-- `close_on_exec` writes no word. -/
@[simp] theorem fdFlags_closeOnExec (d : FdRef H) : m.closeOnExec.fdFlags d = m.fdFlags d := rfl

theorem view_closeOnExec : m.closeOnExec.view = m.view.closeOnExec := by
  simp only [view, FileTable.closeOnExec, fdFlags_closeOnExec]
  simp only [closeOnExec, List.map_map]
  congr 1
  refine List.map_congr_left fun f _ => ?_
  cases f with
  | none => rfl
  | some d => by_cases hc : (m.fdFlags d).cloexec <;> simp [hc]

end Mem

/-- `fcntl(fd, F_SETFD, FD_CLOEXEC)` on a descriptor without the flag succeeds, but the store goes
to the clone `get_fd` made: `F_GETFD` still reads 0, and an `exec` keeps the descriptor. -/
theorem setfd_lost_on_exec {m : Mem H} (hm : m.Placed) {fd : ℕ} {d : FileDescriptor H}
    (hd : m.view.getFd fd = some d) (hcl : d.flags.cloexec = false) :
    ∃ m', m.fcntlSetFd fd FDFlags.FD_CLOEXEC.bits = .ok (m', 0) ∧ m'.fcntlGetFd fd = .ok 0 ∧
      m'.closeOnExec.view.getFd fd = some d := by
  -- `get_fd` finds the descriptor, so the call succeeds
  obtain ⟨r, hr⟩ : ∃ r, (m.files[fd]?).join = some r := by
    simp only [Mem.view, FileTable.getFd, List.getElem?_map] at hd
    cases hf : m.files[fd]? with
    | none => simp [hf] at hd
    | some f =>
      cases f with
      | none => simp [hf] at hd
      | some r => exact ⟨r, rfl⟩
  have hset : m.fcntlSetFd fd FDFlags.FD_CLOEXEC.bits =
      .ok (((m.clone r).2.setFdFlags (m.clone r).1 (FDFlags.fromBitsTruncate
        FDFlags.FD_CLOEXEC.bits)), 0) := by
    simp only [Mem.fcntlSetFd, Mem.getFd, hr, Option.map_some]
  obtain ⟨hview, hplaced⟩ := Mem.view_fcntlSetFd hm hset
  refine ⟨_, hset, ?_, ?_⟩
  · rw [Mem.fcntlGetFd_eq hplaced, hview, hd]
    simp [FDFlags.bits, hcl]
  · rw [Mem.view_closeOnExec, hview]
    have hfds : m.view.toFds fd = some d := hd
    change m.view.closeOnExec.toFds fd = some d
    simp [toFds_closeOnExec, hfds, Option.filter, hcl]

/-- A table whose descriptor 0 is open without `FD_CLOEXEC`, its flags in word 0. -/
theorem setfd_lost_on_exec_stdin :
    (⟨[some ⟨0, 0⟩], [0]⟩ : Mem ℕ).Placed ∧
      (⟨[some ⟨0, 0⟩], [0]⟩ : Mem ℕ).view.getFd 0 = some ⟨0, ⟨false⟩⟩ ∧
      ∃ m', (⟨[some ⟨0, 0⟩], [0]⟩ : Mem ℕ).fcntlSetFd 0 FDFlags.FD_CLOEXEC.bits = .ok (m', 0) ∧
        m'.fcntlGetFd 0 = .ok 0 ∧ m'.closeOnExec.view.getFd 0 = some ⟨0, ⟨false⟩⟩ :=
  ⟨by decide, rfl, setfd_lost_on_exec (by decide) rfl rfl⟩

end FileTable

end Cykusz.Kernel
