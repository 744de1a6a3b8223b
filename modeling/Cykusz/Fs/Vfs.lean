import Cykusz.Syscall.Defs

/-!
# File system errors

`FsError`, the error of every file system operation, and the system call error each one becomes
when a system call returns it (`From<FsError> for SyscallError`).
-/

namespace Cykusz.Fs

open Cykusz.Syscall SyscallError

/-- `FsError`. -/
inductive FsError
  | notSupported
  | notFile
  | isDir
  | notDir
  | entryNotFound
  | entryExists
  | invalidParam
  | busy
  | noPermission
  | noTty
  | pipe
  | isPipe
  | interrupted
  | noSuchDevice
  | wouldBlock
deriving DecidableEq, Repr

/-- `From<FsError> for SyscallError`. -/
def FsError.toSyscallError : FsError → SyscallError
  | .notSupported => EACCES
  | .notFile => ENOENT
  | .isDir => EISDIR
  | .notDir => ENOTDIR
  | .entryNotFound => ENOENT
  | .entryExists => EEXIST
  | .invalidParam => EINVAL
  | .busy => EBUSY
  | .noPermission => EPERM
  | .noTty => ENOTTY
  | .pipe => EPIPE
  | .isPipe => ESPIPE
  | .interrupted => EINTR
  | .noSuchDevice => ENXIO
  | .wouldBlock => EAGAIN

end Cykusz.Fs
