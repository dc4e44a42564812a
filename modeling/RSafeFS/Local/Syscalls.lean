import RSafeFS.Local.Directory
import RSafeFS.Lib.Trace

/-!
# System calls of the storage layer

The calls that the operations on local files make, with what each returns. A failed call
returns an error number, which the code takes from `errno`; what is stored through a pointer
is returned. A count of bytes transferred is at most `0x7ffff000`, as Linux has it.
-/

namespace RSafeFS.Local

open Rpc

/-- A value of `errno` after a failed call. -/
structure Errno where
  val : Int32
  pos : 0 < val
  deriving DecidableEq

/-- A descriptor that a call has returned. -/
structure Fd where
  val : Int32
  nonneg : 0 ≤ val
  deriving DecidableEq

/-- A call of the C library. A descriptor is passed as an `int`, a `DIR` and an allocated
handle by its address. -/
inductive Syscall where
  | lstat (path : CString)
  | fstat (fd : Int32)
  | statvfs (path : CString)
  | access (path : CString) (mask : Int32)
  | readlink (path : CString) (size : UInt64)
  | malloc
  | opendir (path : CString)
  | readdir (dp : UInt64)
  | telldir (dp : UInt64)
  | closedir (dp : UInt64)
  | mkfifo (path : CString) (mode : UInt32)
  | mknod (path : CString) (mode : UInt32) (rdev : UInt64)
  | mkdir (path : CString) (mode : UInt32)
  | unlink (path : CString)
  | rmdir (path : CString)
  | symlink («from» «to» : CString)
  | rename («from» «to» : CString)
  | link («from» «to» : CString)
  | chmod (path : CString) (mode : UInt32)
  | lchown (path : CString) (uid gid : UInt32)
  | truncate (path : CString) (size : Int64)
  | ftruncate (fd : Int32) (size : Int64)
  | utime (path : CString) (actime modtime : Int64)
  | utimensat (path : CString) (ts0 ts1 : Rpc.Timespec)
  | «open» (path : CString) (flags : Int32) (mode : Option UInt32)
  | dup (fd : Int32)
  | close (fd : Int32)
  | pread (fd : Int32) (size : UInt64) (offset : Int64)
  | pwrite (fd : Int32) (size : UInt64) (buf : Buffer size) (offset : Int64)
  | fsync (fd : Int32)
  | fdatasync (fd : Int32)

/-- The bytes that a call has stored, fewer than the buffer holds. -/
structure Stored (size : UInt64) where
  bytes : Bytes
  length_le : bytes.length ≤ size.toNat
  length_le_max : bytes.length ≤ 0x7ffff000

/-- The number of bytes that a call has written. -/
structure Written (size : UInt64) where
  count : ℕ
  count_le : count ≤ size.toNat
  count_le_max : count ≤ 0x7ffff000

/-- What a call returns on success. -/
abbrev Syscall.Result : Syscall → Type
  | .lstat _ | .fstat _ => Rpc.Stat
  | .statvfs _ => Rpc.Statvfs
  | .readlink _ size | .pread _ size _ => Stored size
  | .malloc | .opendir _ => UInt64
  | .readdir _ => Option Dirent
  | .telldir _ => Int64
  | .open .. | .dup _ => Fd
  | .pwrite _ size _ _ => Written size
  | _ => Unit

/-- The outcome of a call. -/
abbrev Syscall.Outcome (c : Syscall) : Type := Except Errno c.Result

/-- The environment of the operations: the C library and the system below it. -/
abbrev Env := Trace.Env Syscall.Outcome

/-- A call with its outcome. -/
abbrev Event := Trace.Event Syscall.Outcome

/-- Programs over the calls. -/
abbrev M := Trace.Prog Syscall.Outcome

/-- The error with which the call failed. -/
def errorOf (event : Event) : Option Errno :=
  match event.outcome with
  | .ok _ => none
  | .error e => some e

/-- `return -errno`. -/
def Errno.result (e : Errno) : Int32 := -e.val

/-- An error is returned as a negative value. -/
theorem Errno.result_neg (e : Errno) : e.result < 0 := by
  have hpos := e.pos
  have hlt := e.val.toInt_lt
  rw [Int32.lt_iff_toInt_lt, Int32.toInt_zero] at hpos ⊢
  rw [Errno.result, Int32.toInt_neg, Int.bmod_eq_of_le (by omega) (by omega)]
  omega

/-- An error is not a success. -/
theorem Errno.not_nonneg (e : Errno) : ¬ 0 ≤ e.result := Int32.not_le.mpr e.result_neg

/-- A count of bytes as the `int` that an operation returns. -/
def countResult (count : ℕ) : Int32 := .ofNat count

/-- A count that a call can return is not negative as an `int`. -/
theorem countResult_nonneg {count : ℕ} (h : count ≤ 0x7ffff000) : 0 ≤ countResult count := by
  rw [Int32.le_iff_toInt_le, Int32.toInt_zero, countResult, Int32.toInt_ofNat_of_lt (by omega)]
  exact Int.natCast_nonneg count

/-- The descriptor that an operation passes on: `fh` converted to an `int`. -/
def fdOf (fi : Rpc.FuseFileInfo) : Int32 := fi.fh.toUInt32.toInt32

/-- `fi->fh = fd`. -/
def setFh (fi : Rpc.FuseFileInfo) (fd : Fd) : Rpc.FuseFileInfo :=
  { fi with fh := fd.val.toInt64.toUInt64 }

/-- `root_path + path`. -/
def newPath (rootPath path : CString) : CString where
  bytes := rootPath.bytes ++ path.bytes
  nul_notMem h := (List.mem_append.mp h).elim rootPath.nul_notMem path.nul_notMem

section Wrappers

variable (env : Env)

/-- Make a call, and return 0 with what it stored or the error. Most operations do no more. -/
def attemptInto {α : Type} (c : Syscall) (old : α) (store : c.Result → α) : M (Int32 × α) := do
  match ← Trace.call env c with
  | .ok r => return (0, store r)
  | .error e => return (e.result, old)

/-- Make a call that stores nothing, and return 0 or the error. -/
def attempt (c : Syscall) : M Int32 := do
  match ← Trace.call env c with
  | .ok _ => return 0
  | .error e => return e.result

/-- Make a call and drop its outcome. -/
def ignore (c : Syscall) : M Int32 := do
  let _ ← Trace.call env c
  return 0

/-- `pread`, with its count or the error as result. -/
def preadResult (fd : Int32) (size : UInt64) (offset : Int64) : M (Int32 × Bytes) := do
  match ← Trace.call env (.pread fd size offset) with
  | .ok r => return (countResult r.bytes.length, r.bytes)
  | .error e => return (e.result, [])

/-- `readlink` into a buffer of `size` bytes, and the NUL behind what it stored. -/
def readlinkInto (path : CString) (size : UInt64) : M (Int32 × Bytes) :=
  attemptInto env (.readlink path (size - 1)) [] fun r => r.bytes ++ [0]

/-- `opendir` with an allocated handle: the addresses of the handle and of its `DIR`. -/
def opendirInto (path : CString) : M (Int32 × Option (UInt64 × UInt64)) := do
  match ← Trace.call env .malloc with
  | .error _ => return (-12, none)
  | .ok d =>
    match ← Trace.call env (.opendir path) with
    | .error e => return (e.result, none)
    | .ok dp => return (0, some (d, dp))

/-- The stream of a `DIR`, as the calls made on it and before. Neither `readdir` nor `telldir`
is asked for its error. `seekdir` returns nothing. -/
def envStream (dp : UInt64) : DirStream (List Event) where
  readdir history :=
    match Trace.call env (.readdir dp) history with
    | (.ok entry, history) => (entry, history)
    | (.error _, history) => (none, history)
  telldir history :=
    match Trace.call env (.telldir dp) history with
    | (.ok offset, history) => (offset, history)
    | (.error _, history) => (-1, history)
  seekdir _ history := history

/-- `readdir` through a handle, for at most `fuel` turns of its loop. -/
def readdirInto {β : Type} (fuel : ℕ) (dp : UInt64) (d : DirHandle Unit) (buf : β)
    (filler : FuseFillDir β) (offset : Int64) : StateT (List Event) Option (Int32 × β) :=
  fun history => do
    let d : DirHandle (List Event) := ⟨history, d.entry, d.offset⟩
    let (d, buf) ← d.readdir (envStream env dp) fuel buf filler offset
    return ((0, buf), d.dirPtr)

end Wrappers

/-- `S_ISREG`. -/
def isReg (mode : UInt32) : Bool := mode &&& 0o170000 == 0o100000

/-- `S_ISFIFO`. -/
def isFifo (mode : UInt32) : Bool := mode &&& 0o170000 == 0o010000

/-- `O_RDONLY`. -/
def rdonly : Int32 := 0

/-- `O_WRONLY`. -/
def wronly : Int32 := 1

/-- `O_CREAT`. -/
def creat : Int32 := 0o100

/-- `O_EXCL`. -/
def excl : Int32 := 0o200

/-- `O_DIRECT`. -/
def direct : Int32 := 0o40000

end RSafeFS.Local
