import RSafeFS.Local.Syscalls

/-!
# The table of local operations

The operations of `local_operations.cpp`. Most of them are one call whose error is returned;
what the others do with the outcomes of theirs is written out. `errno` is the value that the
variable has when an operation is entered.
-/

namespace RSafeFS.Local

open Rpc

variable (env : Env) (rootPath : CString)

def localGetattr (path : CString) (stbuf : Rpc.Stat) : M (Int32 × Rpc.Stat) :=
  attemptInto env (.lstat (newPath rootPath path)) stbuf id

/-- `local_fgetattr`. The block size is cleared also on an error. -/
def localFgetattr (stbuf : Rpc.Stat) (fi : Rpc.FuseFileInfo) : M (Int32 × Rpc.Stat) :=
  attemptInto env (.fstat (fdOf fi)) { stbuf with blksize := 0 } fun st => { st with blksize := 0 }

/-- `local_flush`: `close(dup(fi->fh))`. Without a duplicate the descriptor to close is -1. -/
def localFlush (fi : Rpc.FuseFileInfo) : M Int32 := do
  match ← Trace.call env (.dup (fdOf fi)) with
  | .ok fd => attempt env (.close fd.val)
  | .error _ => attempt env (.close (-1))

def localAccess (path : CString) (mask : Int32) : M Int32 :=
  attempt env (.access (newPath rootPath path) mask)

def localReadlink (path : CString) (size : UInt64) : M (Int32 × Bytes) :=
  readlinkInto env (newPath rootPath path) size

/-- `local_mknod`. A regular file is opened and closed again. -/
def localMknod (path : CString) (mode : UInt32) (rdev : UInt64) : M Int32 := do
  let newPath := newPath rootPath path
  if isReg mode then
    match ← Trace.call env (.open newPath (creat ||| excl ||| wronly) (some mode)) with
    | .ok fd => attempt env (.close fd.val)
    | .error e => return e.result
  else if isFifo mode then attempt env (.mkfifo newPath mode)
  else attempt env (.mknod newPath mode rdev)

def localMkdir (path : CString) (mode : UInt32) : M Int32 :=
  attempt env (.mkdir (newPath rootPath path) mode)

def localUnlink (path : CString) : M Int32 := attempt env (.unlink (newPath rootPath path))

def localRmdir (path : CString) : M Int32 := attempt env (.rmdir (newPath rootPath path))

def localSymlink («from» «to» : CString) : M Int32 :=
  attempt env (.symlink (newPath rootPath «from») (newPath rootPath «to»))

def localRename («from» «to» : CString) : M Int32 :=
  attempt env (.rename (newPath rootPath «from») (newPath rootPath «to»))

def localLink («from» «to» : CString) : M Int32 :=
  attempt env (.link (newPath rootPath «from») (newPath rootPath «to»))

def localChmod (path : CString) (mode : UInt32) : M Int32 :=
  attempt env (.chmod (newPath rootPath path) mode)

def localChown (path : CString) (uid gid : UInt32) : M Int32 :=
  attempt env (.lchown (newPath rootPath path) uid gid)

/-- `local_ftruncate`, which works without a handle too. -/
def localFtruncate (path : CString) (size : Int64) (fi : Option Rpc.FuseFileInfo) : M Int32 :=
  match fi with
  | some fi => attempt env (.ftruncate (fdOf fi) size)
  | none => attempt env (.truncate (newPath rootPath path) size)

def localTruncate (path : CString) (size : Int64) : M Int32 :=
  attempt env (.truncate (newPath rootPath path) size)

def localUtime (path : CString) (actime modtime : Int64) : M Int32 :=
  attempt env (.utime (newPath rootPath path) actime modtime)

def localCreate (path : CString) (mode : UInt32) (fi : Rpc.FuseFileInfo) :
    M (Int32 × Rpc.FuseFileInfo) :=
  attemptInto env (.open (newPath rootPath path) fi.flags (some mode)) fi (setFh fi)

def localOpen (path : CString) (fi : Rpc.FuseFileInfo) : M (Int32 × Rpc.FuseFileInfo) :=
  attemptInto env (.open (newPath rootPath path) fi.flags none) fi (setFh fi)

/-- What `local_read` and `local_write` do without a handle: the file is opened for the program,
and nothing is made of the outcome of closing it. -/
def withOpened {α : Type} (path : CString) (flags : Int32) (onError : Errno → α) (p : Fd → M α) :
    M α := do
  match ← Trace.call env (.open path flags none) with
  | .error e => return onError e
  | .ok fd =>
    let a ← p fd
    let _ ← Trace.call env (.close fd.val)
    return a

/-- `local_read`. A handle of -1 is taken for an open that failed. -/
def localRead (errno : Int32) (path : CString) (size : UInt64) (offset : Int64)
    (fi : Option Rpc.FuseFileInfo) : M (Int32 × Bytes) :=
  match fi with
  | none =>
    withOpened env (newPath rootPath path) rdonly (fun e => (e.result, [])) fun fd =>
      preadResult env fd.val size offset
  | some fi =>
    if fdOf fi = -1 then return (-errno, []) else preadResult env (fdOf fi) size offset

/-- The write of `local_write` and the `fsync` that follows it in any case. -/
def pwriteFsync (fd : Int32) (size : UInt64) (buf : Buffer size) (offset : Int64) : M Int32 := do
  let res ← Trace.call env (.pwrite fd size buf offset)
  match ← Trace.call env (.fsync fd) with
  | .error e => return e.result
  | .ok _ =>
    match res with
    | .ok r => return countResult r.count
    | .error e => return e.result

/-- `local_write`, like `local_read`. -/
def localWrite (errno : Int32) (path : CString) (size : UInt64) (buf : Buffer size)
    (offset : Int64) (fi : Option Rpc.FuseFileInfo) : M Int32 :=
  match fi with
  | none =>
    withOpened env (newPath rootPath path) wronly Errno.result fun fd =>
      pwriteFsync env fd.val size buf offset
  | some fi => if fdOf fi = -1 then return -errno else pwriteFsync env (fdOf fi) size buf offset

def localStatfs (path : CString) (stbuf : Rpc.Statvfs) : M (Int32 × Rpc.Statvfs) :=
  attemptInto env (.statvfs (newPath rootPath path)) stbuf id

/-- `local_release`. -/
def localRelease (fi : Rpc.FuseFileInfo) : M Int32 := ignore env (.close (fdOf fi))

/-- `local_fsync`. -/
def localFsync (fi : Rpc.FuseFileInfo) : M Int32 := ignore env (.fsync (fdOf fi))

def localOpendir (path : CString) : M (Int32 × Option (UInt64 × UInt64)) :=
  opendirInto env (newPath rootPath path)

/-- `local_releasedir`, for the `DIR` of the handle. -/
def localReleasedir (dp : UInt64) : M Int32 := ignore env (.closedir dp)

end RSafeFS.Local
