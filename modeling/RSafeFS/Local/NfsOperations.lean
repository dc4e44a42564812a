import RSafeFS.Local.Syscalls

/-!
# The table of NFS-like operations

The operations of `nfs_operations.cpp`. Those that change a directory sync what they have
changed before they return: the first sync that fails is the result.
-/

namespace RSafeFS.Local

open Rpc

/-- The byte that separates the parts of a path. -/
def slash : UInt8 := 47

/-- `fs::path::parent_path`: without the last part and the separators before it, or the root
directory where nothing else is left. -/
def parentBytes (path : Bytes) : Bytes :=
  let parent := ((path.reverse.dropWhile (· != slash)).dropWhile (· == slash)).reverse
  if parent = [] then path.takeWhile (· == slash) else parent

/-- What is left of a path has no byte that the path has not. -/
theorem parentBytes_subset (path : Bytes) : parentBytes path ⊆ path := by
  unfold parentBytes
  dsimp only
  split
  · exact (List.takeWhile_sublist _).subset
  · intro b hb
    have hb' := (List.dropWhile_sublist _).subset (List.mem_reverse.mp hb)
    exact List.mem_reverse.mp ((List.dropWhile_sublist _).subset hb')

/-- `fs::path(path).parent_path().c_str()`. -/
def parentPath (path : CString) : CString where
  bytes := parentBytes path.bytes
  nul_notMem h := path.nul_notMem (parentBytes_subset path.bytes h)

variable (env : Env) (rootPath : CString)

/-- `sync_path`. A descriptor whose `fsync` has failed is closed before the error is returned. -/
def syncPath (path : CString) : M Int32 := do
  match ← Trace.call env (.open path rdonly none) with
  | .error e => return e.result
  | .ok fd =>
    match ← Trace.call env (.fsync fd.val) with
    | .error e =>
      let _ ← Trace.call env (.close fd.val)
      return e.result
    | .ok _ => attempt env (.close fd.val)

/-- Sync one path after the other, up to the first that fails. -/
def syncPaths : List CString → M Int32
  | [] => return 0
  | path :: paths => do
    let res ← syncPath env path
    if res < 0 then return res else syncPaths paths

/-- Make a call that changes directories, and sync what it has changed. -/
def attemptSync (c : Syscall) (paths : List CString) : M Int32 := do
  match ← Trace.call env c with
  | .error e => return e.result
  | .ok _ => syncPaths env paths

def nfsGetattr (path : CString) (stbuf : Rpc.Stat) : M (Int32 × Rpc.Stat) :=
  attemptInto env (.lstat (newPath rootPath path)) stbuf id

def nfsFgetattr (stbuf : Rpc.Stat) (fi : Rpc.FuseFileInfo) : M (Int32 × Rpc.Stat) :=
  attemptInto env (.fstat (fdOf fi)) stbuf id

def nfsAccess (path : CString) (mask : Int32) : M Int32 :=
  attempt env (.access (newPath rootPath path) mask)

def nfsReadlink (path : CString) (size : UInt64) : M (Int32 × Bytes) :=
  readlinkInto env (newPath rootPath path) size

def nfsOpendir (path : CString) : M (Int32 × Option (UInt64 × UInt64)) :=
  opendirInto env (newPath rootPath path)

/-- `nfs_releasedir`, for the `DIR` of the handle. -/
def nfsReleasedir (dp : UInt64) : M Int32 := attempt env (.closedir dp)

def nfsMknod (path : CString) (mode : UInt32) (rdev : UInt64) : M Int32 :=
  let newPath := newPath rootPath path
  attemptSync env (if isFifo mode then .mkfifo newPath mode else .mknod newPath mode rdev)
    [parentPath newPath]

def nfsMkdir (path : CString) (mode : UInt32) : M Int32 :=
  let newPath := newPath rootPath path
  attemptSync env (.mkdir newPath mode) [newPath, parentPath newPath]

def nfsUnlink (path : CString) : M Int32 :=
  let newPath := newPath rootPath path
  attemptSync env (.unlink newPath) [parentPath newPath]

def nfsRmdir (path : CString) : M Int32 :=
  let newPath := newPath rootPath path
  attemptSync env (.rmdir newPath) [parentPath newPath]

def nfsSymlink («from» «to» : CString) : M Int32 :=
  let newFrom := newPath rootPath «from»
  let newTo := newPath rootPath «to»
  attemptSync env (.symlink newFrom newTo) [parentPath newTo]

def nfsRename («from» «to» : CString) : M Int32 :=
  let newFrom := newPath rootPath «from»
  let newTo := newPath rootPath «to»
  attemptSync env (.rename newFrom newTo) [newTo, parentPath newFrom, parentPath newTo]

def nfsLink («from» «to» : CString) : M Int32 :=
  let newFrom := newPath rootPath «from»
  let newTo := newPath rootPath «to»
  attemptSync env (.link newFrom newTo) [newFrom, newTo, parentPath newFrom, parentPath newTo]

def nfsChmod (path : CString) (mode : UInt32) : M Int32 :=
  attempt env (.chmod (newPath rootPath path) mode)

def nfsChown (path : CString) (uid gid : UInt32) : M Int32 :=
  attempt env (.lchown (newPath rootPath path) uid gid)

def nfsTruncate (path : CString) (size : Int64) : M Int32 :=
  attempt env (.truncate (newPath rootPath path) size)

def nfsFtruncate (size : Int64) (fi : Rpc.FuseFileInfo) : M Int32 :=
  attempt env (.ftruncate (fdOf fi) size)

def nfsUtimens (path : CString) (ts0 ts1 : Rpc.Timespec) : M Int32 :=
  attempt env (.utimensat (newPath rootPath path) ts0 ts1)

/-- `O_DIRECT` is taken from the flags and asks for direct I/O on the FUSE file system. -/
def withoutDirect (fi : Rpc.FuseFileInfo) : Rpc.FuseFileInfo :=
  if fi.flags &&& direct ≠ 0 then { fi with flags := fi.flags &&& ~~~direct, directIo := 1 } else fi

/-- `nfs_create`. The descriptor stays open also where a later step fails. -/
def nfsCreate (path : CString) (mode : UInt32) (fi : Rpc.FuseFileInfo) :
    M (Int32 × Rpc.FuseFileInfo) := do
  let newPath := newPath rootPath path
  let fi := withoutDirect fi
  match ← Trace.call env (.open newPath fi.flags (some mode)) with
  | .error e => return (e.result, fi)
  | .ok fd =>
    match ← Trace.call env (.fsync fd.val) with
    | .error e => return (e.result, fi)
    | .ok _ =>
      let res ← syncPath env (parentPath newPath)
      if res < 0 then return (res, fi) else return (0, setFh fi fd)

def nfsOpen (path : CString) (fi : Rpc.FuseFileInfo) : M (Int32 × Rpc.FuseFileInfo) :=
  let fi := withoutDirect fi
  attemptInto env (.open (newPath rootPath path) fi.flags none) fi (setFh fi)

def nfsRead (size : UInt64) (offset : Int64) (fi : Rpc.FuseFileInfo) : M (Int32 × Bytes) :=
  preadResult env (fdOf fi) size offset

/-- `nfs_write`. The flush flag is the stable flag of the request. -/
def nfsWrite (size : UInt64) (buf : Buffer size) (offset : Int64) (fi : Rpc.FuseFileInfo) :
    M Int32 := do
  match ← Trace.call env (.pwrite (fdOf fi) size buf offset) with
  | .error e => return e.result
  | .ok r =>
    if fi.flush ≠ 0 then
      match ← Trace.call env (.fsync (fdOf fi)) with
      | .error e => return e.result
      | .ok _ => return countResult r.count
    else return countResult r.count

def nfsStatfs (path : CString) (stbuf : Rpc.Statvfs) : M (Int32 × Rpc.Statvfs) :=
  attemptInto env (.statvfs (newPath rootPath path)) stbuf id

def nfsFlush (fi : Rpc.FuseFileInfo) : M Int32 := attempt env (.fsync (fdOf fi))

def nfsRelease (fi : Rpc.FuseFileInfo) : M Int32 := attempt env (.close (fdOf fi))

def nfsFsync (isdatasync : Int32) (fi : Rpc.FuseFileInfo) : M Int32 :=
  attempt env (if isdatasync ≠ 0 then .fdatasync (fdOf fi) else .fsync (fdOf fi))

end RSafeFS.Local
