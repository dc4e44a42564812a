import RSafeFS.Rpc.Structs

/-!
# Operations and messages

Entries of `fuse_operations` that pass integers, strings, buffers, times and
`fuse_file_info`, with the C types of their arguments, and the protobuf messages that carry
these arguments and the results. Messages with the same fields share a structure.
-/

namespace RSafeFS.Rpc

/-- What a call of `read` leaves behind. As FUSE requires of it, `read` returns at most the
number of bytes that it was asked for. -/
structure ReadResult (size : UInt64) where
  res : Int32
  buf : Buffer size
  fi : FuseFileInfo
  res_le : res.toInt ≤ size.toNat

/-- Entries of `fuse_operations`, over the state `σ` that they act on. An argument that is
passed by pointer and may be changed is returned with the result. -/
structure Operations (σ : Type) where
  access : CString → Int32 → StateM σ Int32
  readlink : CString → (size : UInt64) → Buffer size → StateM σ (Int32 × Buffer size)
  opendir : CString → FuseFileInfo → StateM σ (Int32 × FuseFileInfo)
  releasedir : CString → FuseFileInfo → StateM σ (Int32 × FuseFileInfo)
  mknod : CString → (mode : UInt32) → (rdev : UInt64) → StateM σ Int32
  mkdir : CString → (mode : UInt32) → StateM σ Int32
  symlink : CString → CString → StateM σ Int32
  unlink : CString → StateM σ Int32
  rmdir : CString → StateM σ Int32
  rename : CString → CString → StateM σ Int32
  link : CString → CString → StateM σ Int32
  chmod : CString → (mode : UInt32) → StateM σ Int32
  chown : CString → (uid gid : UInt32) → StateM σ Int32
  truncate : CString → (size : Int64) → StateM σ Int32
  ftruncate : CString → (size : Int64) → FuseFileInfo → StateM σ (Int32 × FuseFileInfo)
  utimens : CString → (ts0 ts1 : Timespec) → StateM σ Int32
  create : CString → (mode : UInt32) → FuseFileInfo → StateM σ (Int32 × FuseFileInfo)
  «open» : CString → FuseFileInfo → StateM σ (Int32 × FuseFileInfo)
  read : CString → (size : UInt64) → Buffer size → (offset : Int64) → FuseFileInfo →
    StateM σ (ReadResult size)
  write : CString → (size : UInt64) → Buffer size → (offset : Int64) → FuseFileInfo →
    StateM σ (Int32 × FuseFileInfo)
  flush : CString → FuseFileInfo → StateM σ (Int32 × FuseFileInfo)
  release : CString → FuseFileInfo → StateM σ (Int32 × FuseFileInfo)
  fsync : CString → (isdatasync : Int32) → FuseFileInfo → StateM σ (Int32 × FuseFileInfo)

/-- `UnlinkRequest`, `RmdirRequest`. -/
structure PathRequest where
  path : Bytes

/-- `SymlinkRequest`, `RenameRequest`, `LinkRequest`. -/
structure FromToRequest where
  «from» : Bytes
  «to» : Bytes

/-- `OpendirRequest`, `ReleasedirRequest`, `OpenRequest`, `FlushRequest`, `ReleaseRequest`. -/
structure InfoRequest where
  path : Bytes
  info : StructFuseFileInfo

/-- `MkdirRequest`, `ChmodRequest`. -/
structure ModeRequest where
  path : Bytes
  mode : UInt32

structure AccessRequest where
  path : Bytes
  mask : Int32

structure ReadlinkRequest where
  path : Bytes
  size : UInt64

/-- The device is signed in the message and unsigned in the interface. -/
structure MknodRequest where
  path : Bytes
  mode : UInt32
  rdev : Int64

structure ChownRequest where
  path : Bytes
  uid : UInt32
  gid : UInt32

structure TruncateRequest where
  path : Bytes
  size : Int64

structure FtruncateRequest where
  path : Bytes
  size : Int64
  info : StructFuseFileInfo

structure UtimensRequest where
  path : Bytes
  tim0 : StructTimespec
  tim1 : StructTimespec

structure CreateRequest where
  path : Bytes
  mode : UInt32
  info : StructFuseFileInfo

structure ReadRequest where
  path : Bytes
  size : UInt64
  offset : Int64
  info : StructFuseFileInfo

structure WriteRequest where
  path : Bytes
  size : UInt64
  offset : Int64
  buf : Bytes
  info : StructFuseFileInfo

structure FsyncRequest where
  path : Bytes
  isdatasync : Int32
  info : StructFuseFileInfo

/-- The replies of the operations that take no `fuse_file_info`. -/
structure ResultReply where
  result : Int32

/-- The replies of the operations that take a `fuse_file_info`, `read` apart. -/
structure InfoReply where
  result : Int32
  info : StructFuseFileInfo

structure ReadlinkReply where
  result : Int32
  buf : Bytes

structure ReadReply where
  result : Int32
  buf : Bytes
  info : StructFuseFileInfo

/-- Messages without fields set. -/
instance : Inhabited InfoReply := ⟨⟨0, default⟩⟩

instance : Inhabited ReadlinkReply := ⟨⟨0, []⟩⟩

instance : Inhabited ReadReply := ⟨⟨0, [], default⟩⟩

end RSafeFS.Rpc
