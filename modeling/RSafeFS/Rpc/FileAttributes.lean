import RSafeFS.Rpc.Attributes
import RSafeFS.Rpc.Transparency

/-!
# Remote attributes

The entries that return attributes, of a file, of the file system or extended ones. Attributes
cross the wire in messages with narrower fields, so a call is answered as the entry answers it
exactly for attributes that fit. The buffers of extended attributes cross it whole, but a result
that is longer than the buffer, as the answer to a question for the length is, overruns it.
-/

namespace RSafeFS.Rpc

/-- The entries of `fuse_operations` for attributes. The server calls the entries that return
attributes with a structure of zeros. -/
structure AttributeOperations (σ : Type) where
  getattr : CString → Stat → StateM σ (Int32 × Stat)
  fgetattr : CString → Stat → FuseFileInfo → StateM σ (Int32 × Stat × FuseFileInfo)
  statfs : CString → Statvfs → StateM σ (Int32 × Statvfs)
  fallocate : CString → (mode : Int32) → (offset length : Int64) → FuseFileInfo →
    StateM σ (Int32 × FuseFileInfo)
  setxattr : CString → CString → (size : UInt64) → Buffer size → (flags : Int32) → StateM σ Int32
  getxattr : CString → CString → (size : UInt64) → Buffer size → StateM σ (Int32 × Buffer size)
  listxattr : CString → (size : UInt64) → Buffer size → StateM σ (Int32 × Buffer size)
  removexattr : CString → CString → StateM σ Int32

structure FallocateRequest where
  path : Bytes
  mode : Int32
  offset : Int64
  length : Int64
  info : StructFuseFileInfo

structure SetxattrRequest where
  path : Bytes
  name : Bytes
  size : UInt64
  flags : Int32
  value : Bytes

structure GetxattrRequest where
  path : Bytes
  name : Bytes
  size : UInt64

/-- `ListxattrRequest`. -/
structure ListxattrRequest where
  path : Bytes
  size : UInt64

structure RemovexattrRequest where
  path : Bytes
  name : Bytes

/-- `GetattrReply`. -/
structure GetattrReply where
  result : Int32
  stbuf : StructStat

structure FgetattrReply where
  result : Int32
  stbuf : StructStat
  info : StructFuseFileInfo

structure StatfsReply where
  result : Int32
  stbuf : StructStatvfs

/-- `GetxattrReply`, `ListxattrReply`. -/
structure BytesReply where
  result : Int32
  value : Bytes

variable {σ : Type}

namespace Server

variable (ops : AttributeOperations σ)

/-- `getattr_data`. -/
def getattrData (request : PathRequest) : StateM σ GetattrReply := do
  let (res, stbuf) ← ops.getattr (path request.path) default
  return { result := res, stbuf := fillStructStat default stbuf }

/-- `fgetattr_data`. -/
def fgetattrData (request : InfoRequest) : StateM σ FgetattrReply := do
  let (res, stbuf, fi) ← ops.fgetattr (path request.path) default
    (fillFuseFileInfo default request.info)
  return {
    result := res
    stbuf := fillStructStat default stbuf
    info := fillStructFuseFileInfo default fi }

/-- `statfs_data`. -/
def statfsData (request : PathRequest) : StateM σ StatfsReply := do
  let (res, stbuf) ← ops.statfs (path request.path) default
  return { result := res, stbuf := fillStructStatvfs default stbuf }

/-- `fallocate_data`. -/
def fallocateData (request : FallocateRequest) : StateM σ InfoReply :=
  infoReply (ops.fallocate (path request.path) request.mode request.offset request.length)
    request.info

/-- `setxattr_data`. The entry reads `size` bytes from the string in the message. -/
def setxattrData (request : SetxattrRequest) : StateM σ (Option ResultReply) :=
  match Buffer.at? (cStr request.value) request.size with
  | none => return none
  | some value =>
    some <$> resultReply
      (ops.setxattr (path request.path) (path request.name) request.size value request.flags)

/-- A handler that sends a buffer of the size that was asked for back whole. -/
def bytesReply (size : UInt64) (entry : Buffer size → StateM σ (Int32 × Buffer size)) :
    StateM σ BytesReply := do
  let (res, value) ← entry (.resize [] size)
  return { result := res, value := value.bytes }

/-- `getxattr_data`. -/
def getxattrData (request : GetxattrRequest) : StateM σ BytesReply :=
  bytesReply request.size (ops.getxattr (path request.path) (path request.name) request.size)

/-- `listxattr_data`. -/
def listxattrData (request : ListxattrRequest) : StateM σ BytesReply :=
  bytesReply request.size (ops.listxattr (path request.path) request.size)

/-- `removexattr_data`. -/
def removexattrData (request : RemovexattrRequest) : StateM σ ResultReply :=
  resultReply (ops.removexattr (path request.path) (path request.name))

end Server

namespace SyncClient

variable (ops : AttributeOperations σ)

/-- `sync_client::getattr`, which fills the structure whatever the result. -/
def getattr (path : CString) (stbuf : Stat) : StateM σ (Int32 × Stat) := do
  let reply ← Server.getattrData ops { path := path.bytes }
  return (reply.result, fillStat stbuf reply.stbuf)

def fgetattr (path : CString) (stbuf : Stat) (fi : FuseFileInfo) :
    StateM σ (Int32 × Stat × FuseFileInfo) := do
  let reply ← Server.fgetattrData ops
    { path := path.bytes, info := fillStructFuseFileInfo default fi }
  return (reply.result, fillStat stbuf reply.stbuf, fillFuseFileInfo fi reply.info)

def statfs (path : CString) (stbuf : Statvfs) : StateM σ (Int32 × Statvfs) := do
  let reply ← Server.statfsData ops { path := path.bytes }
  return (reply.result, fillStatvfs stbuf reply.stbuf)

def fallocate (path : CString) (mode : Int32) (offset length : Int64) (fi : FuseFileInfo) :
    StateM σ (Int32 × FuseFileInfo) :=
  withInfo (fun info => Server.fallocateData ops { path := path.bytes, mode, offset, length, info })
    fi

def setxattr (path name : CString) (size : UInt64) (value : Buffer size) (flags : Int32) :
    StateM σ (Option Int32) := do
  let reply ← Server.setxattrData ops {
    path := path.bytes
    name := name.bytes
    value := value.bytes
    size
    flags }
  return reply.map ResultReply.result

/-- The copy of as many bytes as the result says. -/
def receiveBytes (send : StateM σ BytesReply) {size : UInt64} (value : Buffer size) :
    StateM σ (Option (Int32 × Buffer size)) := do
  let reply ← send
  let res := reply.result
  let copied := if 0 < res then value.memcpy (cStr reply.value) res.toInt.toNat else some value
  return copied.map fun value => (res, value)

def getxattr (path name : CString) (size : UInt64) (value : Buffer size) :
    StateM σ (Option (Int32 × Buffer size)) :=
  receiveBytes (Server.getxattrData ops { path := path.bytes, name := name.bytes, size }) value

def listxattr (path : CString) (size : UInt64) (list : Buffer size) :
    StateM σ (Option (Int32 × Buffer size)) :=
  receiveBytes (Server.listxattrData ops { path := path.bytes, size }) list

def removexattr (path name : CString) : StateM σ Int32 :=
  result (Server.removexattrData ops { path := path.bytes, name := name.bytes })

end SyncClient

/-- The attributes fit the message: the device numbers repeat their sign, and the link count and
the size of a block need 32 bits at most. -/
def Stat.Fits (st : Stat) : Prop :=
  (st.dev.toNat < 2 ^ 31 ∨ 2 ^ 64 - 2 ^ 31 ≤ st.dev.toNat) ∧
  (st.rdev.toNat < 2 ^ 31 ∨ 2 ^ 64 - 2 ^ 31 ≤ st.rdev.toNat) ∧
  st.nlink.toNat < 2 ^ 32 ∧ 0 ≤ st.blksize.toInt ∧ st.blksize.toInt < 2 ^ 32

/-- The statistics fit the message: each count needs 32 bits at most. -/
def Statvfs.Fits (st : Statvfs) : Prop :=
  ∀ count ∈ [st.blocks, st.bfree, st.bavail, st.files, st.ffree, st.favail], count.toNat < 2 ^ 32

/-- A buffer of `size` bytes is received as the entry fills it, and undefined if the result is
longer than the buffer. -/
def BytesTransparent {size : UInt64} (entry : Buffer size → StateM σ (Int32 × Buffer size))
    (call : Buffer size → StateM σ (Option (Int32 × Buffer size))) : Prop :=
  ∀ value w, let served := entry (.resize [] size) w
    let count := served.1.1.toInt.toNat
    (served.1.1.toInt ≤ size.toNat → ∃ after : Buffer size,
      call value w = (some (served.1.1, after), served.2) ∧
        after.bytes.take count = served.1.2.bytes.take count ∧
        after.bytes.drop count = value.bytes.drop count) ∧
    (size.toNat < served.1.1.toInt → call value w = (none, served.2))

/-- Every method for attributes does what the entry of the server does, as far as the attributes
fit the message and the results the buffer. -/
structure AttributesTransparent (ops : AttributeOperations σ) : Prop where
  getattr : ∀ path stbuf w, let served := ops.getattr path default w
    (SyncClient.getattr ops path stbuf w).2 = served.2 ∧
      (SyncClient.getattr ops path stbuf w).1.1 = served.1.1 ∧
      (SyncClient.getattr ops path stbuf w = served ↔ served.1.2.Fits)
  fgetattr : ∀ path stbuf fi w, let served := ops.fgetattr path default fi w
    (SyncClient.fgetattr ops path stbuf fi w).2 = served.2 ∧
      (SyncClient.fgetattr ops path stbuf fi w).1.1 = served.1.1 ∧
      (SyncClient.fgetattr ops path stbuf fi w).1.2.2 = served.1.2.2 ∧
      (SyncClient.fgetattr ops path stbuf fi w = served ↔ served.1.2.1.Fits)
  statfs : ∀ path stbuf w, let served := ops.statfs path default w
    (SyncClient.statfs ops path stbuf w).2 = served.2 ∧
      (SyncClient.statfs ops path stbuf w).1.1 = served.1.1 ∧
      (SyncClient.statfs ops path stbuf w = served ↔ served.1.2.Fits)
  fallocate : ∀ path mode offset length fi,
    SyncClient.fallocate ops path mode offset length fi = ops.fallocate path mode offset length fi
  setxattr : ∀ path name size value flags,
    SyncClient.setxattr ops path name size value flags =
      some <$> ops.setxattr path name size value flags
  getxattr : ∀ path name size,
    BytesTransparent (ops.getxattr path name size) (SyncClient.getxattr ops path name size)
  listxattr : ∀ path size,
    BytesTransparent (ops.listxattr path size) (SyncClient.listxattr ops path size)
  removexattr : ∀ path name, SyncClient.removexattr ops path name = ops.removexattr path name

variable {ops : AttributeOperations σ}

/-- The structure of the caller is filled with the attributes exactly if they fit. -/
theorem fillStat_eq_self_iff (old : Stat) (st : Stat) :
    fillStat old (fillStructStat default st) = st ↔ st.Fits := by
  unfold Stat.Fits
  rw [fillStat_fillStructStat, ← toUInt64_toInt32_iff, ← toUInt64_toInt32_iff,
    ← toUInt64_toUInt32_iff, ← toInt64_toUInt32_iff]
  constructor
  · intro h
    have hdev := congrArg Stat.dev h
    have hrdev := congrArg Stat.rdev h
    have hnlink := congrArg Stat.nlink h
    have hblksize := congrArg Stat.blksize h
    exact ⟨hdev, hrdev, hnlink, hblksize⟩
  · rintro ⟨hdev, hrdev, hnlink, hblksize⟩
    rw [hdev, hrdev, hnlink, hblksize]

/-- The structure of the caller is filled with the statistics exactly if they fit. -/
theorem fillStatvfs_eq_self_iff (old : Statvfs) (st : Statvfs) :
    fillStatvfs old (fillStructStatvfs default st) = st ↔ st.Fits := by
  have hfill : fillStatvfs old (fillStructStatvfs default st) = { st with
      blocks := st.blocks.toUInt32.toUInt64
      bfree := st.bfree.toUInt32.toUInt64
      bavail := st.bavail.toUInt32.toUInt64
      files := st.files.toUInt32.toUInt64
      ffree := st.ffree.toUInt32.toUInt64
      favail := st.favail.toUInt32.toUInt64 } := rfl
  unfold Statvfs.Fits
  simp only [hfill, List.forall_mem_cons, List.not_mem_nil, ← toUInt64_toUInt32_iff]
  constructor
  · intro h
    have hblocks := congrArg Statvfs.blocks h
    have hbfree := congrArg Statvfs.bfree h
    have hbavail := congrArg Statvfs.bavail h
    have hfiles := congrArg Statvfs.files h
    have hffree := congrArg Statvfs.ffree h
    have hfavail := congrArg Statvfs.favail h
    exact ⟨hblocks, hbfree, hbavail, hfiles, hffree, hfavail, by simp⟩
  · rintro ⟨hblocks, hbfree, hbavail, hfiles, hffree, hfavail, -⟩
    rw [hblocks, hbfree, hbavail, hfiles, hffree, hfavail]

/-- What is copied of a buffer that the server sends whole. -/
theorem bytesTransparent_receiveBytes {size : UInt64}
    (entry : Buffer size → StateM σ (Int32 × Buffer size)) :
    BytesTransparent entry (SyncClient.receiveBytes (Server.bytesReply size entry)) := by
  intro value w
  dsimp only
  have hcall : SyncClient.receiveBytes (Server.bytesReply size entry) value w =
      let served := entry (.resize [] size) w
      ((if 0 < served.1.1 then value.memcpy (cStr served.1.2.bytes) served.1.1.toInt.toNat
        else some value).map fun value => (served.1.1, value), served.2) := rfl
  generalize entry (.resize [] size) w = served at hcall ⊢
  obtain ⟨⟨res, buf⟩, w'⟩ := served
  dsimp only at hcall ⊢
  rw [hcall]
  constructor
  · intro hle
    by_cases hpos : 0 < res
    · have hcount : res.toInt.toNat ≤ size.toNat := by omega
      obtain ⟨after, hafter, hbytes⟩ := value.memcpy_cStr buf hcount
      have hlength : (buf.bytes.take res.toInt.toNat).length = res.toInt.toNat := by
        rw [List.length_take, buf.length_bytes]
        omega
      refine ⟨after, ?_, ?_, ?_⟩
      · rw [if_pos hpos, hafter]
        rfl
      · rw [hbytes]
        exact List.take_left' hlength
      · rw [hbytes]
        exact List.drop_left' hlength
    · have hzero : res.toInt.toNat = 0 := by
        rw [Int32.lt_iff_toInt_lt] at hpos
        simp at hpos
        omega
      refine ⟨value, ?_, ?_, ?_⟩
      · rw [if_neg hpos]
        rfl
      · rw [hzero, List.take_zero, List.take_zero]
      · rfl
  · intro hlt
    have hpos : 0 < res := by
      rw [Int32.lt_iff_toInt_lt]
      simp
      omega
    have hover : value.memcpy (cStr buf.bytes) res.toInt.toNat = none := by
      apply dif_neg
      intro hboth
      omega
    rw [if_pos hpos, hover]
    rfl

/-- **Remote attributes.** Every method for attributes calls the entry of the server once, with the
arguments of the client, and returns its result. Attributes of files and file systems come back
as they were exactly if they fit the message. A list or value of extended attributes comes back
whole if the result is no longer than the buffer, and overruns the buffer otherwise. -/
theorem attributes_transparent (ops : AttributeOperations σ) : AttributesTransparent ops where
  getattr path stbuf w := by
    have hcall : SyncClient.getattr ops path stbuf w =
        (((ops.getattr path default w).1.1,
          fillStat stbuf (fillStructStat default (ops.getattr path default w).1.2)),
          (ops.getattr path default w).2) := by
      simp only [SyncClient.getattr, Server.getattrData, Server.path_bytes]
      rfl
    rw [hcall]
    refine ⟨rfl, rfl, ?_⟩
    rw [← fillStat_eq_self_iff stbuf]
    constructor
    · intro h
      exact congrArg (fun t => t.1.2) h
    · intro h
      rw [h]
      rfl
  fgetattr path stbuf fi w := by
    have hcall : SyncClient.fgetattr ops path stbuf fi w =
        (((ops.fgetattr path default fi w).1.1,
          fillStat stbuf (fillStructStat default (ops.fgetattr path default fi w).1.2.1),
          (ops.fgetattr path default fi w).1.2.2),
          (ops.fgetattr path default fi w).2) := by
      simp only [SyncClient.fgetattr, Server.fgetattrData, Server.path_bytes,
        fillFuseFileInfo_fillStructFuseFileInfo, bind_assoc, pure_bind]
      rfl
    rw [hcall]
    refine ⟨rfl, rfl, rfl, ?_⟩
    rw [← fillStat_eq_self_iff stbuf]
    constructor
    · intro h
      exact congrArg (fun t => t.1.2.1) h
    · intro h
      rw [h]
      rfl
  statfs path stbuf w := by
    have hcall : SyncClient.statfs ops path stbuf w =
        (((ops.statfs path default w).1.1,
          fillStatvfs stbuf (fillStructStatvfs default (ops.statfs path default w).1.2)),
          (ops.statfs path default w).2) := by
      simp only [SyncClient.statfs, Server.statfsData, Server.path_bytes]
      rfl
    rw [hcall]
    refine ⟨rfl, rfl, ?_⟩
    rw [← fillStatvfs_eq_self_iff stbuf]
    constructor
    · intro h
      exact congrArg (fun t => t.1.2) h
    · intro h
      rw [h]
      rfl
  fallocate path mode offset length fi := by simp [SyncClient.fallocate, Server.fallocateData]
  setxattr path name size value flags := by
    simp [SyncClient.setxattr, Server.setxattrData, Server.resultReply]
  getxattr path name size := by
    have hsend : SyncClient.getxattr ops path name size =
        SyncClient.receiveBytes (Server.bytesReply size (ops.getxattr path name size)) := by
      funext value
      simp only [SyncClient.getxattr, Server.getxattrData, Server.path_bytes]
    rw [hsend]
    exact bytesTransparent_receiveBytes _
  listxattr path size := by
    have hsend : SyncClient.listxattr ops path size =
        SyncClient.receiveBytes (Server.bytesReply size (ops.listxattr path size)) := by
      funext list
      simp only [SyncClient.listxattr, Server.listxattrData, Server.path_bytes]
    rw [hsend]
    exact bytesTransparent_receiveBytes _
  removexattr path name := by simp [SyncClient.removexattr, Server.removexattrData]

end RSafeFS.Rpc
