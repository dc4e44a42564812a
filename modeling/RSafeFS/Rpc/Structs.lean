import RSafeFS.Fuse
import Mathlib.Data.List.TakeWhile

/-!
# Structures on the wire

The structures of the C interface at the widths of their types, the protobuf messages that
carry them, and the conversions between the two. A conversion fills a structure that
exists already, so it takes the structure's earlier value. Strings and buffers are the
bytes in memory that the code may touch.
-/

namespace RSafeFS.Rpc

/-- A `const char *` argument: the bytes before its terminating NUL. -/
@[ext]
structure CString where
  bytes : Bytes
  nul_notMem : 0 ∉ bytes

/-- The memory behind `std::string::c_str`. -/
def cStr (s : Bytes) : Bytes := s ++ [0]

/-- A pointer to memory that holds a NUL, taken as a string. -/
def CString.ofMemory (memory : Bytes) : CString where
  bytes := memory.takeWhile (· != 0)
  nul_notMem h := by simpa using List.mem_takeWhile_imp h

/-- A string that is copied into a `std::string` reaches the other side unchanged. -/
@[simp] theorem CString.ofMemory_cStr (c : CString) : CString.ofMemory (cStr c.bytes) = c := by
  ext1
  have hpos : ∀ b ∈ c.bytes, (b != 0) = true := by
    intro b hb
    simp only [bne_iff_ne]
    rintro rfl
    exact c.nul_notMem hb
  simp [ofMemory, cStr, List.takeWhile_append_of_pos hpos]

/-- A buffer of `size` bytes. -/
@[ext]
structure Buffer (size : UInt64) where
  bytes : Bytes
  length_bytes : bytes.length = size.toNat

/-- `std::string::resize`. New bytes are NUL. -/
def Buffer.resize (s : Bytes) (size : UInt64) : Buffer size where
  bytes := ByteFile.truncate s size.toNat
  length_bytes := by
    simp only [ByteFile.truncate, List.length_append, List.length_take, List.length_replicate]
    omega

/-- The first `size` bytes at a pointer, which must be there to be read. -/
def Buffer.at? (memory : Bytes) (size : UInt64) : Option (Buffer size) :=
  if h : size.toNat ≤ memory.length then
    some ⟨memory.take size.toNat, by simpa using h⟩
  else none

/-- `std::memcpy` of `n` bytes into a buffer, undefined where either side is shorter. -/
def Buffer.memcpy {size : UInt64} (dest : Buffer size) (src : Bytes) (n : ℕ) :
    Option (Buffer size) :=
  if h : n ≤ size.toNat ∧ n ≤ src.length then
    some ⟨src.take n ++ dest.bytes.drop n, by simp [dest.length_bytes]; omega⟩
  else none

/-- The bytes of a buffer are found again behind the `std::string` that carries them. -/
@[simp] theorem Buffer.at?_cStr {size : UInt64} (b : Buffer size) :
    Buffer.at? (cStr b.bytes) size = some b := by
  have hlength := b.length_bytes
  have hle : size.toNat ≤ (cStr b.bytes).length := by
    simp only [cStr, List.length_append]
    omega
  rw [at?, dif_pos hle]
  congr 1
  ext1
  simp [cStr, ← hlength]

/-- A copy from another buffer of the same size is defined for every count up to the size. -/
theorem Buffer.memcpy_cStr {size : UInt64} (dest src : Buffer size) {n : ℕ}
    (hn : n ≤ size.toNat) : ∃ copied, dest.memcpy (cStr src.bytes) n = some copied ∧
      copied.bytes = src.bytes.take n ++ dest.bytes.drop n := by
  have hlength := src.length_bytes
  have hle : n ≤ (cStr src.bytes).length := by
    simp only [cStr, List.length_append]
    omega
  refine ⟨_, dif_pos ⟨hn, hle⟩, ?_⟩
  have htake : (cStr src.bytes).take n = src.bytes.take n := by
    simp only [cStr]
    rw [List.take_append_of_le_length]
    omega
  simp [htake]

/-- `struct fuse_file_info`, its bit fields at their widths. -/
structure FuseFileInfo where
  flags : Int32
  fhOld : UInt64
  writepage : Int32
  directIo : BitVec 1
  keepCache : BitVec 1
  flush : BitVec 1
  nonseekable : BitVec 1
  flockRelease : BitVec 1
  padding : BitVec 27
  fh : UInt64
  lockOwner : UInt64
  deriving DecidableEq

/-- `fuse_file_info fi{}`. -/
instance : Inhabited FuseFileInfo := ⟨⟨0, 0, 0, 0, 0, 0, 0, 0, 0, 0, 0⟩⟩

/-- The message `StructFuseFileInfo`. -/
structure StructFuseFileInfo where
  flags : Int32
  fhOld : UInt64
  writepage : Int32
  directIo : UInt32
  keepCache : UInt32
  flush : UInt32
  nonseekable : UInt32
  flockRelease : UInt32
  padding : UInt32
  fh : UInt64
  lockOwner : UInt64
  deriving DecidableEq

/-- A message without fields set. -/
instance : Inhabited StructFuseFileInfo := ⟨⟨0, 0, 0, 0, 0, 0, 0, 0, 0, 0, 0⟩⟩

/-- The value of a bit field as an `unsigned int`. -/
def ofBits {width : ℕ} (bits : BitVec width) : UInt32 := ⟨bits.setWidth 32⟩

/-- Assignment of an `unsigned int` to a bit field, which keeps its lowest bits. -/
def toBits (width : ℕ) (value : UInt32) : BitVec width := value.toBitVec.setWidth width

/-- A bit field of at most 32 bits survives the conversion. -/
@[simp] theorem toBits_ofBits {width : ℕ} (hwidth : width ≤ 32) (bits : BitVec width) :
    toBits width (ofBits bits) = bits := by
  simp [toBits, ofBits, BitVec.setWidth_setWidth_of_le, hwidth]

/-- `fill_StructFuseFileInfo`. -/
def fillStructFuseFileInfo (sfi : StructFuseFileInfo) (fi : FuseFileInfo) : StructFuseFileInfo :=
  { sfi with
    flags := fi.flags
    fhOld := fi.fhOld
    writepage := fi.writepage
    directIo := ofBits fi.directIo
    keepCache := ofBits fi.keepCache
    flush := ofBits fi.flush
    nonseekable := ofBits fi.nonseekable
    flockRelease := ofBits fi.flockRelease
    padding := ofBits fi.padding
    fh := fi.fh
    lockOwner := fi.lockOwner }

/-- `fill_fuse_file_info`. -/
def fillFuseFileInfo (fi : FuseFileInfo) (sfi : StructFuseFileInfo) : FuseFileInfo :=
  { fi with
    flags := sfi.flags
    fhOld := sfi.fhOld
    writepage := sfi.writepage
    directIo := toBits 1 sfi.directIo
    keepCache := toBits 1 sfi.keepCache
    flush := toBits 1 sfi.flush
    nonseekable := toBits 1 sfi.nonseekable
    flockRelease := toBits 1 sfi.flockRelease
    padding := toBits 27 sfi.padding
    fh := sfi.fh
    lockOwner := sfi.lockOwner }

/-- A `fuse_file_info` survives the wire, whatever the structures held that it is put into. -/
@[simp] theorem fillFuseFileInfo_fillStructFuseFileInfo (old : FuseFileInfo)
    (sfi : StructFuseFileInfo) (fi : FuseFileInfo) :
    fillFuseFileInfo old (fillStructFuseFileInfo sfi fi) = fi := by
  simp [fillFuseFileInfo, fillStructFuseFileInfo]

/-- `struct timespec`. -/
structure Timespec where
  tvSec : Int64
  tvNsec : Int64
  deriving DecidableEq

instance : Inhabited Timespec := ⟨⟨0, 0⟩⟩

/-- The message `StructTimespec`, with unsigned fields. -/
structure StructTimespec where
  sec : UInt64
  nsec : UInt64
  deriving DecidableEq

instance : Inhabited StructTimespec := ⟨⟨0, 0⟩⟩

/-- `fill_StructTimespec`. -/
def fillStructTimespec (sts : StructTimespec) (ts : Timespec) : StructTimespec :=
  { sts with sec := ts.tvSec.toUInt64, nsec := ts.tvNsec.toUInt64 }

/-- `fill_struct_timespec`. -/
def fillTimespec (ts : Timespec) (sts : StructTimespec) : Timespec :=
  { ts with tvSec := sts.sec.toInt64, tvNsec := sts.nsec.toInt64 }

/-- A time survives the wire, also before 1970. -/
@[simp] theorem fillTimespec_fillStructTimespec (old : Timespec) (sts : StructTimespec)
    (ts : Timespec) : fillTimespec old (fillStructTimespec sts ts) = ts := by
  simp [fillTimespec, fillStructTimespec]

/-- `struct stat` of Linux on x86-64, with the fields that the messages carry. -/
structure Stat where
  dev : UInt64
  ino : UInt64
  mode : UInt32
  nlink : UInt64
  uid : UInt32
  gid : UInt32
  rdev : UInt64
  size : Int64
  blksize : Int64
  blocks : Int64
  atim : Timespec
  mtim : Timespec
  ctim : Timespec
  deriving DecidableEq

/-- `struct stat st {}`. -/
instance : Inhabited Stat := ⟨⟨0, 0, 0, 0, 0, 0, 0, 0, 0, 0, default, default, default⟩⟩

/-- The message `StructStat`. Some of its fields are narrower than those of the structure. -/
structure StructStat where
  dev : Int32
  ino : UInt64
  mode : UInt32
  nlink : UInt32
  uid : UInt32
  gid : UInt32
  rdev : Int32
  size : UInt64
  blksize : UInt32
  blocks : UInt64
  atim : StructTimespec
  mtim : StructTimespec
  ctim : StructTimespec
  deriving DecidableEq

/-- A message without fields set. -/
instance : Inhabited StructStat :=
  ⟨⟨0, 0, 0, 0, 0, 0, 0, 0, 0, 0, default, default, default⟩⟩

/-- `fill_StructStat`. The times are filled as by `fill_StructTimespec`. -/
def fillStructStat (buf : StructStat) (stbuf : Stat) : StructStat :=
  { buf with
    dev := stbuf.dev.toUInt32.toInt32
    ino := stbuf.ino
    mode := stbuf.mode
    nlink := stbuf.nlink.toUInt32
    uid := stbuf.uid
    gid := stbuf.gid
    rdev := stbuf.rdev.toUInt32.toInt32
    size := stbuf.size.toUInt64
    blksize := stbuf.blksize.toUInt64.toUInt32
    blocks := stbuf.blocks.toUInt64
    atim := fillStructTimespec buf.atim stbuf.atim
    mtim := fillStructTimespec buf.mtim stbuf.mtim
    ctim := fillStructTimespec buf.ctim stbuf.ctim }

/-- `fill_struct_stat`. A signed field is extended by its sign. -/
def fillStat (stbuf : Stat) (buf : StructStat) : Stat :=
  { stbuf with
    dev := buf.dev.toInt64.toUInt64
    ino := buf.ino
    mode := buf.mode
    nlink := buf.nlink.toUInt64
    uid := buf.uid
    gid := buf.gid
    rdev := buf.rdev.toInt64.toUInt64
    size := buf.size.toInt64
    blksize := buf.blksize.toUInt64.toInt64
    blocks := buf.blocks.toInt64
    atim := fillTimespec stbuf.atim buf.atim
    mtim := fillTimespec stbuf.mtim buf.mtim
    ctim := fillTimespec stbuf.ctim buf.ctim }

/-- `struct statvfs` of Linux on x86-64, with the fields that the messages carry. -/
structure Statvfs where
  bsize : UInt64
  frsize : UInt64
  blocks : UInt64
  bfree : UInt64
  bavail : UInt64
  files : UInt64
  ffree : UInt64
  favail : UInt64
  fsid : UInt64
  flag : UInt64
  namemax : UInt64
  deriving DecidableEq

/-- `struct statvfs stbuf {}`. -/
instance : Inhabited Statvfs := ⟨⟨0, 0, 0, 0, 0, 0, 0, 0, 0, 0, 0⟩⟩

/-- The message `StructStatvfs`. Its counts are narrower than those of the structure. -/
structure StructStatvfs where
  bsize : UInt64
  frsize : UInt64
  blocks : UInt32
  bfree : UInt32
  bavail : UInt32
  files : UInt32
  ffree : UInt32
  favail : UInt32
  fsid : UInt64
  flag : UInt64
  namemax : UInt64
  deriving DecidableEq

/-- A message without fields set. -/
instance : Inhabited StructStatvfs := ⟨⟨0, 0, 0, 0, 0, 0, 0, 0, 0, 0, 0⟩⟩

/-- `fill_StructStatvfs`. -/
def fillStructStatvfs (buf : StructStatvfs) (stbuf : Statvfs) : StructStatvfs :=
  { buf with
    bsize := stbuf.bsize
    frsize := stbuf.frsize
    blocks := stbuf.blocks.toUInt32
    bfree := stbuf.bfree.toUInt32
    bavail := stbuf.bavail.toUInt32
    files := stbuf.files.toUInt32
    ffree := stbuf.ffree.toUInt32
    favail := stbuf.favail.toUInt32
    fsid := stbuf.fsid
    flag := stbuf.flag
    namemax := stbuf.namemax }

/-- `fill_struct_statvfs`. -/
def fillStatvfs (stbuf : Statvfs) (buf : StructStatvfs) : Statvfs :=
  { stbuf with
    bsize := buf.bsize
    frsize := buf.frsize
    blocks := buf.blocks.toUInt64
    bfree := buf.bfree.toUInt64
    bavail := buf.bavail.toUInt64
    files := buf.files.toUInt64
    ffree := buf.ffree.toUInt64
    favail := buf.favail.toUInt64
    fsid := buf.fsid
    flag := buf.flag
    namemax := buf.namemax }

end RSafeFS.Rpc
