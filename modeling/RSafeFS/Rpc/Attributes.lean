import RSafeFS.Rpc.Structs
import Mathlib.Data.Int.Basic

/-!
# Attributes on the wire

The messages `StructStat` and `StructStatvfs` declare some fields at 32 bits where the
structures have 64. A value of such a field is cut on the way out and extended on the way
back, by its sign where the message field is signed. This file says which attributes come
back as they were.
-/

namespace RSafeFS.Rpc

/-- A value that goes through a `uint32` comes back if its upper half is zero. -/
theorem toUInt64_toUInt32_iff (x : UInt64) : x.toUInt32.toUInt64 = x ↔ x.toNat < 2 ^ 32 := by
  have hlt := x.toNat_lt
  rw [← UInt64.toNat_inj, UInt32.toNat_toUInt64, UInt64.toNat_toUInt32]
  omega

/-- A value that goes through an `int32` comes back if its upper half repeats the sign. -/
theorem toUInt64_toInt32_iff (x : UInt64) :
    x.toUInt32.toInt32.toInt64.toUInt64 = x ↔
      x.toNat < 2 ^ 31 ∨ 2 ^ 64 - 2 ^ 31 ≤ x.toNat := by
  have hlt := x.toNat_lt
  have hbits : x.toUInt32.toInt32.toInt64.toUInt64.toBitVec =
      (x.toBitVec.setWidth 32).signExtend 64 := rfl
  rw [← UInt64.toBitVec_inj, ← BitVec.toInt_inj, hbits, BitVec.toInt_signExtend_of_le (by decide),
    BitVec.toInt_setWidth, BitVec.toInt_eq_toNat_bmod, UInt64.toNat_toBitVec, Int.bmod_def,
    Int.bmod_def]
  omega

/-- A signed value that goes through a `uint32` comes back if it is not negative either. -/
theorem toInt64_toUInt32_iff (x : Int64) :
    x.toUInt64.toUInt32.toUInt64.toInt64 = x ↔ 0 ≤ x.toInt ∧ x.toInt < 2 ^ 32 := by
  have hlt := x.toUInt64.toNat_lt
  have hsigned : x.toInt = (x.toUInt64.toNat : ℤ).bmod (2 ^ 64) := BitVec.toInt_eq_toNat_bmod _
  have hunsigned : x.toUInt64.toUInt32.toUInt64.toInt64 = x ↔
      x.toUInt64.toUInt32.toUInt64 = x.toUInt64 :=
    ⟨congrArg Int64.toUInt64, congrArg UInt64.toInt64⟩
  rw [hunsigned, toUInt64_toUInt32_iff, hsigned, Int.bmod_def]
  omega

/-- The attributes after the wire: four fields are those that the message has kept, and the
others are unchanged. -/
theorem fillStat_fillStructStat (old : Stat) (buf : StructStat) (st : Stat) :
    fillStat old (fillStructStat buf st) = { st with
      dev := st.dev.toUInt32.toInt32.toInt64.toUInt64
      nlink := st.nlink.toUInt32.toUInt64
      rdev := st.rdev.toUInt32.toInt32.toInt64.toUInt64
      blksize := st.blksize.toUInt64.toUInt32.toUInt64.toInt64 } := by
  simp [fillStat, fillStructStat]

/-- **Attributes on the wire.** A `struct stat` comes back equal if its device numbers repeat
their sign in the upper half, and its link count and block size fit 32 bits. -/
theorem fillStat_eq_iff (old : Stat) (buf : StructStat) (st : Stat) :
    fillStat old (fillStructStat buf st) = st ↔
      (st.dev.toNat < 2 ^ 31 ∨ 2 ^ 64 - 2 ^ 31 ≤ st.dev.toNat) ∧
      (st.rdev.toNat < 2 ^ 31 ∨ 2 ^ 64 - 2 ^ 31 ≤ st.rdev.toNat) ∧
      st.nlink.toNat < 2 ^ 32 ∧ 0 ≤ st.blksize.toInt ∧ st.blksize.toInt < 2 ^ 32 := by
  rw [fillStat_fillStructStat, ← toUInt64_toInt32_iff, ← toUInt64_toInt32_iff,
    ← toUInt64_toUInt32_iff, ← toInt64_toUInt32_iff]
  constructor
  · intro h
    exact ⟨congrArg Stat.dev h, congrArg Stat.rdev h, congrArg Stat.nlink h, congrArg Stat.blksize h⟩
  · rintro ⟨hdev, hrdev, hnlink, hblksize⟩
    rw [hdev, hrdev, hnlink, hblksize]

/-- The special file of the device with major number 8 and minor number 524288. -/
def deviceNode : Stat := { (default : Stat) with mode := 0o60000, nlink := 1, rdev := 0x80000800 }

/-- Its device number comes back with the upper half set. -/
theorem fillStat_deviceNode :
    fillStat default (fillStructStat default deviceNode) ≠ deviceNode ∧
      (fillStat default (fillStructStat default deviceNode)).rdev = 0xffffffff80000800 := by
  decide

/-- **File system statistics on the wire.** A `struct statvfs` comes back equal if each of its
six counts of blocks and files fits 32 bits. -/
theorem fillStatvfs_eq_iff (old : Statvfs) (buf : StructStatvfs) (st : Statvfs) :
    fillStatvfs old (fillStructStatvfs buf st) = st ↔
      ∀ count ∈ [st.blocks, st.bfree, st.bavail, st.files, st.ffree, st.favail],
        count.toNat < 2 ^ 32 := by
  have hfill : fillStatvfs old (fillStructStatvfs buf st) = { st with
      blocks := st.blocks.toUInt32.toUInt64
      bfree := st.bfree.toUInt32.toUInt64
      bavail := st.bavail.toUInt32.toUInt64
      files := st.files.toUInt32.toUInt64
      ffree := st.ffree.toUInt32.toUInt64
      favail := st.favail.toUInt32.toUInt64 } := rfl
  simp only [hfill, List.forall_mem_cons, List.not_mem_nil, ← toUInt64_toUInt32_iff]
  constructor
  · intro h
    exact ⟨congrArg Statvfs.blocks h, congrArg Statvfs.bfree h, congrArg Statvfs.bavail h,
      congrArg Statvfs.files h, congrArg Statvfs.ffree h, congrArg Statvfs.favail h, by simp⟩
  · rintro ⟨hblocks, hbfree, hbavail, hfiles, hffree, hfavail, -⟩
    rw [hblocks, hbfree, hbavail, hfiles, hffree, hfavail]

/-- A file system of `2 ^ 32` blocks of 4096 bytes, 16 TiB. -/
def largeVolume : Statvfs := { (default : Statvfs) with
  bsize := 4096, frsize := 4096, blocks := 0x100000000, bfree := 0x80000000, bavail := 0x80000000 }

/-- It comes back without a block. -/
theorem fillStatvfs_largeVolume :
    fillStatvfs default (fillStructStatvfs default largeVolume) ≠ largeVolume ∧
      (fillStatvfs default (fillStructStatvfs default largeVolume)).blocks = 0 := by
  decide

end RSafeFS.Rpc
