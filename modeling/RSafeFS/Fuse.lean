import RSafeFS.Lib.ByteFile
import Mathlib.Algebra.Order.Ring.Int

/-!
# The FUSE interface

The data types that every layer of RSafeFS shares: the slots of `fuse_operations`,
the structures passed through them, and path names. Integers of the C interface are
unbounded here; where a conversion or a wrap-around of the code matters, the
definition of the function spells it out.
-/

namespace RSafeFS

/-- A `const char *` path, as the characters before its terminating NUL. -/
abbrev PathName := List Char

/-- The slots of `struct fuse_operations`. -/
inductive Op where
  | getattr | readlink | getdir | mknod | mkdir | unlink | rmdir | symlink | rename | link
  | chmod | chown | truncate | utime | «open» | read | write | statfs | flush | release | fsync
  | setxattr | getxattr | listxattr | removexattr | opendir | readdir | releasedir | fsyncdir
  | init | destroy | access | create | ftruncate | fgetattr | lock | utimens | bmap | ioctl
  | poll | writeBuf | readBuf | flock | fallocate
  deriving DecidableEq, Repr

/-- `struct timespec`. -/
structure Timespec where
  tvSec : ℤ
  tvNsec : ℤ
  deriving DecidableEq, Repr, Inhabited

/-- `struct stat`, with the fields that the RPC structures carry. -/
structure Stat where
  dev : ℕ
  ino : ℕ
  mode : ℕ
  nlink : ℕ
  uid : ℕ
  gid : ℕ
  rdev : ℕ
  size : ℕ
  blksize : ℕ
  blocks : ℕ
  atim : Timespec
  mtim : Timespec
  ctim : Timespec
  deriving DecidableEq, Repr, Inhabited

/-- `struct fuse_file_info`. -/
structure FuseFileInfo where
  flags : ℤ
  fhOld : ℕ
  writepage : ℤ
  directIo : ℕ
  keepCache : ℕ
  flush : ℕ
  nonseekable : ℕ
  flockRelease : ℕ
  padding : ℕ
  fh : ℕ
  lockOwner : ℕ
  deriving DecidableEq, Repr, Inhabited

/-- Subtraction of `size_t` values, which wraps around modulo `2 ^ 64`. -/
def sizeSub (a b : ℕ) : ℕ := if b ≤ a then a - b else 2 ^ 64 - (b - a)

@[simp] theorem sizeSub_of_le {a b : ℕ} (h : b ≤ a) : sizeSub a b = a - b := by
  simp [sizeSub, h]

theorem sizeSub_of_lt {a b : ℕ} (h : a < b) : sizeSub a b = 2 ^ 64 - (b - a) := by
  simp [sizeSub, Nat.not_le.mpr h]

/-- Conversion of a `size_t` to the `int` that an operation returns. -/
def toInt (n : ℕ) : ℤ := Int.bmod n (2 ^ 32)

/-- A count of at most `INT_MAX` survives the conversion to `int`. -/
theorem toInt_of_le {n : ℕ} (h : n ≤ 2 ^ 31 - 1) : toInt n = n := by
  apply Int.bmod_eq_of_le <;> omega

end RSafeFS
