import RSafeFS.DataCache.Iterations

/-!
# The end of a read

However the layer below answers, an iteration of `read` that goes on adds bytes or caches the
block at the position, so a call ends within two iterations for each byte and one more. How it
ends depends on its last iteration. The copy subtracts the offset in the block from the size of
the block, and where the block is shorter this wraps around: the copy then takes all that is
left of the request, and may leave the buffer. And the count is converted to an `int`.
-/

namespace RSafeFS.DataCache

variable {σ ρ : Type}

/-- What an iteration finds: a block to copy from, with its size, a read of the layer below
that fails or is at the end of the file, or one that fetches a block. -/
inductive Found where
  | block (size : ℕ)
  | failed (res : ℤ)
  | endOfFile
  | fetched
  deriving DecidableEq, Repr

/-- What the iteration finds for a block number. -/
def found (config : DataCacheConfig) (lower : ReadLayer σ) (path : PathName) (fi : FuseFileInfo)
    (w : σ) (mtime : Timespec) (now : ℤ) (c : Cache ρ) (id : ℕ) : Found :=
  match c.cache.lookup (path, id) with
  | some b =>
    if b.isValid config.timeOut mtime now then .block b.size
    else
      let res := (lower.read path config.blockSize b.offset fi w).1
      if res < 0 then .failed res else .block res.toNat
  | none =>
    let res := (lower.read path config.blockSize (id * config.blockSize) fi w).1
    if res < 0 then .failed res else if res = 0 then .endOfFile else .fetched

variable {config : DataCacheConfig} {policy : EvictionPolicy Key ρ} {lower : ReadLayer σ}
  {path : PathName} {size offset : ℕ} {fi : FuseFileInfo} {w : σ} {mtime : Timespec}
  {clock : ℤ × ℤ} {c : Cache ρ} {out : Bytes}

/-- The call returns the number of bytes it has put into the buffer, at most what is asked for. -/
def Counts (size : ℕ) : Outcome → Prop
  | .ret res buf => res = buf.length ∧ buf.length ≤ size
  | .undefined => False

/-- A file is opened. -/
def opened (content : Bytes) : List (CacheAction Bytes) :=
  [.open oneFileLayer.toReadLayer ['/', 'f'] default content]

end RSafeFS.DataCache
