import RSafeFS.Cache.EvictionPolicy
import RSafeFS.Cache.ReadLayer
import RSafeFS.Config.Layers
import RSafeFS.Lib.Loop

/-!
# The data cache

`data_cache::cache` keeps blocks of files. A block carries the modification time that
the file had when its path was opened and the time of its last fetch. One call of an
operation runs at a time.
-/

namespace RSafeFS.DataCache

/-- `data_cache::key`: a path and a block number. -/
abbrev Key := PathName × ℕ

/-- `cache::block`. The buffer has `block_size_` bytes, of which the first `size` are
the file's. -/
structure Block where
  buf : Bytes
  size : ℕ
  offset : ℕ
  timestamp : ℤ
  mtime : Timespec
  deriving DecidableEq, Repr

/-- `block::is_valid`, with the clock reading it makes in nanoseconds. -/
def Block.isValid (b : Block) (timeOut : ℤ) (currentFileMtime : Timespec) (now : ℤ) : Bool :=
  if b.mtime.tvSec ≠ currentFileMtime.tvSec ∨ b.mtime.tvNsec ≠ currentFileMtime.tvNsec then false
  else if timeOut > 0 then decide ((now - b.timestamp).tdiv 1000000000 < timeOut) else true

/-- `data_cache::cache`: the maps `cache_` and `mtimes_`, the counter `cache_size_` and
the state of the eviction policy. -/
structure Cache (ρ : Type) where
  cache : AList fun _ : Key => Block
  cacheSize : ℕ
  mtimes : AList fun _ : PathName => Timespec
  policyState : ρ

/-- The cache as constructed, with the policy in some state. -/
def Cache.empty {ρ : Type} (policyState : ρ) : Cache ρ := ⟨∅, 0, ∅, policyState⟩

variable {σ ρ : Type} (config : DataCacheConfig) (policy : EvictionPolicy Key ρ)
  (lower : ReadLayer σ)

/-- `cache::open`. -/
def Cache.open (path : PathName) (fi : FuseFileInfo) (c : Cache ρ) (w : σ) :
    (ℤ × FuseFileInfo) × Cache ρ × σ :=
  let ((res, fi), w) := lower.open path fi w
  if res < 0 then ((res, fi), c, w)
  else
    let (attrRes, stbuf) := lower.getattr path w
    if attrRes < 0 then ((attrRes, fi), c, w)
    else ((0, fi), { c with mtimes := c.mtimes.insert path stbuf.mtim }, w)

/-- `cache::release`. -/
def Cache.release (path : PathName) (fi : FuseFileInfo) (c : Cache ρ) (w : σ) :
    ℤ × Cache ρ × σ :=
  let (res, w) := lower.release path fi w
  (res, { c with mtimes := c.mtimes.erase path }, w)

/-- `cache::remove_block`. -/
def Cache.removeBlock (key : Key) (c : Cache ρ) : Cache ρ :=
  match c.cache.lookup key with
  | some _ =>
    { c with cache := c.cache.erase key, cacheSize := sizeSub c.cacheSize config.blockSize }
  | none => c

/-- The call of the policy's `touch` that ends an iteration. -/
def Cache.touch (key : Key) (c : Cache ρ) : Cache ρ :=
  { c with policyState := policy.touch key c.policyState }

/-- The eviction before a block is added to a full cache. -/
def Cache.makeRoom (c : Cache ρ) : Cache ρ :=
  if c.cacheSize > config.size then
    match policy.evict c.policyState with
    | (some selected, state) => { c with policyState := state }.removeBlock config selected
    | (none, state) => { c with policyState := state }
  else c

/-- `cache_.try_emplace`, with the count of the bytes held. -/
def Cache.tryEmplace (key : Key) (b : Block) (c : Cache ρ) : Cache ρ :=
  match c.cache.lookup key with
  | some _ => c
  | none =>
    { c with
      cache := c.cache.insert key b
      cacheSize := (c.cacheSize + config.blockSize) % 2 ^ 64 }

/-- The state of the loop of `read`: the cache and the bytes copied so far, whose
number is `readed`. The position `seeker` is `offset + readed`. -/
abbrev ReadState (ρ : Type) := Cache ρ × Bytes

/-- One iteration goes on or ends the call. -/
abbrev ReadStep (ρ : Type) := Loop.Step (ReadState ρ) (Outcome × Cache ρ)

/-- The copy out of a block. Both subtractions are of unsigned values. Reading past
the buffer is undefined. -/
def copyBlock (size offset : ℕ) (key : Key) (b : Block) (s : ReadState ρ) : ReadStep ρ :=
  let (c, out) := s
  let readed := out.length
  let offsetInTheBlock := offset + readed - b.offset
  let nBytesToCopy := min (sizeSub size readed) (sizeSub b.size offsetInTheBlock)
  if nBytesToCopy = 0 then .done (.ret (toInt readed) out, c)
  else if offsetInTheBlock + nBytesToCopy ≤ b.buf.length then
    .next (c.touch policy key, out ++ (b.buf.drop offsetInTheBlock).take nBytesToCopy)
  else .done (.undefined, c)

/-- The iteration for a block that is in the cache, with the clock readings for its
check and for its update. -/
def readHit (path : PathName) (size offset : ℕ) (fi : FuseFileInfo) (w : σ) (mtime : Timespec)
    (clock : ℤ × ℤ) (key : Key) (b : Block) (s : ReadState ρ) : ReadStep ρ :=
  let (c, out) := s
  if b.isValid config.timeOut mtime clock.1 then copyBlock policy size offset key b (c, out)
  else
    let (res, data) := lower.read path config.blockSize b.offset fi w
    if res < 0 then
      let c := c.removeBlock config key
      .done (.ret res out, { c with policyState := policy.remove key c.policyState })
    else
      let b := { b with buf := overlay data b.buf, size := res.toNat, timestamp := clock.2, mtime }
      copyBlock policy size offset key b ({ c with cache := c.cache.insert key b }, out)

/-- The iteration for a block that is not in the cache. -/
def readMiss (path : PathName) (fi : FuseFileInfo) (w : σ) (mtime : Timespec) (clock : ℤ × ℤ)
    (key : Key) (s : ReadState ρ) : ReadStep ρ :=
  let (c, out) := s
  let c := c.makeRoom config policy
  let blockOffset := key.2 * config.blockSize
  let newBuf := List.replicate config.blockSize 0
  let (res, data) := lower.read path config.blockSize blockOffset fi w
  if res < 0 then .done (.ret res out, c)
  else if res = 0 then .done (.ret (toInt out.length) out, c)
  else
    let b := ⟨overlay data newBuf, res.toNat, blockOffset, clock.2, mtime⟩
    .next ((c.tryEmplace config key b).touch policy key, out)

/-- One iteration of the loop of `cache::read`. Division by a block size of zero is
undefined. -/
def readBody (path : PathName) (size offset : ℕ) (fi : FuseFileInfo) (w : σ) (mtime : Timespec)
    (clock : ℤ × ℤ) (s : ReadState ρ) : ReadStep ρ :=
  let (c, out) := s
  if out.length = size then .done (.ret (toInt out.length) out, c)
  else if config.blockSize = 0 then .done (.undefined, c)
  else
    let key := (path, (offset + out.length) / config.blockSize)
    match c.cache.lookup key with
    | some b => readHit config policy lower path size offset fi w mtime clock key b (c, out)
    | none => readMiss config policy lower path fi w mtime clock key (c, out)

/-- The loop of `cache::read`, which makes at most two iterations for each byte and one
more. -/
def readLoop (path : PathName) (size offset : ℕ) (fi : FuseFileInfo) (w : σ) (mtime : Timespec)
    (clock : ℕ → ℤ × ℤ) (c : Cache ρ) : Option (Outcome × Cache ρ) :=
  Loop.run (fun i => readBody config policy lower path size offset fi w mtime (clock i))
    (2 * size + 2) 0 (c, [])

/-- `cache::read`. -/
def Cache.read (path : PathName) (size offset : ℕ) (fi : FuseFileInfo) (clock : ℕ → ℤ × ℤ)
    (c : Cache ρ) (w : σ) : Option (Outcome × Cache ρ) :=
  match c.mtimes.lookup path with
  | none =>
    let (res, data) := lower.read path size offset fi w
    some (.ret res data, c)
  | some mtime => readLoop config policy lower path size offset fi w mtime clock c

section Removal

variable {config : DataCacheConfig}

/-- The blocks that are left when one is removed. -/
theorem lookup_removeBlock {c : Cache ρ} {key k : Key} {b : Block} :
    (c.removeBlock config key).cache.lookup k = some b ↔ k ≠ key ∧ c.cache.lookup k = some b := by
  unfold Cache.removeBlock
  split
  · by_cases hk : k = key
    · subst hk
      simp
    · simp [AList.lookup_erase_ne hk, hk]
  · next hnone =>
    refine ⟨fun hb => ⟨?_, hb⟩, And.right⟩
    rintro rfl
    simp [hnone] at hb

/-- The keys that are left when a block is removed. -/
theorem mem_removeBlock {c : Cache ρ} {key k : Key} :
    k ∈ (c.removeBlock config key).cache ↔ k ≠ key ∧ k ∈ c.cache := by
  simp only [← AList.lookup_isSome, Option.isSome_iff_exists, lookup_removeBlock]
  exact ⟨fun ⟨b, hne, hb⟩ => ⟨hne, b, hb⟩, fun ⟨hne, b, hb⟩ => ⟨b, hne, hb⟩⟩

/-- The removal of a block does not reach the policy. -/
theorem removeBlock_policyState (config : DataCacheConfig) (c : Cache ρ) (key : Key) :
    (c.removeBlock config key).policyState = c.policyState := by
  unfold Cache.removeBlock
  split <;> rfl

end Removal

end RSafeFS.DataCache
