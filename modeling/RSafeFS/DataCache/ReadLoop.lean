import RSafeFS.DataCache.Cache

/-!
# The loop of the data cache's `read`

One iteration either copies from the block at the current position, or puts that block
into the cache, or ends the call. The iteration lemma says so over a predicate that all
cached blocks satisfy, so that every use chooses the predicate it needs. Each block takes
at most two iterations, which bounds the loop for every layer below.
-/

namespace RSafeFS.DataCache

open ByteFile

variable {σ ρ : Type} {config : DataCacheConfig} {policy : EvictionPolicy Key ρ}
  {lower : ReadLayer σ} {path : PathName} {size offset : ℕ} {fi : FuseFileInfo} {w : σ}
  {mtime : Timespec} {clock : ℤ × ℤ}

/-- Every cached block satisfies the predicate. -/
def AllBlocks (P : Key → Block → Prop) (c : Cache ρ) : Prop :=
  ∀ key b, c.cache.lookup key = some b → P key b

/-- The block holds its slice of the contents. -/
structure Block.Holds (b : Block) (blockSize id : ℕ) (content : Bytes) : Prop where
  offset : b.offset = id * blockSize
  length : b.buf.length = blockSize
  size : b.size = (pread content blockSize (id * blockSize)).length
  bytes : b.buf.take b.size = pread content blockSize (id * blockSize)

/-- An open leaves the blocks as they are. -/
@[simp] theorem open_cache (c : Cache ρ) : (c.open lower path fi w).2.1.cache = c.cache := by
  unfold Cache.open
  dsimp only
  split
  · rfl
  · split <;> rfl

@[simp] theorem open_world (c : Cache ρ) :
    (c.open lower path fi w).2.2 = (lower.open path fi w).2 := by
  unfold Cache.open
  dsimp only
  split
  · rfl
  · split <;> rfl

@[simp] theorem touch_cache (key : Key) (c : Cache ρ) : (c.touch policy key).cache = c.cache := rfl

@[simp] theorem removeBlock_mtimes (key : Key) (c : Cache ρ) :
    (c.removeBlock config key).mtimes = c.mtimes := by
  unfold Cache.removeBlock
  split <;> rfl

@[simp] theorem makeRoom_mtimes (c : Cache ρ) : (c.makeRoom config policy).mtimes = c.mtimes := by
  unfold Cache.makeRoom
  split
  · split
    · exact removeBlock_mtimes _ _
    · rfl
  · rfl

/-- Making room only loses blocks. -/
theorem lookup_of_makeRoom {k : Key} {c : Cache ρ} {b : Block}
    (h : (c.makeRoom config policy).cache.lookup k = some b) : c.cache.lookup k = some b := by
  unfold Cache.makeRoom at h
  split at h
  · split at h
    · next selected state _ =>
      exact (lookup_removeBlock (c := { c with policyState := state })).mp h |>.2
    · exact h
  · exact h

/-- Making room does not bring a block back. -/
theorem lookup_makeRoom_eq_none (config : DataCacheConfig) (policy : EvictionPolicy Key ρ)
    {k : Key} {c : Cache ρ} (h : c.cache.lookup k = none) :
    (c.makeRoom config policy).cache.lookup k = none := by
  rw [Option.eq_none_iff_forall_ne_some]
  intro b hb
  simp [lookup_of_makeRoom hb] at h

/-- A key that is absent is there once it is emplaced. -/
theorem tryEmplace_of_none (config : DataCacheConfig) {key : Key} (b : Block) {c : Cache ρ}
    (h : c.cache.lookup key = none) :
    (c.tryEmplace config key b).cache = c.cache.insert key b ∧
      (c.tryEmplace config key b).mtimes = c.mtimes := by
  simp [Cache.tryEmplace, h]

/-- A predicate of all blocks survives the insertion of a block that satisfies it. -/
theorem AllBlocks.insert {P : Key → Block → Prop} {c c' : Cache ρ} (h : AllBlocks P c)
    {key : Key} {b : Block} (hb : P key b) (hc' : c'.cache = c.cache.insert key b) :
    AllBlocks P c' := by
  intro k b' hk
  rw [hc'] at hk
  by_cases hkey : k = key
  · subst hkey
    rw [AList.lookup_insert] at hk
    exact Option.some.inj hk ▸ hb
  · rw [AList.lookup_insert_ne hkey] at hk
    exact h k b' hk

/-- A block holding a slice of the contents has no more bytes than a block can have. -/
theorem Block.Holds.size_le {b : Block} {blockSize id : ℕ} {content : Bytes}
    (h : b.Holds blockSize id content) : b.size ≤ blockSize := by
  rw [h.size, length_pread]
  exact min_le_left _ _

/-- The block built from what an exact layer below reads holds its slice. -/
theorem holds_overlay (content : Bytes) {buf : Bytes} (id : ℕ) {blockSize : ℕ}
    (mtime : Timespec) (hbuf : buf.length = blockSize) (timestamp : ℤ) :
    (⟨overlay (pread content blockSize (id * blockSize)) buf,
      (pread content blockSize (id * blockSize)).length, id * blockSize, timestamp, mtime⟩ :
      Block).Holds blockSize id content where
  offset := rfl
  length := by
    rw [length_overlay _, hbuf]
    rw [length_pread, hbuf]
    exact min_le_left _ _
  size := rfl
  bytes := take_overlay _ _

/-- What one iteration does before the end of the request, over a predicate on blocks:
it copies from the block at the position, fetches that block, or finds the end of the file. -/
inductive BodyResult (config : DataCacheConfig) (policy : EvictionPolicy Key ρ)
    (P : Key → Block → Prop) (content : Bytes) (path : PathName) (size offset : ℕ)
    (mtime : Timespec) (clock : ℤ × ℤ) (c : Cache ρ) (out : Bytes) (id : ℕ) : ReadStep ρ → Prop
  | copied (b : Block) (c' : Cache ρ) (hall : AllBlocks P c') (hmtimes : c'.mtimes = c.mtimes)
      (hlookup : c'.cache.lookup (path, id) = some b)
      (hb : (c.cache.lookup (path, id) = some b ∧
          b.isValid config.timeOut mtime clock.1 = true) ∨
        (b.Holds config.blockSize id content ∧ b.mtime = mtime ∧ b.timestamp = clock.2 ∧
          ∀ old, c.cache.lookup (path, id) = some old →
            ¬ old.isValid config.timeOut mtime clock.1 = true)) :
      BodyResult config policy P content path size offset mtime clock c out id
        (copyBlock policy size offset (path, id) b (c', out))
  | fetched (b : Block) (c' : Cache ρ) (hall : AllBlocks P c') (hmtimes : c'.mtimes = c.mtimes)
      (hlookup : c'.cache.lookup (path, id) = some b) (hnone : c.cache.lookup (path, id) = none)
      (hholds : b.Holds config.blockSize id content) (hmtime : b.mtime = mtime)
      (htimestamp : b.timestamp = clock.2) :
      BodyResult config policy P content path size offset mtime clock c out id (.next (c', out))
  | ended (c' : Cache ρ) (hall : AllBlocks P c') (hmtimes : c'.mtimes = c.mtimes)
      (hnone : c.cache.lookup (path, id) = none) (hend : content.length ≤ id * config.blockSize) :
      BodyResult config policy P content path size offset mtime clock c out id
        (.done (.ret (toInt out.length) out, c'))

section Iteration

variable {P : Key → Block → Prop} {content : Bytes}

/-- The iteration for a cached block. -/
theorem readHit_result (hexact : ReadsExactly lower path content w)
    (hgeometry : ∀ id b, P (path, id) b →
      b.offset = id * config.blockSize ∧ b.buf.length = config.blockSize)
    (hfetch : ∀ id b, b.Holds config.blockSize id content → b.mtime = mtime →
      (0 < b.size ∨ ∃ old, P (path, id) old) → P (path, id) b)
    {c : Cache ρ} (hall : AllBlocks P c) {id : ℕ} {b : Block}
    (hb : c.cache.lookup (path, id) = some b) (out : Bytes) :
    BodyResult config policy P content path size offset mtime clock c out id
      (readHit config policy lower path size offset fi w mtime clock (path, id) b (c, out)) := by
  have hP := hall _ _ hb
  unfold readHit
  by_cases hvalid : b.isValid config.timeOut mtime clock.1 = true
  · simp only [hvalid, if_true]
    exact .copied b c hall rfl hb (Or.inl ⟨hb, hvalid⟩)
  · obtain ⟨hoffset, hlength⟩ := hgeometry id b hP
    have hnonneg : ¬ (((pread content config.blockSize (id * config.blockSize)).length : ℕ) : ℤ) < 0 :=
      by omega
    simp only [hvalid, hoffset, hexact _ _ _, hnonneg, if_false, Int.toNat_natCast]
    have hholds := holds_overlay content id mtime hlength clock.2
    have hnew := hfetch id _ hholds rfl (Or.inr ⟨b, hP⟩)
    refine .copied _ { c with cache := c.cache.insert (path, id) _ } (hall.insert hnew rfl) rfl
      (AList.lookup_insert c.cache) (Or.inr ⟨hholds, rfl, rfl, fun old hold => ?_⟩)
    rwa [← Option.some.inj (hb.symm.trans hold)]

/-- The iteration for a block that is not cached. -/
theorem readMiss_result (hexact : ReadsExactly lower path content w)
    (hfetch : ∀ id b, b.Holds config.blockSize id content → b.mtime = mtime →
      (0 < b.size ∨ ∃ old, P (path, id) old) → P (path, id) b)
    {c : Cache ρ} (hall : AllBlocks P c) {id : ℕ} (hbs : 0 < config.blockSize)
    (hnone : c.cache.lookup (path, id) = none) (out : Bytes) :
    BodyResult config policy P content path size offset mtime clock c out id
      (readMiss config policy lower path fi w mtime clock (path, id) (c, out)) := by
  have hallRoom : AllBlocks P (c.makeRoom config policy) :=
    fun k b hk => hall k b (lookup_of_makeRoom hk)
  have hnoneRoom := lookup_makeRoom_eq_none config policy hnone
  have hnonneg : ¬ (((pread content config.blockSize (id * config.blockSize)).length : ℕ) : ℤ) < 0 :=
    by omega
  unfold readMiss
  simp only [hexact _ _ _, hnonneg, if_false, Int.toNat_natCast]
  by_cases hzero : (((pread content config.blockSize (id * config.blockSize)).length : ℕ) : ℤ) = 0
  · simp only [hzero, if_true]
    refine .ended _ hallRoom (makeRoom_mtimes c) hnone ?_
    rw [length_pread] at hzero
    omega
  · simp only [hzero, if_false]
    have hholds := holds_overlay content id mtime
      (List.length_replicate (n := config.blockSize) (a := (0 : UInt8))) clock.2
    have hnew := hfetch id _ hholds rfl (Or.inl (by dsimp only; omega))
    obtain ⟨hcache, hmtimes⟩ := tryEmplace_of_none config _ hnoneRoom
    refine .fetched _ _ (hallRoom.insert hnew hcache) (hmtimes.trans (makeRoom_mtimes c)) ?_
      hnone hholds rfl rfl
    rw [touch_cache, hcache, AList.lookup_insert]

/-- **One iteration.** Over an exact layer below, an iteration short of the requested
size gives one of the three results, at the block of the current position. -/
theorem readBody_result (policy : EvictionPolicy Key ρ) (offset : ℕ) (fi : FuseFileInfo)
    (mtime : Timespec) (clock : ℤ × ℤ) (hexact : ReadsExactly lower path content w)
    (hgeometry : ∀ id b, P (path, id) b →
      b.offset = id * config.blockSize ∧ b.buf.length = config.blockSize)
    (hfetch : ∀ id b, b.Holds config.blockSize id content → b.mtime = mtime →
      (0 < b.size ∨ ∃ old, P (path, id) old) → P (path, id) b)
    {c : Cache ρ} (hall : AllBlocks P c) (hbs : 0 < config.blockSize) {out : Bytes}
    (hout : out.length ≠ size) :
    BodyResult config policy P content path size offset mtime clock c out
      ((offset + out.length) / config.blockSize)
      (readBody config policy lower path size offset fi w mtime clock (c, out)) := by
  unfold readBody
  simp only [hout, if_false, Nat.ne_of_gt hbs]
  split
  · next b hb => exact readHit_result hexact hgeometry hfetch hall hb out
  · next hnone => exact readMiss_result hexact hfetch hall hbs hnone out

end Iteration

/-- Once the requested size is reached, the call ends. -/
theorem readBody_of_eq {c : Cache ρ} {out : Bytes} (hout : out.length = size) :
    readBody config policy lower path size offset fi w mtime clock (c, out) =
      .done (.ret (toInt out.length) out, c) := by
  simp [readBody, hout]

/-- The block at a position starts at or before it and reaches behind it. -/
theorem position_in_block {blockSize : ℕ} (h : 0 < blockSize) (position : ℕ) :
    position / blockSize * blockSize ≤ position ∧
      position - position / blockSize * blockSize < blockSize := by
  have hmod := Nat.mod_lt position h
  have hdiv := Nat.div_add_mod position blockSize
  rw [Nat.mul_comm] at hdiv
  omega

/-- A valid block carries the modification time it was checked against. -/
theorem mtime_eq_of_isValid {b : Block} {timeOut now : ℤ}
    (h : b.isValid timeOut mtime now = true) : b.mtime = mtime := by
  unfold Block.isValid at h
  split at h
  · cases h
  · next hne =>
    simp only [not_or, not_not] at hne
    cases hm : b.mtime
    cases mtime
    simp_all

/-- Inside its size, a block that holds a slice of the contents has the bytes of the contents. -/
theorem Block.Holds.copy {b : Block} {blockSize id skip n : ℕ} {content : Bytes}
    (h : b.Holds blockSize id content) (hn : skip + n ≤ b.size) :
    (b.buf.drop skip).take n = pread content n (id * blockSize + skip) :=
  drop_take_of_take_eq h.bytes hn (Nat.le_trans hn h.size_le)

/-- A copy leaves the blocks and the recorded modification times as they are. -/
theorem copyBlock_sat {I : ReadState ρ → Prop} {Q : Outcome × Cache ρ → Prop} {b : Block}
    {key : Key} {c : Cache ρ} {out : Bytes} (hI : ∀ out', I (c.touch policy key, out'))
    (hQ : ∀ outcome, Q (outcome, c)) :
    (copyBlock policy size offset key b (c, out)).Sat I Q := by
  unfold copyBlock
  dsimp only
  split
  · exact hQ _
  · split
    · exact hI _
    · exact hQ _

/-- The copy from a block whose bytes reach the position: as many bytes as the block
and the request allow, and the end of the call if there are none. -/
theorem copyBlock_of_le {b : Block} {c : Cache ρ} {out : Bytes} {key : Key}
    (hout : out.length ≤ size) (hposition : offset + out.length - b.offset ≤ b.size)
    (hsize : b.size ≤ b.buf.length) :
    copyBlock policy size offset key b (c, out) =
      if min (size - out.length) (b.size - (offset + out.length - b.offset)) = 0 then
        .done (.ret (toInt out.length) out, c)
      else .next (c.touch policy key, out ++ (b.buf.drop (offset + out.length - b.offset)).take
        (min (size - out.length) (b.size - (offset + out.length - b.offset)))) := by
  unfold copyBlock
  simp only [sizeSub_of_le hout, sizeSub_of_le hposition]
  split
  · rfl
  · rw [if_pos (by omega)]

/-- How far the loop is from its end: two for each missing byte, less one if the
block at the position is cached. -/
def readMeasure (config : DataCacheConfig) (path : PathName) (size offset : ℕ)
    (s : ReadState ρ) : ℕ :=
  2 * (size - s.2.length) +
    if (s.1.cache.lookup (path, (offset + s.2.length) / config.blockSize)).isSome then 0 else 1

/-- A copy that goes on has added bytes, and not more than requested. -/
theorem copyBlock_next {b : Block} {s t : ReadState ρ} {key : Key} (hout : s.2.length ≤ size)
    (h : copyBlock policy size offset key b s = .next t) :
    s.2.length < t.2.length ∧ t.2.length ≤ size := by
  obtain ⟨c, out⟩ := s
  unfold copyBlock at h
  dsimp only at h hout
  split at h
  · cases h
  · split at h
    · next hn hle =>
      cases h
      simp only [sizeSub_of_le hout] at hn hle ⊢
      simp only [List.length_append, List.length_take, List.length_drop]
      omega
    · cases h

/-- Every iteration that goes on comes closer to the end, whatever the layer below does. -/
theorem readBody_next {s t : ReadState ρ} (hout : s.2.length ≤ size)
    (h : readBody config policy lower path size offset fi w mtime clock s = .next t) :
    t.2.length ≤ size ∧
      readMeasure config path size offset t < readMeasure config path size offset s := by
  obtain ⟨c, out⟩ := s
  have hcopied {c' : Cache ρ} {b : Block} {key : Key}
      (hcopy : copyBlock policy size offset key b (c', out) = .next t) :
      t.2.length ≤ size ∧ readMeasure config path size offset t <
        readMeasure config path size offset (c, out) := by
    obtain ⟨hlt, hle⟩ := copyBlock_next (s := (c', out)) hout hcopy
    refine ⟨hle, ?_⟩
    simp only [readMeasure]
    split <;> split <;> dsimp only at * <;> omega
  unfold readBody at h
  dsimp only at h hout
  split at h
  · cases h
  split at h
  · cases h
  split at h
  · unfold readHit at h
    dsimp only at h
    split at h
    · exact hcopied h
    · split at h
      · cases h
      · exact hcopied h
  · next hnone =>
    unfold readMiss at h
    dsimp only at h
    split at h
    · cases h
    split at h
    · cases h
    cases h
    have hnoneRoom := lookup_makeRoom_eq_none config policy hnone
    refine ⟨hout, ?_⟩
    simp only [readMeasure, touch_cache, (tryEmplace_of_none config _ hnoneRoom).1,
      AList.lookup_insert, hnone]
    simp

/-- **Rule for the loop of `read`.** An invariant that every iteration keeps, up to a
result as required, gives such a result: the loop always ends, also over a layer below that
changes from one iteration to the next. -/
theorem run_readBody_rule {lower : ℕ → ReadLayer σ} {clock : ℕ → ℤ × ℤ} {I : ReadState ρ → Prop}
    {Q : Outcome × Cache ρ → Prop}
    (hbody : ∀ i s, I s → s.2.length ≤ size →
      (readBody config policy (lower i) path size offset fi w mtime (clock i) s).Sat I Q)
    {c : Cache ρ} (hI : I (c, [])) :
    ∃ r, Loop.run (fun i => readBody config policy (lower i) path size offset fi w mtime (clock i))
      (2 * size + 2) 0 (c, []) = some r ∧ Q r := by
  apply Loop.run_rule (I := fun s => I s ∧ s.2.length ≤ size)
    (m := readMeasure config path size offset)
  · rintro i s ⟨hs, hout⟩
    have hstep := hbody i s hs hout
    cases hcase : readBody config policy (lower i) path size offset fi w mtime (clock i) s with
    | next t =>
      rw [hcase] at hstep
      obtain ⟨hle, hlt⟩ := readBody_next hout hcase
      exact ⟨⟨hstep, hle⟩, hlt⟩
    | done r =>
      rw [hcase] at hstep
      exact hstep
  · exact ⟨hI, Nat.zero_le _⟩
  · simp only [readMeasure, List.length_nil]
    split <;> omega

/-- The rule over a layer below that stays as it is. -/
theorem readLoop_rule {clock : ℕ → ℤ × ℤ} {I : ReadState ρ → Prop} {Q : Outcome × Cache ρ → Prop}
    (hbody : ∀ i s, I s → s.2.length ≤ size →
      (readBody config policy lower path size offset fi w mtime (clock i) s).Sat I Q)
    {c : Cache ρ} (hI : I (c, [])) :
    ∃ r, readLoop config policy lower path size offset fi w mtime clock c = some r ∧ Q r :=
  run_readBody_rule hbody hI

/-- The block that a read of the layer below has filled. -/
def Block.filled (lower : ReadLayer σ) (config : DataCacheConfig) (path : PathName)
    (fi : FuseFileInfo) (w : σ) (mtime : Timespec) (now : ℤ) (buf : Bytes) (offset : ℕ) : Block where
  buf := overlay (lower.read path config.blockSize offset fi w).2 buf
  size := (lower.read path config.blockSize offset fi w).1.toNat
  offset := offset
  timestamp := now
  mtime := mtime

/-- One iteration keeps a predicate of all blocks that every block it fills satisfies. -/
theorem readBody_keeps {P : Key → Block → Prop} {mtimes : AList fun _ : PathName => Timespec}
    (hrefill : ∀ id b now, P (path, id) b →
      0 ≤ (lower.read path config.blockSize b.offset fi w).1 →
      P (path, id) (.filled lower config path fi w mtime now b.buf b.offset))
    (hfill : ∀ id now, 0 < (lower.read path config.blockSize (id * config.blockSize) fi w).1 →
      P (path, id) (.filled lower config path fi w mtime now (List.replicate config.blockSize 0)
        (id * config.blockSize)))
    {c : Cache ρ} {out : Bytes} (hall : AllBlocks P c) (hmtimes : c.mtimes = mtimes) :
    (readBody config policy lower path size offset fi w mtime clock (c, out)).Sat
      (fun t => AllBlocks P t.1 ∧ t.1.mtimes = mtimes)
      (fun r => AllBlocks P r.2 ∧ r.2.mtimes = mtimes) := by
  have hkept : AllBlocks P c ∧ c.mtimes = mtimes := ⟨hall, hmtimes⟩
  unfold readBody
  dsimp only
  split
  · exact hkept
  split
  · exact hkept
  split
  · next b hb =>
    have hP := hall _ b hb
    unfold readHit
    dsimp only
    split
    · exact copyBlock_sat (fun _ => hkept) fun _ => hkept
    · split
      · exact ⟨fun k b' hk => hall k b' ((lookup_removeBlock.mp hk).2),
          (removeBlock_mtimes _ c).trans hmtimes⟩
      · next hres =>
        have hnew := hrefill _ b clock.2 hP (Int.not_lt.mp hres)
        exact copyBlock_sat (fun _ => ⟨hall.insert hnew rfl, hmtimes⟩)
          fun _ => ⟨hall.insert hnew rfl, hmtimes⟩
  · next hnone =>
    have hroom : AllBlocks P (c.makeRoom config policy) :=
      fun k b hk => hall k b (lookup_of_makeRoom hk)
    have hroomMtimes : (c.makeRoom config policy).mtimes = mtimes :=
      (makeRoom_mtimes c).trans hmtimes
    unfold readMiss
    dsimp only
    split
    · exact ⟨hroom, hroomMtimes⟩
    split
    · exact ⟨hroom, hroomMtimes⟩
    · next hnonneg hne =>
      have hnew := hfill _ clock.2 (lt_of_le_of_ne (Int.not_lt.mp hnonneg) (Ne.symm hne))
      obtain ⟨hcache, hsame⟩ := tryEmplace_of_none config _
        (lookup_makeRoom_eq_none config policy hnone)
      exact ⟨hroom.insert hnew hcache, hsame.trans hroomMtimes⟩

/-- A read through the cache keeps a predicate of all blocks that every block it fills
satisfies, and the recorded modification times. -/
theorem read_keeps {P : Key → Block → Prop} {clock : ℕ → ℤ × ℤ} {c c' : Cache ρ}
    {outcome : Outcome}
    (hrefill : ∀ mtime, c.mtimes.lookup path = some mtime → ∀ id b now, P (path, id) b →
      0 ≤ (lower.read path config.blockSize b.offset fi w).1 →
      P (path, id) (.filled lower config path fi w mtime now b.buf b.offset))
    (hfill : ∀ mtime, c.mtimes.lookup path = some mtime → ∀ id now,
      0 < (lower.read path config.blockSize (id * config.blockSize) fi w).1 →
      P (path, id) (.filled lower config path fi w mtime now (List.replicate config.blockSize 0)
        (id * config.blockSize)))
    (hall : AllBlocks P c)
    (hread : c.read config policy lower path size offset fi clock w = some (outcome, c')) :
    AllBlocks P c' ∧ c'.mtimes = c.mtimes := by
  unfold Cache.read at hread
  split at hread
  · cases hread
    exact ⟨hall, rfl⟩
  · next mtime hmtime =>
    have hloop : ∃ r, readLoop config policy lower path size offset fi w mtime clock c = some r ∧
        AllBlocks P r.2 ∧ r.2.mtimes = c.mtimes := by
      refine readLoop_rule (I := fun t => AllBlocks P t.1 ∧ t.1.mtimes = c.mtimes) ?_ ⟨hall, rfl⟩
      rintro i ⟨c₁, out⟩ ⟨hall₁, hmtimes₁⟩ _
      exact readBody_keeps (hrefill mtime hmtime) (hfill mtime hmtime) hall₁ hmtimes₁
    obtain ⟨r, hrun, hr⟩ := hloop
    rw [hrun] at hread
    obtain rfl := Option.some.inj hread
    exact hr

/-- The block that an exact layer below has filled holds its slice. -/
theorem holds_filled {content : Bytes} (hexact : ReadsExactly lower path content w) {id : ℕ}
    {buf : Bytes} (hbuf : buf.length = config.blockSize) (now : ℤ) :
    (Block.filled lower config path fi w mtime now buf (id * config.blockSize)).Holds
      config.blockSize id content := by
  unfold Block.filled
  rw [hexact _ _ _]
  exact holds_overlay content id mtime hbuf now

/-- Over an exact layer below, a read keeps a predicate of all blocks that what it fetches
satisfies, and the recorded modification times. -/
theorem read_preserves {P : Key → Block → Prop} {content : Bytes} {clock : ℕ → ℤ × ℤ}
    (hexact : ReadsExactly lower path content w)
    (hgeometry : ∀ id b, P (path, id) b →
      b.offset = id * config.blockSize ∧ b.buf.length = config.blockSize)
    {c c' : Cache ρ} {outcome : Outcome}
    (hfetch : ∀ id b, b.Holds config.blockSize id content → c.mtimes.lookup path = some b.mtime →
      (0 < b.size ∨ ∃ old, P (path, id) old) → P (path, id) b)
    (hall : AllBlocks P c)
    (hread : c.read config policy lower path size offset fi clock w = some (outcome, c')) :
    AllBlocks P c' ∧ c'.mtimes = c.mtimes := by
  refine read_keeps (fun mtime hmtime id b now hP _ => ?_) (fun mtime hmtime id now hpos => ?_)
    hall hread
  · obtain ⟨hoffset, hlength⟩ := hgeometry id b hP
    rw [hoffset]
    exact hfetch id _ (holds_filled hexact hlength now) hmtime (Or.inr ⟨b, hP⟩)
  · refine hfetch id _ (holds_filled hexact List.length_replicate now) hmtime (Or.inl ?_)
    exact Int.lt_toNat.mpr hpos

end RSafeFS.DataCache
