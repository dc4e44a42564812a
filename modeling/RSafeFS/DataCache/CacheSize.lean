import RSafeFS.DataCache.Iterations
import RSafeFS.Lib.AssocList

/-!
# The size of the data cache

`cache_size_` counts the bytes of the blocks. It is raised where a block is added, and lowered
in `remove_block`, for an evicted block or one whose fetch has failed. At most one block is
evicted before one is added. Every eviction takes a block that is there, since the eviction
policy holds the keys of the cache, and this bounds the size.
-/

namespace RSafeFS.DataCache

variable {σ ρ : Type}

/-- The number of blocks. -/
def Cache.blocks (c : Cache ρ) : ℕ := c.cache.keys.length

/-- The bytes of the blocks can be counted in a `size_t`: by the bound on the size, or because
the blocks are in memory. -/
def Cache.Fits (config : DataCacheConfig) (c : Cache ρ) : Prop :=
  config.size + config.blockSize < 2 ^ 64 ∨ config.blockSize * c.blocks < 2 ^ 64

/-- The counter is the number of bytes of the blocks, within its bound, and `remove_block`
subtracts from it without wrapping around. -/
structure Accounted (config : DataCacheConfig) (c : Cache ρ) : Prop where
  bound : c.cacheSize ≤ config.size + config.blockSize
  exact : c.Fits config → c.cacheSize = config.blockSize * c.blocks
  removal : c.Fits config → ∀ key ∈ c.cache,
    (c.removeBlock config key).cacheSize + config.blockSize = c.cacheSize

/-- The invariant of a run: the policy holds the keys of the cache, the counter is right up to
its wrapping around, and the bound holds where it can. -/
structure Tracked (config : DataCacheConfig) (valid : ρ → Prop) (holds : ρ → Key → Prop)
    (c : Cache ρ) : Prop where
  valid : valid c.policyState
  keys : ∀ k, holds c.policyState k ↔ k ∈ c.cache
  counted : c.cacheSize = config.blockSize * c.blocks % 2 ^ 64
  bounded : config.size + config.blockSize < 2 ^ 64 →
    config.blockSize * c.blocks ≤ config.size + config.blockSize

variable {config : DataCacheConfig} {policy : EvictionPolicy Key ρ} {valid : ρ → Prop}
  {holds : ρ → Key → Prop} {c c' : Cache ρ} {key : Key}

/-- A removal takes one block, and its bytes, away. -/
theorem removeBlock_of_mem (hsize : config.blockSize < 2 ^ 64)
    (hcounted : c.cacheSize = config.blockSize * c.blocks % 2 ^ 64) (hkey : key ∈ c.cache) :
    (c.removeBlock config key).blocks + 1 = c.blocks ∧
      (c.removeBlock config key).cacheSize =
        config.blockSize * (c.removeBlock config key).blocks % 2 ^ 64 := by
  obtain ⟨b, hb⟩ := Option.isSome_iff_exists.mp (AList.lookup_isSome.mpr hkey)
  have hremoved : c.removeBlock config key =
      { c with cache := c.cache.erase key, cacheSize := sizeSub c.cacheSize config.blockSize } := by
    simp only [Cache.removeBlock, hb]
  have hblocks : (c.removeBlock config key).blocks + 1 = c.blocks := by
    rw [hremoved]
    exact AList.length_keys_erase hkey
  refine ⟨hblocks, ?_⟩
  have htotal : config.blockSize * c.blocks =
      config.blockSize * (c.removeBlock config key).blocks + config.blockSize := by
    rw [← hblocks, Nat.mul_succ]
  rw [htotal] at hcounted
  have hcounter : (c.removeBlock config key).cacheSize = sizeSub c.cacheSize config.blockSize := by
    rw [hremoved]
  rw [hcounter, hcounted]
  unfold sizeSub
  split <;> omega

/-- The invariant gives what is promised of the counter. -/
theorem Tracked.accounted (h : Tracked config valid holds c) (hsize : config.blockSize < 2 ^ 64) :
    Accounted config c := by
  have hexact : c.Fits config → c.cacheSize = config.blockSize * c.blocks := by
    intro hfits
    rw [h.counted]
    apply Nat.mod_eq_of_lt
    rcases hfits with hbound | hmemory
    · exact Nat.lt_of_le_of_lt (h.bounded hbound) hbound
    · exact hmemory
  refine ⟨?_, hexact, fun hfits key hkey => ?_⟩
  · by_cases hbound : config.size + config.blockSize < 2 ^ 64
    · rw [hexact (Or.inl hbound)]
      exact h.bounded hbound
    · have hlt : c.cacheSize < 2 ^ 64 := by
        rw [h.counted]
        exact Nat.mod_lt _ (by decide)
      omega
  · obtain ⟨hblocks, hcounted⟩ := removeBlock_of_mem hsize h.counted hkey
    have hall := hexact hfits
    have htotal : config.blockSize * c.blocks =
        config.blockSize * (c.removeBlock config key).blocks + config.blockSize := by
      rw [← hblocks, Nat.mul_succ]
    have hlt : c.cacheSize < 2 ^ 64 := by
      rw [h.counted]
      exact Nat.mod_lt _ (by decide)
    rw [hcounted, Nat.mod_eq_of_lt (by omega), hall, htotal]

/-- A removal that the policy follows keeps the invariant. -/
theorem Tracked.removeBlock (h : Tracked config valid holds c) (hsize : config.blockSize < 2 ^ 64)
    {policyState : ρ} (hkey : key ∈ c.cache) (hvalid : valid policyState)
    (hholds : ∀ k, holds policyState k ↔ k ≠ key ∧ holds c.policyState k) :
    Tracked config valid holds { c.removeBlock config key with policyState } := by
  obtain ⟨hblocks, hcounted⟩ := removeBlock_of_mem hsize h.counted hkey
  refine ⟨hvalid, fun k => ?_, hcounted, fun hbound => ?_⟩
  · rw [hholds, h.keys]
    exact mem_removeBlock.symm
  · refine Nat.le_trans (Nat.mul_le_mul_left _ ?_) (h.bounded hbound)
    change (c.removeBlock config key).blocks ≤ c.blocks
    omega

/-- **Making room.** Where the bound can hold there is room for one more block. -/
theorem Tracked.makeRoom (h : Tracked config valid holds c) (hsize : config.blockSize < 2 ^ 64)
    (hlawful : policy.Lawful valid holds) (hfrees : policy.Frees valid holds) :
    Tracked config valid holds (c.makeRoom config policy) ∧
      (config.size + config.blockSize < 2 ^ 64 →
        config.blockSize * (c.makeRoom config policy).blocks ≤ config.size) := by
  unfold Cache.makeRoom
  split
  · next hfull =>
    split
    · next selected state hevict =>
      obtain ⟨hvalid, hholds⟩ := hlawful.evict _ _ _ h.valid hevict
      -- The policy takes the key of a block that is there.
      have hkey : selected ∈ c.cache := (h.keys selected).mp (hfrees.evicted _ _ _ h.valid hevict)
      have hremoved := h.removeBlock hsize hkey hvalid hholds
      have hsame : { c with policyState := state }.removeBlock config selected =
          { c.removeBlock config selected with policyState := state } := by
        unfold Cache.removeBlock
        dsimp only
        split <;> rfl
      rw [hsame]
      refine ⟨hremoved, fun hbound => ?_⟩
      have hall := h.bounded hbound
      rw [← (removeBlock_of_mem hsize h.counted hkey).1, Nat.mul_succ] at hall
      exact Nat.le_of_add_le_add_right hall
    · next state hevict =>
      -- A policy with no key is that of an empty cache, which is not full.
      have hempty : c.cache.keys = [] := List.eq_nil_iff_forall_not_mem.mpr fun k hk =>
        hfrees.exhausted _ _ h.valid hevict k ((h.keys k).mpr (AList.mem_keys.mpr hk))
      have hzero : c.cacheSize = 0 := by
        simp [h.counted, Cache.blocks, hempty]
      omega
  · next hroom =>
    refine ⟨h, fun hbound => ?_⟩
    have hexact := (h.accounted hsize).exact (Or.inl hbound)
    omega

/-- A touch of the key of a block keeps the invariant. -/
theorem Tracked.touch (h : Tracked config valid holds c) (hlawful : policy.Lawful valid holds)
    (hkey : key ∈ c.cache) : Tracked config valid holds (c.touch policy key) := by
  obtain ⟨hvalid, hholds⟩ := hlawful.touch key _ h.valid
  refine ⟨hvalid, fun k => (hholds k).trans ⟨?_, fun hk => Or.inr ((h.keys k).mpr hk)⟩,
    h.counted, h.bounded⟩
  rintro (rfl | hk)
  · exact hkey
  · exact (h.keys k).mp hk

/-- A new block, touched, keeps the invariant where there is room for it. -/
theorem Tracked.emplace (h : Tracked config valid holds c) (hlawful : policy.Lawful valid holds)
    (hnone : c.cache.lookup key = none) (b : Block)
    (hroom : config.size + config.blockSize < 2 ^ 64 →
      config.blockSize * c.blocks ≤ config.size) :
    Tracked config valid holds ((c.tryEmplace config key b).touch policy key) := by
  have hnot : key ∉ c.cache := AList.lookup_eq_none.mp hnone
  have hlength : (c.cache.insert key b).keys.length = c.blocks + 1 :=
    AList.length_keys_insert hnot b
  have hadded : c.tryEmplace config key b =
      { c with
        cache := c.cache.insert key b
        cacheSize := (c.cacheSize + config.blockSize) % 2 ^ 64 } := by
    simp only [Cache.tryEmplace, hnone]
  obtain ⟨hvalid, hholds⟩ := hlawful.touch key _ h.valid
  rw [hadded]
  refine ⟨hvalid, fun k => ?_, ?_, fun hbound => ?_⟩
  · change holds (policy.touch key c.policyState) k ↔ k ∈ c.cache.insert key b
    rw [hholds, h.keys, AList.mem_insert]
  · change (c.cacheSize + config.blockSize) % 2 ^ 64 =
      config.blockSize * (c.cache.insert key b).keys.length % 2 ^ 64
    rw [hlength, h.counted, Nat.mod_add_mod, Nat.mul_succ]
  · change config.blockSize * (c.cache.insert key b).keys.length ≤ _
    rw [hlength, Nat.mul_succ]
    exact Nat.add_le_add_right (hroom hbound) _

/-- Other contents for a block that is there keep the invariant. -/
theorem Tracked.refresh (h : Tracked config valid holds c) (hkey : key ∈ c.cache) (b : Block) :
    Tracked config valid holds { c with cache := c.cache.insert key b } := by
  have hlength : ({ c with cache := c.cache.insert key b } : Cache ρ).blocks = c.blocks :=
    AList.length_keys_insert_of_mem hkey b
  refine ⟨h.valid, fun k => (h.keys k).trans (AList.mem_insert_of_mem hkey b).symm, ?_, ?_⟩
  · rw [hlength]
    exact h.counted
  · rw [hlength]
    exact h.bounded

/-- **Iteration lemma.** Whatever the layer below answers, an iteration of `read` keeps the
invariant. -/
theorem Tracked.readBody (hsize : config.blockSize < 2 ^ 64) (hlawful : policy.Lawful valid holds)
    (hfrees : policy.Frees valid holds) (lower : ReadLayer σ) (path : PathName) (size offset : ℕ)
    (fi : FuseFileInfo) (w : σ) (mtime : Timespec) (clock : ℤ × ℤ)
    (h : Tracked config valid holds c) (out : Bytes) :
    (readBody config policy lower path size offset fi w mtime clock (c, out)).Sat
      (fun t => Tracked config valid holds t.1) (fun r => Tracked config valid holds r.2) := by
  unfold DataCache.readBody
  dsimp only
  split
  · exact h
  split
  · exact h
  split
  · next b hb =>
    have hkey := AList.lookup_isSome.mp (Option.isSome_of_eq_some hb)
    unfold readHit
    dsimp only
    split
    · exact copyBlock_sat (fun _ => h.touch hlawful hkey) fun _ => h
    · split
      · obtain ⟨hvalid, hholds⟩ := hlawful.remove _ _ h.valid
        rw [removeBlock_policyState]
        exact h.removeBlock hsize hkey hvalid hholds
      · have hnew (b' : Block) := h.refresh hkey b'
        exact copyBlock_sat
          (fun _ => (hnew _).touch hlawful ((AList.mem_insert_of_mem hkey _).mpr hkey))
          fun _ => hnew _
  · next hnone =>
    obtain ⟨hmade, hroom⟩ := h.makeRoom hsize hlawful hfrees
    unfold readMiss
    dsimp only
    split
    · exact hmade
    split
    · exact hmade
    · exact hmade.emplace hlawful (lookup_makeRoom_eq_none config policy hnone) _ hroom

/-- The counter is right between the calls of every run, and before every iteration of a `read`,
where it calls `remove_block`. -/
def AlwaysAccounted (config : DataCacheConfig) (policy : EvictionPolicy Key ρ) (policyState : ρ) :
    Prop :=
  ∀ {σ : Type} (actions : List (CacheAction σ)) (c : Cache ρ),
    Transition.run (Cache.step config policy) (.empty policyState) actions = some c →
    Accounted config c ∧
      ∀ lower path size offset fi w mtime clock i s,
        Loop.Reaches (iterations config policy lower path size offset fi (w : σ) mtime clock) 0
          (c, []) i s →
        Accounted config s.1

/-- **Run lemma.** With a policy that holds keys and frees one of them at an eviction, the
counter is always right. -/
theorem alwaysAccounted_of_frees (hsize : config.blockSize < 2 ^ 64)
    (hlawful : policy.Lawful valid holds) (hfrees : policy.Frees valid holds) {policyState : ρ}
    (hvalid : valid policyState) (hempty : ∀ k, ¬ holds policyState k) :
    AlwaysAccounted config policy policyState := by
  intro σ actions c hrun
  have hinitial : Tracked config valid holds (Cache.empty policyState) :=
    ⟨hvalid, fun k => iff_of_false (hempty k) (AList.notMem_empty k), rfl, fun _ => Nat.zero_le _⟩
  have htracked : Tracked config valid holds c := by
    refine Transition.invariant_of_forall (fun c a c' h hstep => ?_) hrun hinitial
    refine step_keeps (L := fun _ : ReadLayer σ => True)
      (fun c mtimes h => ⟨h.valid, h.keys, h.counted, h.bounded⟩)
      (fun lower path size offset fi w mtime clock c out _ h =>
        h.readBody hsize hlawful hfrees lower path size offset fi w mtime clock out) ?_ h hstep
    cases a with
    | read => exact fun _ => trivial
    | _ => trivial
  refine ⟨htracked.accounted hsize, fun lower path size offset fi w mtime clock i s hreaches => ?_⟩
  exact (reaches_keeps (I := Tracked config valid holds) (fun i c out h => h.readBody hsize hlawful
    hfrees (lower i) path size offset fi w mtime (clock i) out) htracked hreaches).accounted hsize

/-- **Size of the cache.** With either policy, in every run of opens, reads and releases, over a
layer below that answers as it likes, `cache_size_` is the number of bytes of the blocks and
exceeds the size of the cache by one block at most. -/
theorem cacheSize_accounted (config : DataCacheConfig) (hsize : config.blockSize < 2 ^ 64) :
    AlwaysAccounted config lruEviction .empty ∧
      ∀ {γ : Type} (generator : Generator γ) (randGen : γ),
        AlwaysAccounted config (rndEviction generator) ⟨[], randGen⟩ :=
  ⟨alwaysAccounted_of_frees hsize lruEviction_lawful lruEviction_frees LruState.valid_empty
      fun _ => AList.notMem_empty _,
    fun generator _ => alwaysAccounted_of_frees hsize (rndEviction_lawful generator)
      (rndEviction_frees generator) List.nodup_nil fun _ => List.not_mem_nil⟩

/-- A cache of two bytes, with blocks of two. -/
def twoBytes : DataCacheConfig := { size := 2, blockSize := 2, timeOut := 0 }

/-- A file of six bytes is opened and read whole. -/
def sixBytesRead : List (CacheAction Bytes) :=
  [.open oneFileLayer.toReadLayer ['/', 'a'] default [1, 2, 3, 4, 5, 6],
    .read (fun _ => oneFileLayer.toReadLayer) ['/', 'a'] 6 0 default (fun _ => (0, 0))
      [1, 2, 3, 4, 5, 6]]

/-- The third block evicts the first. -/
theorem cacheSize_accounted_sixBytes :
    ∃ c, Transition.run (Cache.step twoBytes lruEviction) (.empty .empty) sixBytesRead = some c ∧
      c.blocks = 2 ∧ c.cacheSize = 4 ∧ Accounted twoBytes c := by
  obtain ⟨c, hrun, hblocks, hcacheSize⟩ : ∃ c, Transition.run (Cache.step twoBytes lruEviction)
      (.empty .empty) sixBytesRead = some c ∧ c.blocks = 2 ∧ c.cacheSize = 4 := ⟨_, rfl, rfl, rfl⟩
  exact ⟨c, hrun, hblocks, hcacheSize,
    ((cacheSize_accounted twoBytes (by decide)).1 sixBytesRead c hrun).1⟩

end RSafeFS.DataCache
