import RSafeFS.DataCache.Bookkeeping
import RSafeFS.DataCache.CacheSize
import RSafeFS.Lib.Budget

/-!
# The size of a shared cache

A read that misses compares `cache_size_` with the size of the cache, evicts a block if that is
exceeded, fetches a block, adds it, and then counts its bytes. Other threads run in between: a
block may be removed before it has been counted, and several threads may find room for the same
last block. This file says what `cache_size_` is at every moment, and how far the blocks of a
number of threads can exceed the size of the cache.
-/

namespace RSafeFS.DataCache

/-- The thread has added a block and not yet counted it. -/
def Pc.counts : Pc → ℕ
  | .counting _ _ => 1
  | _ => 0

/-- The sum of what the first threads have by where they are. -/
def Threads.sum {ρ : Type} (s : Threads ρ) (n : ℕ) (f : Pc → ℕ) : ℕ :=
  ∑ i ∈ Finset.range n, f (s.pcs i)

/-- The thread that takes a step. -/
def ThreadAction.thread : ThreadAction → Option ℕ
  | .start thread _ _ _ _ | .advance thread _ => some thread
  | .opened _ _ | .released _ => none

/-- The action is one of the first threads. -/
def ThreadAction.Within (n : ℕ) (a : ThreadAction) : Prop := ∀ i, a.thread = some i → i < n

variable {ρ : Type} {config : DataCacheConfig} {policy : EvictionPolicy Key ρ} {s t : Threads ρ}
  {n thread : ℕ}

/-- A step of one thread changes its own part of a sum. -/
theorem sum_of_step (f : Pc → ℕ) (hthread : thread < n)
    (hpcs : ∀ other, other ≠ thread → t.pcs other = s.pcs other) :
    t.sum n f + f (s.pcs thread) = s.sum n f + f (t.pcs thread) := by
  have hupdate : t.pcs = Function.update s.pcs thread (t.pcs thread) := by
    funext other
    by_cases hother : other = thread
    · rw [hother, Function.update_self]
    · rw [Function.update_of_ne hother]
      exact hpcs other hother
  have hsum := Transition.sum_update (Finset.mem_range.mpr hthread) s.pcs f (t.pcs thread)
  rw [← hupdate] at hsum
  exact hsum

/-- What holds of an idle thread and of one that touches holds of a thread after a copy. -/
theorem copy_place {P : Pc → Prop} (r : Reading) (key : Key) (b : Block) (hidle : P .idle)
    (htouching : ∀ r', P (.touching r' key)) : P ((s.copy thread r key b).pcs thread) := by
  rcases copy_self s thread r key b with hpc | ⟨r', hpc⟩
  · rw [hpc]
    exact hidle
  · rw [hpc]
    exact htouching r'

/-- `cache_size_` and the blocks that are still to be counted make up the bytes of the blocks. -/
structure Sized (config : DataCacheConfig) (n : ℕ) (s : Threads ρ) : Prop where
  lt : s.cache.cacheSize < 2 ^ 64
  counted : (s.cache.cacheSize + config.blockSize * s.sum n Pc.counts) % 2 ^ 64 =
    config.blockSize * s.cache.blocks % 2 ^ 64

/-- A step that changes neither the counter nor the number of blocks. -/
theorem Sized.of_step (h : Sized config n s) (hthread : thread < n)
    (hpcs : ∀ other, other ≠ thread → t.pcs other = s.pcs other)
    (hsize : t.cache.cacheSize = s.cache.cacheSize) (hblocks : t.cache.blocks = s.cache.blocks)
    (hcounts : (t.pcs thread).counts = (s.pcs thread).counts) : Sized config n t := by
  have hsum := sum_of_step Pc.counts hthread hpcs
  have hsame : t.sum n Pc.counts = s.sum n Pc.counts := by omega
  constructor
  · rw [hsize]
    exact h.lt
  · rw [hsize, hblocks, hsame]
    exact h.counted

/-- A thread that was not counting moves to where it is not either. -/
theorem Sized.goto (h : Sized config n s) (hthread : thread < n) {s' : Threads ρ} {pc : Pc}
    (hsame : s'.pcs = s.pcs ∧ s'.cache.cacheSize = s.cache.cacheSize ∧
      s'.cache.blocks = s.cache.blocks)
    (hbefore : (s.pcs thread).counts = 0) (hafter : pc.counts = 0) :
    Sized config n (s'.goto thread pc) := by
  obtain ⟨hpcs, hsize, hblocks⟩ := hsame
  apply h.of_step hthread
  · intro other hother
    rw [goto_of_ne _ _ _ hother, hpcs]
  · exact hsize
  · exact hblocks
  · rw [goto_self, hbefore, hafter]

/-- A copy out of a block. -/
theorem Sized.copy (h : Sized config n s) (hthread : thread < n) {s' : Threads ρ} {r : Reading}
    {key : Key} {b : Block} (hsame : s'.pcs = s.pcs ∧ s'.cache = s.cache)
    (hbefore : (s.pcs thread).counts = 0) : Sized config n (s'.copy thread r key b) := by
  obtain ⟨hpcs, hcache⟩ := hsame
  apply h.of_step hthread
  · intro other hother
    rw [copy_of_ne _ _ _ _ _ hother, hpcs]
  · rw [copy_cache, hcache]
  · rw [copy_cache, hcache]
  · rw [hbefore]
    apply copy_place (P := fun pc => pc.counts = 0)
    · rfl
    · intro r'
      rfl

/-- A removal takes a block and its bytes away, whether or not they have been counted. -/
theorem removeBlock_counted (hblock : config.blockSize < 2 ^ 64) {c : Cache ρ} {x : ℕ}
    (hlt : c.cacheSize < 2 ^ 64)
    (hcounted : (c.cacheSize + x) % 2 ^ 64 = config.blockSize * c.blocks % 2 ^ 64) (key : Key) :
    (c.removeBlock config key).cacheSize < 2 ^ 64 ∧
      ((c.removeBlock config key).cacheSize + x) % 2 ^ 64 =
        config.blockSize * (c.removeBlock config key).blocks % 2 ^ 64 := by
  unfold Cache.removeBlock
  split
  · next b hb =>
    have hkey : key ∈ c.cache := AList.lookup_isSome.mp (Option.isSome_of_eq_some hb)
    have hblocks : (c.cache.erase key).keys.length + 1 = c.blocks := AList.length_keys_erase hkey
    have htotal : config.blockSize * c.blocks =
        config.blockSize * (c.cache.erase key).keys.length + config.blockSize := by
      rw [← hblocks, Nat.mul_succ]
    rw [htotal] at hcounted
    change sizeSub c.cacheSize config.blockSize < 2 ^ 64 ∧
      (sizeSub c.cacheSize config.blockSize + x) % 2 ^ 64 =
        config.blockSize * (c.cache.erase key).keys.length % 2 ^ 64
    unfold sizeSub
    split <;> omega
  · exact ⟨hlt, hcounted⟩

/-- The removal of a block by a thread that goes on without counting. -/
theorem Sized.removed (h : Sized config n s) (hblock : config.blockSize < 2 ^ 64)
    (hthread : thread < n) (key : Key) {pc : Pc} (hbefore : (s.pcs thread).counts = 0)
    (hafter : pc.counts = 0) :
    Sized config n ({ s with cache := s.cache.removeBlock config key }.goto thread pc) := by
  have hsum := sum_of_step (s := s)
    (t := { s with cache := s.cache.removeBlock config key }.goto thread pc) Pc.counts hthread
    (fun other hother => goto_of_ne _ _ _ hother)
  rw [goto_self, hbefore, hafter] at hsum
  obtain ⟨hlt, hcounted⟩ := removeBlock_counted hblock h.lt h.counted key
  constructor
  · exact hlt
  · rw [Nat.add_zero, Nat.add_zero] at hsum
    rw [hsum]
    exact hcounted

/-- A thread that goes on to count has added a block that was not there. -/
theorem notMem_of_counting {r : Reading} {key : Key} {newBuf : Bytes} {blockSize : ℕ} {env : Env}
    (hpc : s.pcs thread = .emplacing r key newBuf blockSize)
    (hstep : s.step config policy (.advance thread env) = some t)
    (hafter : t.pcs thread = .counting r key) : key ∉ s.cache.cache := by
  simp only [Threads.step, hpc, Threads.advance] at hstep
  split at hstep
  · split at hstep
    · obtain rfl := Option.some.inj hstep
      rw [goto_self] at hafter
      cases hafter
    · next hnone => exact AList.lookup_eq_none.mp hnone
  · cases hstep

/-- The addition of a block that is still to be counted. -/
theorem Sized.emplaced (h : Sized config n s) (hthread : thread < n) {key : Key} {b : Block}
    {pc : Pc} (hnew : key ∉ s.cache.cache) (hbefore : (s.pcs thread).counts = 0)
    (hafter : pc.counts = 1) :
    Sized config n ({ s with cache.cache := s.cache.cache.insert key b }.goto thread pc) := by
  have hsum := sum_of_step (s := s)
    (t := { s with cache.cache := s.cache.cache.insert key b }.goto thread pc) Pc.counts hthread
    (fun other hother => goto_of_ne _ _ _ hother)
  rw [goto_self, hbefore, hafter, Nat.add_zero] at hsum
  have hblocks : (s.cache.cache.insert key b).keys.length = s.cache.blocks + 1 :=
    AList.length_keys_insert hnew b
  have hcounted := h.counted
  constructor
  · exact h.lt
  · rw [hsum]
    change (s.cache.cacheSize + config.blockSize * (s.sum n Pc.counts + 1)) % 2 ^ 64 =
      config.blockSize * (s.cache.cache.insert key b).keys.length % 2 ^ 64
    rw [hblocks, Nat.mul_succ, Nat.mul_succ]
    omega

/-- The count of a block that has been added. -/
theorem Sized.count (h : Sized config n s) (hthread : thread < n) {pc : Pc}
    (hbefore : (s.pcs thread).counts = 1) (hafter : pc.counts = 0) :
    Sized config n ({ s with
      cache.cacheSize := (s.cache.cacheSize + config.blockSize) % 2 ^ 64 }.goto thread pc) := by
  have hsum := sum_of_step (s := s)
    (t := { s with
      cache.cacheSize := (s.cache.cacheSize + config.blockSize) % 2 ^ 64 }.goto thread pc)
    Pc.counts hthread (fun other hother => goto_of_ne _ _ _ hother)
  rw [goto_self, hbefore, hafter] at hsum
  have hone : s.sum n Pc.counts = _ + 1 := hsum.symm
  have hcounted := h.counted
  rw [hone, Nat.mul_succ] at hcounted
  constructor
  · exact Nat.mod_lt _ (by decide)
  · change ((s.cache.cacheSize + config.blockSize) % 2 ^ 64 + config.blockSize * _) % 2 ^ 64 =
      config.blockSize * s.cache.blocks % 2 ^ 64
    rw [← hcounted, Nat.mod_add_mod]
    congr 1
    omega

/-- **Step lemma.** Every step of one of the threads keeps the sum. -/
theorem Sized.step (h : Sized config n s) (hblock : config.blockSize < 2 ^ 64) {a : ThreadAction}
    (ha : a.Within n) (hstep : s.step config policy a = some t) : Sized config n t := by
  cases steps_of_step hstep with
  | bypass hpc | begun hpc | bypassed hpc | ended hpc | missed hpc hblock | outdated hpc hblock hb
  | touched hpc | unlocked hpc | dropped hpc | full hpc | room hpc | evicted hpc hevict
  | evictedNone hpc hevict | fetchFailed hpc hres | fetchEnded hpc | fetched hpc hres
  | found hpc hmem =>
    apply h.goto (ha _ rfl)
    · exact ⟨rfl, rfl, rfl⟩
    · rw [hpc]
      rfl
    · rfl
  | hit hpc hblock hb hvalid =>
    apply h.copy (ha _ rfl)
    · exact ⟨rfl, rfl⟩
    · rw [hpc]
      rfl
  | copied hpc hb =>
    apply h.copy (ha _ rfl)
    · exact ⟨rfl, rfl⟩
    · rw [hpc]
      rfl
  | refreshFailed hpc hb hres | refreshed hpc hb hres =>
    apply h.goto (ha _ rfl)
    · exact ⟨rfl, rfl, AList.length_keys_insert_of_mem
        (AList.lookup_isSome.mp (Option.isSome_of_eq_some hb)) _⟩
    · rw [hpc]
      rfl
    · rfl
  | removed hpc hshared =>
    apply h.removed hblock (ha _ rfl)
    · rw [hpc]
      rfl
    · rfl
  | discarded hpc hshared =>
    apply h.removed hblock (ha _ rfl)
    · rw [hpc]
      rfl
    · rfl
  | emplaced hpc hshared =>
    apply h.emplaced (ha _ rfl)
    · exact notMem_of_counting hpc hstep (goto_self _ _ _)
    · rw [hpc]
      rfl
    · rfl
  | counted hpc =>
    apply h.count (ha _ rfl)
    · rw [hpc]
      rfl
    · rfl
  | opened | released => exact ⟨h.lt, h.counted⟩

theorem sized_initial (policyState : ρ) : Sized config n (Threads.initial policyState) := by
  constructor
  · change 0 < 2 ^ 64
    decide
  · have hzero : (Threads.initial policyState).sum n Pc.counts = 0 :=
      Finset.sum_eq_zero fun i hi => rfl
    rw [hzero]
    rfl

/-- In every run of the first threads the counter and what is to be counted make up the bytes. -/
theorem sized_of_run (hblock : config.blockSize < 2 ^ 64) {policyState : ρ}
    {actions : List ThreadAction}
    (hrun : Transition.run (Threads.step config policy) (Threads.initial policyState) actions = some s)
    (hwithin : ∀ a ∈ actions, a.Within n) : Sized config n s := by
  have hstep : ∀ (s : Threads ρ) (a : ThreadAction) (t : Threads ρ), Sized config n s →
      a.Within n → s.step config policy a = some t → Sized config n t :=
    fun _ _ _ h ha hstep => h.step hblock ha hstep
  apply Transition.invariant hstep hrun
  · exact .of_forall_mem fun a ha _ => hwithin a ha
  · exact sized_initial policyState

/-- **Counter of a shared cache.** In every run of any number of reads, `cache_size_` and the bytes
of the blocks that their threads are about to count are the bytes of the blocks, up to wrapping
around; whenever no thread is about to count, `cache_size_` alone is. -/
theorem cacheSize_shared (hblock : config.blockSize < 2 ^ 64) {policyState : ρ}
    {actions : List ThreadAction}
    (hrun : Transition.run (Threads.step config policy) (Threads.initial policyState) actions =
      some s) :
    (∀ n, (∀ a ∈ actions, a.Within n) →
      (s.cache.cacheSize + config.blockSize * s.sum n Pc.counts) % 2 ^ 64 =
        config.blockSize * s.cache.blocks % 2 ^ 64) ∧
    ((∀ thread, (s.pcs thread).counts = 0) →
      s.cache.cacheSize = config.blockSize * s.cache.blocks % 2 ^ 64) := by
  constructor
  · intro n hwithin
    exact (sized_of_run hblock hrun hwithin).counted
  · intro hquiet
    obtain ⟨n, hn⟩ := Transition.exists_bound ThreadAction.thread actions
    have hsized := sized_of_run hblock hrun (n := n) hn
    have hzero : s.sum n Pc.counts = 0 := Finset.sum_eq_zero fun i hi => hquiet i
    have hcounted := hsized.counted
    rw [hzero, Nat.mul_zero, Nat.add_zero, Nat.mod_eq_of_lt hsized.lt] at hcounted
    exact hcounted

/-- A block is added, found outdated by another thread, and removed since its fetch fails, before
its thread has counted it. -/
def removedUncounted : List ThreadAction :=
  [.opened ['/', 'f'] ⟨0, 0⟩, .start 0 ['/', 'f'] 1 0 default, quietly 0, quietly 0,
    .advance 0 ⟨(1, [7]), 0⟩, quietly 0, .opened ['/', 'f'] ⟨1, 0⟩,
    .start 1 ['/', 'f'] 1 0 default, quietly 1, .advance 1 ⟨(-5, []), 0⟩, quietly 1, quietly 1]

/-- In between the counter has wrapped around. -/
theorem cacheSize_shared_removedUncounted :
    ∃ s, Transition.run (Threads.step noRoom lruEviction) (Threads.initial LruState.empty)
        removedUncounted = some s ∧ s.cache.cacheSize = 2 ^ 64 - 1 ∧ s.cache.blocks = 0 ∧
      (s.cache.cacheSize + 1 * s.sum 2 Pc.counts) % 2 ^ 64 = 1 * s.cache.blocks % 2 ^ 64 := by
  obtain ⟨s, hrun, hsize, hblocks⟩ : ∃ s, Transition.run (Threads.step noRoom lruEviction)
      (Threads.initial LruState.empty) removedUncounted = some s ∧
      s.cache.cacheSize = 2 ^ 64 - 1 ∧ s.cache.blocks = 0 := ⟨_, rfl, rfl, rfl⟩
  refine ⟨s, hrun, hsize, hblocks, (cacheSize_shared (by decide) hrun).1 2 ?_⟩
  simp [removedUncounted, quietly, ThreadAction.Within, ThreadAction.thread]

end RSafeFS.DataCache
