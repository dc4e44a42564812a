import RSafeFS.DataCache.SharedSize

/-!
# How far a shared cache outgrows its size

A thread that finds room, or finds nothing to evict, adds a block that no other goes for. At most
one block for each thread can be added in this way before the counter shows it. The argument needs
that an eviction makes room: two evictions of the same key, with a touch in between, remove one
block and let two in. The bound holds in the runs without such a touch, and by example not in all.
-/

namespace RSafeFS.DataCache

/-- The key whose block the thread is about to remove after its eviction. -/
def Pc.discards : Pc → Option Key
  | .discarding _ _ selected => some selected
  | _ => none

/-- The key that the thread is about to remove from the policy after a failed fetch. -/
def Pc.drops : Pc → Option Key
  | .dropping _ key _ => some key
  | _ => none

/-- The key of a block that the policy does not hold because of this thread. -/
def Pc.withholds (keys : Finset Key) : Pc → Option Key
  | .touching _ key | .counting _ key => some key
  | .discarding _ _ selected => if selected ∈ keys then some selected else none
  | _ => none

/-- The thread may add a block, and no other of these keys goes for it. -/
def Pc.adds (keys : Finset Key) : Pc → ℕ
  | .fetching _ _ | .emplacing _ _ _ _ => 1
  | .discarding _ _ selected => if selected ∈ keys then 0 else 1
  | _ => 0

variable {ρ : Type}

/-- A key is touched while its block is in the cache and no thread is about to remove it, and
removed from the policy while its block is not in the cache. -/
def Timely (s : Threads ρ) : ThreadAction → Prop
  | .advance thread _ =>
    match s.pcs thread with
    | .touching _ key => key ∈ s.cache.cache ∧ ∀ other, (s.pcs other).discards ≠ some key
    | .dropping _ key _ => key ∉ s.cache.cache
    | _ => True
  | _ => True

variable {config : DataCacheConfig} {policy : EvictionPolicy Key ρ} {valid : ρ → Prop}
  {holds : ρ → Key → Prop} {s t : Threads ρ} {n thread : ℕ}

/-- A key that has been evicted is not with the policy until its block has been removed, and one
thread removes it. -/
structure Selected (holds : ρ → Key → Prop) (s : Threads ρ) : Prop where
  unheld : ∀ i k, (s.pcs i).discards = some k → ¬ holds s.cache.policyState k
  alone : ∀ i j k, (s.pcs i).discards = some k → (s.pcs j).discards = some k → i = j

/-- Where evicted keys are not with the policy, timely steps are orderly. -/
theorem Selected.orderly (h : Selected holds s) {a : ThreadAction} (ha : Timely s a) :
    Orderly holds s a := by
  cases a with
  | advance thread env =>
    unfold Timely at ha
    unfold Orderly
    dsimp only at ha ⊢
    cases hpc : s.pcs thread with
    | touching r key =>
      rw [hpc] at ha
      exact ha.1
    | dropping r key res =>
      rw [hpc] at ha
      exact ha
    | discarding r key selected =>
      apply h.unheld thread
      rw [hpc]
      rfl
    | _ => trivial
  | _ => trivial

/-- A step after which the thread removes no evicted block, and the policy has no new key but one
that no other thread removes. -/
theorem Selected.of_step (h : Selected holds s) (thread : ℕ)
    (hpcs : ∀ other, other ≠ thread → t.pcs other = s.pcs other)
    (hdiscards : (t.pcs thread).discards = none)
    (hholds : ∀ k, holds t.cache.policyState k →
      holds s.cache.policyState k ∨ ∀ other, (s.pcs other).discards ≠ some k) :
    Selected holds t := by
  have hother {i : ℕ} {k : Key} (hi : (t.pcs i).discards = some k) :
      (s.pcs i).discards = some k := by
    by_cases heq : i = thread
    · rw [heq, hdiscards] at hi
      cases hi
    · rwa [hpcs i heq] at hi
  constructor
  · intro i k hi hk
    rcases hholds k hk with hbefore | hnone
    · exact h.unheld i k (hother hi) hbefore
    · exact hnone i (hother hi)
  · intro i j k hi hj
    exact h.alone i j k (hother hi) (hother hj)

/-- A thread moves to where it removes no evicted block, and the policy stays as it is. -/
theorem Selected.goto (h : Selected holds s) {s' : Threads ρ} {pc : Pc}
    (hsame : s'.pcs = s.pcs ∧ s'.cache.policyState = s.cache.policyState)
    (hdiscards : pc.discards = none) : Selected holds (s'.goto thread pc) := by
  obtain ⟨hpcs, hpolicy⟩ := hsame
  apply h.of_step thread
  · intro other hother
    rw [goto_of_ne _ _ _ hother, hpcs]
  · rw [goto_self]
    exact hdiscards
  · intro k hk
    left
    rw [← hpolicy]
    exact hk

/-- A copy out of a block. -/
theorem Selected.copy (h : Selected holds s) {s' : Threads ρ} {r : Reading} {key : Key} {b : Block}
    (hsame : s'.pcs = s.pcs ∧ s'.cache = s.cache) : Selected holds (s'.copy thread r key b) := by
  obtain ⟨hpcs, hcache⟩ := hsame
  apply h.of_step thread
  · intro other hother
    rw [copy_of_ne _ _ _ _ _ hother, hpcs]
  · apply copy_place (P := fun pc => pc.discards = none)
    · rfl
    · intro r'
      rfl
  · intro k hk
    left
    rw [copy_cache, hcache] at hk
    exact hk

/-- An eviction of a key that the policy holds. -/
theorem Selected.evicted (h : Selected holds s) {r : Reading} {key selected : Key} {state : ρ}
    (hheld : holds s.cache.policyState selected)
    (hholds : ∀ k, holds state k ↔ k ≠ selected ∧ holds s.cache.policyState k) :
    Selected holds
      ({ s with cache.policyState := state }.goto thread (.discarding r key selected)) := by
  have hcases {i : ℕ} {k : Key} (hi : (({ s with cache.policyState := state }.goto thread
      (.discarding r key selected)).pcs i).discards = some k) :
      (i = thread ∧ k = selected) ∨ ((s.pcs i).discards = some k ∧ k ≠ selected) := by
    by_cases heq : i = thread
    · rw [heq, goto_self] at hi
      exact Or.inl ⟨heq, (Option.some.inj hi).symm⟩
    · rw [goto_of_ne _ _ _ heq] at hi
      right
      refine ⟨hi, ?_⟩
      rintro rfl
      exact h.unheld i _ hi hheld
  constructor
  · intro i k hi hk
    have hkept := (hholds k).mp hk
    rcases hcases hi with ⟨-, rfl⟩ | ⟨hbefore, -⟩
    · exact hkept.1 rfl
    · exact h.unheld i k hbefore hkept.2
  · intro i j k hi hj
    rcases hcases hi with ⟨hi, hki⟩ | ⟨hi, hki⟩
    · rcases hcases hj with ⟨hj, -⟩ | ⟨-, hkj⟩
      · rw [hi, hj]
      · exact absurd hki hkj
    · rcases hcases hj with ⟨-, hkj⟩ | ⟨hj, -⟩
      · exact absurd hkj hki
      · exact h.alone i j k hi hj

/-- Every timely step keeps evicted keys away from the policy. -/
theorem Selected.step (h : Selected holds s) (hvalid : valid s.cache.policyState)
    (hlawful : policy.Lawful valid holds) (hfrees : policy.Frees valid holds) {a : ThreadAction}
    (ha : Timely s a) (hstep : s.step config policy a = some t) : Selected holds t := by
  cases steps_of_step hstep with
  | bypass | begun | bypassed | ended | missed | outdated | refreshFailed | refreshed | unlocked
  | full | room | fetchFailed | fetchEnded | fetched | found | emplaced | counted =>
    apply h.goto
    · exact ⟨rfl, rfl⟩
    · rfl
  | hit | copied =>
    apply h.copy
    exact ⟨rfl, rfl⟩
  | removed hpc hshared | discarded hpc hshared =>
    apply h.goto
    · exact ⟨rfl, removeBlock_policyState _ _ _⟩
    · rfl
  | @touched thread r key env hpc =>
    have hnone : ∀ other, (s.pcs other).discards ≠ some key := by
      unfold Timely at ha
      simp only [hpc] at ha
      exact ha.2
    apply h.of_step thread
    · intro other hother
      exact goto_of_ne _ _ _ hother
    · rw [goto_self]
      rfl
    · intro k hk
      rcases ((hlawful.touch key _ hvalid).2 k).mp hk with rfl | hbefore
      · exact Or.inr hnone
      · exact Or.inl hbefore
  | @dropped thread r key res env hpc =>
    apply h.of_step thread
    · intro other hother
      exact goto_of_ne _ _ _ hother
    · exact congrArg Pc.discards (goto_self _ _ _)
    · intro k hk
      exact Or.inl (((hlawful.remove key _ hvalid).2 k).mp hk).2
  | evicted hpc hevict =>
    apply h.evicted
    · exact hfrees.evicted _ _ _ hvalid hevict
    · exact (hlawful.evict _ _ _ hvalid hevict).2
  | @evictedNone thread r key state env hpc hevict =>
    apply h.of_step thread
    · intro other hother
      exact goto_of_ne _ _ _ hother
    · rw [goto_self]
      rfl
    · intro k hk
      exact Or.inl (((hlawful.evict_none _ _ hvalid hevict).2 k).mp hk)
  | opened | released => exact ⟨h.unheld, h.alone⟩

section Potential

/-- The keys, and the blocks that threads may add without another's going. -/
def Threads.expected (s : Threads ρ) (n : ℕ) (keys : Finset Key) : ℕ :=
  keys.card + s.sum n (Pc.adds keys)

variable {keys : Finset Key} {k : Key}

theorem adds_le_one (keys : Finset Key) (pc : Pc) : pc.adds keys ≤ 1 := by
  unfold Pc.adds
  split
  · exact Nat.le_refl 1
  · exact Nat.le_refl 1
  · split <;> omega
  · exact Nat.zero_le 1

/-- With more keys a thread adds no more. -/
theorem adds_insert_le (keys : Finset Key) (k : Key) (pc : Pc) :
    pc.adds (insert k keys) ≤ pc.adds keys := by
  cases pc with
  | discarding r key selected =>
    by_cases hmem : selected ∈ keys
    · simp [Pc.adds, hmem]
    · simp only [Pc.adds, if_neg hmem]
      exact adds_le_one (insert k keys) (.discarding r key selected)
  | _ => exact Nat.le_refl _

/-- A key that the thread does not discard does not matter to it. -/
theorem adds_erase {pc : Pc} (hne : pc.discards ≠ some k) : pc.adds (keys.erase k) = pc.adds keys := by
  cases pc with
  | discarding r key selected =>
    have hselected : selected ≠ k := by
      rintro rfl
      exact hne rfl
    simp [Pc.adds, hselected]
  | _ => rfl

/-- A thread moves to where it adds no more than before. -/
theorem expected_of_step (hthread : thread < n)
    (hpcs : ∀ other, other ≠ thread → t.pcs other = s.pcs other)
    (hadds : (t.pcs thread).adds keys ≤ (s.pcs thread).adds keys) :
    t.expected n keys ≤ s.expected n keys := by
  have hsum := sum_of_step (Pc.adds keys) hthread hpcs
  unfold Threads.expected
  omega

/-- A thread moves to where it adds less than before. -/
theorem expected_of_lt (hthread : thread < n)
    (hpcs : ∀ other, other ≠ thread → t.pcs other = s.pcs other)
    (hadds : (t.pcs thread).adds keys < (s.pcs thread).adds keys) :
    t.expected n keys + 1 ≤ s.expected n keys := by
  have hsum := sum_of_step (Pc.adds keys) hthread hpcs
  unfold Threads.expected
  omega

/-- One more key. -/
theorem expected_insert (s : Threads ρ) (n : ℕ) (keys : Finset Key) (k : Key) :
    s.expected n (insert k keys) ≤ s.expected n keys + 1 := by
  have hcard := Finset.card_insert_le k keys
  have hsum : s.sum n (Pc.adds (insert k keys)) ≤ s.sum n (Pc.adds keys) :=
    Finset.sum_le_sum fun i _ => adds_insert_le keys k (s.pcs i)
  unfold Threads.expected
  omega

/-- A key goes that no thread is about to discard. -/
theorem expected_erase_of_none (hk : k ∈ keys) (hnone : ∀ i, (s.pcs i).discards ≠ some k) :
    s.expected n (keys.erase k) + 1 = s.expected n keys := by
  have hcard := Finset.card_erase_add_one hk
  have hsum : s.sum n (Pc.adds (keys.erase k)) = s.sum n (Pc.adds keys) :=
    Finset.sum_congr rfl fun i _ => adds_erase (hnone i)
  unfold Threads.expected
  omega

/-- A key goes that one thread at most is about to discard. -/
theorem expected_erase (hbeyond : ∀ i, n ≤ i → s.pcs i = .idle)
    (halone : ∀ i j, (s.pcs i).discards = some k → (s.pcs j).discards = some k → i = j) :
    s.expected n (keys.erase k) ≤ s.expected n keys := by
  by_cases hk : k ∈ keys
  · by_cases hnone : ∀ i, (s.pcs i).discards ≠ some k
    · have hless := expected_erase_of_none (n := n) hk hnone
      omega
    · push Not at hnone
      obtain ⟨i, hi⟩ := hnone
      have hwithin : i < n := by
        by_contra hnot
        rw [hbeyond i (Nat.not_lt.mp hnot)] at hi
        cases hi
      have hcard := Finset.card_erase_add_one hk
      have hone := adds_le_one (keys.erase k) (s.pcs i)
      have hsum := Transition.sum_le (f := fun j => (s.pcs j).adds keys)
        (g := fun j => (s.pcs j).adds (keys.erase k)) (Finset.mem_range.mpr hwithin) fun j hj => by
          apply Nat.le_of_eq
          apply adds_erase
          intro hjk
          exact hj (halone j i hjk hi)
      unfold Threads.expected Threads.sum
      omega
  · rw [Finset.erase_eq_of_notMem hk]

/-- The keys of the cache and of the policy, with what is to be added, stay within the bound. -/
def Roomy (config : DataCacheConfig) (holds : ρ → Key → Prop) (n : ℕ) (s : Threads ρ) : Prop :=
  ∃ keys : Finset Key, (∀ k, k ∈ keys ↔ k ∈ s.cache.cache ∨ holds s.cache.policyState k) ∧
    config.blockSize * s.expected n keys ≤ config.size + config.blockSize * n

/-- A step that expects no more. -/
theorem Roomy.of_le (h : Roomy config holds n s)
    (hle : ∀ keys : Finset Key, (∀ k, k ∈ keys ↔ k ∈ s.cache.cache ∨ holds s.cache.policyState k) →
      ∃ keys' : Finset Key, (∀ k, k ∈ keys' ↔ k ∈ t.cache.cache ∨ holds t.cache.policyState k) ∧
        t.expected n keys' ≤ s.expected n keys) : Roomy config holds n t := by
  obtain ⟨keys, hkeys, hbound⟩ := h
  obtain ⟨keys', hkeys', hless⟩ := hle keys hkeys
  exact ⟨keys', hkeys', (Nat.mul_le_mul_left _ hless).trans hbound⟩

/-- A step of one thread that leaves the keys as they are. -/
theorem Roomy.of_step (h : Roomy config holds n s) (hthread : thread < n)
    (hpcs : ∀ other, other ≠ thread → t.pcs other = s.pcs other)
    (hkeys : ∀ k, k ∈ t.cache.cache ∨ holds t.cache.policyState k ↔
      k ∈ s.cache.cache ∨ holds s.cache.policyState k)
    (hadds : ∀ keys, (∀ k, k ∈ keys ↔ k ∈ s.cache.cache ∨ holds s.cache.policyState k) →
      (t.pcs thread).adds keys ≤ (s.pcs thread).adds keys) : Roomy config holds n t := by
  apply h.of_le
  intro keys hmem
  refine ⟨keys, fun k => (hmem k).trans (hkeys k).symm, ?_⟩
  exact expected_of_step hthread hpcs (hadds keys hmem)

/-- A thread is counting, removes a key after a failure, or may add a block: one of these at most. -/
theorem classes_le_one (keys : Finset Key) (pc : Pc) :
    pc.counts + (if pc.drops.isSome then 1 else 0) + pc.adds keys ≤ 1 := by
  cases pc with
  | counting | dropping => exact Nat.le_refl 1
  | discarding r key selected =>
    simpa [Pc.counts, Pc.drops] using adds_le_one keys (.discarding r key selected)
  | _ => simp [Pc.counts, Pc.drops, Pc.adds]

/-- A thread withholds the key of a block, or may add a block with no other's going. -/
theorem withholds_add_le_one (keys : Finset Key) (pc : Pc) :
    (if (pc.withholds keys).isSome then 1 else 0) + pc.adds keys ≤ 1 := by
  cases pc with
  | discarding r key selected =>
    by_cases hmem : selected ∈ keys
    · simp [Pc.withholds, Pc.adds, hmem]
    · simp [Pc.withholds, Pc.adds, hmem]
  | _ => simp [Pc.withholds, Pc.adds]

/-- What is said of each thread, summed where one thread has nothing. -/
theorem sum_lt (hthread : thread < n) {f : Pc → ℕ} (hone : ∀ pc, f pc ≤ 1)
    (hzero : f (s.pcs thread) = 0) : s.sum n f < n := by
  have hlt := Transition.sum_lt_card (f := fun i => f (s.pcs i)) (Finset.mem_range.mpr hthread)
    (fun j => hone _) hzero
  rwa [Finset.card_range] at hlt

theorem sum_add (s : Threads ρ) (n : ℕ) (f g : Pc → ℕ) :
    s.sum n (fun pc => f pc + g pc) = s.sum n f + s.sum n g :=
  Finset.sum_add_distrib

/-- What holds in every state of a run of the first threads. -/
structure Overshoot (config : DataCacheConfig) (valid : ρ → Prop) (holds : ρ → Key → Prop) (n : ℕ)
    (s : Threads ρ) : Prop where
  booked : Booked valid holds s
  selected : Selected holds s
  sized : Sized config n s
  beyond : ∀ i, n ≤ i → s.pcs i = .idle
  roomy : Roomy config holds n s

/-- A thread that owes or withholds something is one of the first. -/
theorem Overshoot.lt_of_ne (h : Overshoot config valid holds n s) {i : ℕ} (hi : s.pcs i ≠ .idle) :
    i < n := by
  by_contra hnot
  exact hi (h.beyond i (Nat.not_lt.mp hnot))

/-- The keys that are not those of blocks are about to be removed from the policy. -/
theorem Overshoot.card_le_blocks (h : Overshoot config valid holds n s)
    (hkeys : ∀ k, k ∈ keys ↔ k ∈ s.cache.cache ∨ holds s.cache.policyState k) :
    keys.card ≤ s.cache.blocks + s.sum n fun pc => if pc.drops.isSome then 1 else 0 := by
  have howned : (keys \ s.cache.cache.keys.toFinset).card ≤
      s.sum n fun pc => if pc.drops.isSome then 1 else 0 := by
    apply Transition.card_le_sum (f := fun i => (s.pcs i).drops)
    intro k hk
    obtain ⟨hmem, hnot⟩ := Finset.mem_sdiff.mp hk
    rw [List.mem_toFinset, ← AList.mem_keys] at hnot
    have hheld := ((hkeys k).mp hmem).resolve_left hnot
    obtain ⟨i, hi⟩ := h.booked.cached k hheld hnot
    have hdrops : (s.pcs i).drops = some k := by
      cases hpc : s.pcs i with
      | dropping r key res =>
        rw [hpc] at hi
        obtain rfl := Debt.drop.inj (Option.some.inj hi)
        rfl
      | _ => simp [hpc, Pc.owes] at hi
    refine ⟨i, Finset.mem_range.mpr (h.lt_of_ne ?_), hdrops⟩
    intro hidle
    rw [hidle] at hdrops
    cases hdrops
  have hsplit := Finset.card_le_card_sdiff_add_card (s := keys) (t := s.cache.cache.keys.toFinset)
  have hlength := List.toFinset_card_le s.cache.cache.keys
  unfold Cache.blocks
  omega

/-- Every block has one of the keys. -/
theorem blocks_le_card (hkeys : ∀ k, k ∈ keys ↔ k ∈ s.cache.cache ∨ holds s.cache.policyState k) :
    s.cache.blocks ≤ keys.card := by
  have hcard : s.cache.cache.keys.toFinset.card = s.cache.blocks :=
    List.toFinset_card_of_nodup s.cache.cache.nodupKeys
  rw [← hcard]
  apply Finset.card_le_card
  intro k hk
  rw [List.mem_toFinset, ← AList.mem_keys] at hk
  exact (hkeys k).mpr (Or.inl hk)

/-- A thread that finds room may add a block. -/
theorem Overshoot.room (h : Overshoot config valid holds n s)
    (hfits : config.size + config.blockSize * n < 2 ^ 64) (hthread : thread < n) {r : Reading}
    {key : Key} (hpc : s.pcs thread = .sizing r key) (hle : s.cache.cacheSize ≤ config.size)
    (hkeys : ∀ k, k ∈ keys ↔ k ∈ s.cache.cache ∨ holds s.cache.policyState k)
    (hbound : config.blockSize * s.expected n keys ≤ config.size + config.blockSize * n) :
    config.blockSize * (s.expected n keys + 1) ≤ config.size + config.blockSize * n := by
  have hcard := h.card_le_blocks hkeys
  have hclasses : s.sum n (fun pc => pc.counts + (if pc.drops.isSome then 1 else 0) + pc.adds keys) <
      n := by
    apply sum_lt hthread (classes_le_one keys)
    rw [hpc]
    rfl
  rw [sum_add, sum_add] at hclasses
  -- The counter has not wrapped around, since all of this is in bounds.
  have hcounted : s.cache.cacheSize + config.blockSize * s.sum n Pc.counts =
      config.blockSize * s.cache.blocks := by
    have hall : config.blockSize * s.cache.blocks ≤ config.blockSize * s.expected n keys := by
      apply Nat.mul_le_mul_left
      exact (blocks_le_card hkeys).trans (Nat.le_add_right _ _)
    have hsome : config.blockSize * s.sum n Pc.counts ≤ config.blockSize * n := by
      apply Nat.mul_le_mul_left
      omega
    have hmod := h.sized.counted
    rw [Nat.mod_eq_of_lt (by omega), Nat.mod_eq_of_lt (by omega)] at hmod
    exact hmod
  calc config.blockSize * (s.expected n keys + 1)
      ≤ config.blockSize * (s.cache.blocks + (n - s.sum n Pc.counts)) := by
        apply Nat.mul_le_mul_left
        unfold Threads.expected
        omega
    _ = s.cache.cacheSize + config.blockSize * (s.sum n Pc.counts + (n - s.sum n Pc.counts)) := by
        rw [Nat.mul_add, Nat.mul_add, ← hcounted, Nat.add_assoc]
    _ = s.cache.cacheSize + config.blockSize * n := by
        congr 2
        omega
    _ ≤ config.size + config.blockSize * n := Nat.add_le_add_right hle _

/-- A thread that finds nothing to evict may add a block. -/
theorem Overshoot.exhausted (h : Overshoot config valid holds n s) (hthread : thread < n) {r : Reading}
    {key : Key} (hpc : s.pcs thread = .evicting r key)
    (hnone : ∀ k, ¬ holds s.cache.policyState k)
    (hkeys : ∀ k, k ∈ keys ↔ k ∈ s.cache.cache ∨ holds s.cache.policyState k) :
    config.blockSize * (s.expected n keys + 1) ≤ config.size + config.blockSize * n := by
  have howned : keys.card ≤ s.sum n fun pc => if (pc.withholds keys).isSome then 1 else 0 := by
    apply Transition.card_le_sum (f := fun i => (s.pcs i).withholds keys)
    intro k hk
    have hcached := ((hkeys k).mp hk).resolve_right (hnone k)
    obtain ⟨i, hi⟩ := h.booked.chosen k hcached (hnone k)
    have hwithholds : (s.pcs i).withholds keys = some k := by
      cases hplace : s.pcs i with
      | touching r' key' | counting r' key' =>
        rw [hplace] at hi
        simpa [Pc.owes, Pc.withholds] using hi
      | discarding r' key' selected =>
        rw [hplace] at hi
        obtain rfl : selected = k := by simpa [Pc.owes] using hi
        simp [Pc.withholds, hk]
      | _ => simp [hplace, Pc.owes] at hi
    refine ⟨i, Finset.mem_range.mpr (h.lt_of_ne ?_), hwithholds⟩
    intro hidle
    rw [hidle] at hwithholds
    cases hwithholds
  have hclasses : s.sum n (fun pc => (if (pc.withholds keys).isSome then 1 else 0) + pc.adds keys) <
      n := by
    apply sum_lt hthread (withholds_add_le_one keys)
    rw [hpc]
    rfl
  rw [sum_add] at hclasses
  apply le_trans _ (Nat.le_add_left _ _)
  apply Nat.mul_le_mul_left
  unfold Threads.expected
  omega

/-- A thread goes on to where it may add a block, and the keys stay as they are. -/
theorem Roomy.of_bound (hkeys : ∀ k, k ∈ keys ↔ k ∈ t.cache.cache ∨ holds t.cache.policyState k)
    (hthread : thread < n) (hpcs : ∀ other, other ≠ thread → t.pcs other = s.pcs other)
    (hbound : config.blockSize * (s.expected n keys + 1) ≤ config.size + config.blockSize * n) :
    Roomy config holds n t := by
  have hsum := sum_of_step (Pc.adds keys) hthread hpcs
  have hone := adds_le_one keys (t.pcs thread)
  refine ⟨keys, hkeys, le_trans (Nat.mul_le_mul_left _ ?_) hbound⟩
  unfold Threads.expected
  omega

/-- The removal of a block by a failed read. -/
theorem Overshoot.removed (h : Overshoot config valid holds n s) (hthread : thread < n) (r : Reading)
    (key : Key) (res : ℤ) :
    Roomy config holds n
      ({ s with cache := s.cache.removeBlock config key }.goto thread (.dropping r key res)) := by
  have hpolicy := removeBlock_policyState config s.cache key
  apply h.roomy.of_le
  intro keys hkeys
  have hmoved (keys' : Finset Key) :
      ({ s with cache := s.cache.removeBlock config key }.goto thread (.dropping r key res)).expected
        n keys' ≤ s.expected n keys' := by
    apply expected_of_step hthread
    · intro other hother
      exact goto_of_ne _ _ _ hother
    · rw [goto_self]
      exact Nat.zero_le _
  by_cases hheld : holds s.cache.policyState key
  · refine ⟨keys, fun k => ?_, hmoved keys⟩
    change _ ↔ k ∈ (s.cache.removeBlock config key).cache ∨
      holds (s.cache.removeBlock config key).policyState k
    rw [hpolicy, mem_removeBlock, hkeys k]
    by_cases hk : k = key
    · simp [hk, hheld]
    · simp [hk]
  · refine ⟨keys.erase key, fun k => ?_, ?_⟩
    · change _ ↔ k ∈ (s.cache.removeBlock config key).cache ∨
        holds (s.cache.removeBlock config key).policyState k
      rw [hpolicy, mem_removeBlock, Finset.mem_erase, hkeys k]
      by_cases hk : k = key
      · simp [hk, hheld]
      · simp [hk]
    · exact (hmoved _).trans (expected_erase h.beyond fun i j => h.selected.alone i j key)

/-- The removal of a key from the policy after a failed fetch. -/
theorem Overshoot.dropped (h : Overshoot config valid holds n s) (hthread : thread < n)
    {r : Reading} {key : Key} {res : ℤ} (hkey : key ∉ s.cache.cache)
    {state : ρ} (hholds : ∀ k, holds state k ↔ k ≠ key ∧ holds s.cache.policyState k) :
    Roomy config holds n
      ({ s with cache.policyState := state }.finish thread r (.ret res r.out)) := by
  apply h.roomy.of_le
  intro keys hkeys
  refine ⟨keys.erase key, fun k => ?_, ?_⟩
  · change _ ↔ k ∈ s.cache.cache ∨ holds state k
    rw [Finset.mem_erase, hkeys k, hholds k]
    by_cases hk : k = key
    · simp [hk, hkey]
    · simp [hk]
  · apply le_trans _ (expected_erase h.beyond fun i j => h.selected.alone i j key)
    apply expected_of_step hthread
    · intro other hother
      exact goto_of_ne _ _ _ hother
    · have hidle : (({ s with cache.policyState := state }.finish thread r (.ret res r.out)).pcs
          thread) = .idle := goto_self _ _ _
      rw [hidle]
      exact Nat.zero_le _

/-- The eviction of a key. If its block has gone already, the thread adds one more. -/
theorem Overshoot.evicted (h : Overshoot config valid holds n s) (hthread : thread < n) (r : Reading)
    (key : Key) {selected : Key} (hheld : holds s.cache.policyState selected) {state : ρ}
    (hholds : ∀ k, holds state k ↔ k ≠ selected ∧ holds s.cache.policyState k) :
    Roomy config holds n
      ({ s with cache.policyState := state }.goto thread (.discarding r key selected)) := by
  apply h.roomy.of_le
  intro keys hkeys
  have hmem : selected ∈ keys := (hkeys selected).mpr (Or.inr hheld)
  by_cases hcached : selected ∈ s.cache.cache
  · refine ⟨keys, fun k => ?_, ?_⟩
    · change _ ↔ k ∈ s.cache.cache ∨ holds state k
      rw [hkeys k, hholds k]
      by_cases hk : k = selected
      · simp [hk, hcached]
      · simp [hk]
    · apply expected_of_step hthread
      · intro other hother
        exact goto_of_ne _ _ _ hother
      · rw [goto_self]
        simp [Pc.adds, hmem]
  · refine ⟨keys.erase selected, fun k => ?_, ?_⟩
    · change _ ↔ k ∈ s.cache.cache ∨ holds state k
      rw [Finset.mem_erase, hkeys k, hholds k]
      by_cases hk : k = selected
      · simp [hk, hcached]
      · simp [hk]
    · have hless := expected_erase_of_none (s := s) (n := n) hmem fun i hi =>
        h.selected.unheld i selected hi hheld
      have hsum := sum_of_step (s := s)
        (t := { s with cache.policyState := state }.goto thread (.discarding r key selected))
        (Pc.adds (keys.erase selected)) hthread fun other hother => goto_of_ne _ _ _ hother
      have hone := adds_le_one (keys.erase selected) (.discarding r key selected)
      rw [goto_self] at hsum
      unfold Threads.expected at *
      omega

/-- The removal of the block of an evicted key. -/
theorem Overshoot.discarded (h : Overshoot config valid holds n s) (hthread : thread < n) {r : Reading}
    {key selected : Key} (hpc : s.pcs thread = .discarding r key selected) :
    Roomy config holds n
      ({ s with cache := s.cache.removeBlock config selected }.goto thread (.fetching r key)) := by
  have hpolicy := removeBlock_policyState config s.cache selected
  have hunheld : ¬ holds s.cache.policyState selected := by
    apply h.selected.unheld thread
    rw [hpc]
    rfl
  apply h.roomy.of_le
  intro keys hkeys
  refine ⟨keys.erase selected, fun k => ?_, ?_⟩
  · change _ ↔ k ∈ (s.cache.removeBlock config selected).cache ∨
      holds (s.cache.removeBlock config selected).policyState k
    rw [hpolicy, mem_removeBlock, Finset.mem_erase, hkeys k]
    by_cases hk : k = selected
    · simp [hk, hunheld]
    · simp [hk]
  · apply le_trans _ (expected_erase h.beyond fun i j => h.selected.alone i j selected)
    apply expected_of_step hthread
    · intro other hother
      exact goto_of_ne _ _ _ hother
    · rw [goto_self, hpc]
      simp [Pc.adds]

/-- The addition of a block. -/
theorem Roomy.emplaced (h : Roomy config holds n s) (hthread : thread < n) {r : Reading}
    {key : Key} {newBuf : Bytes} {blockSize : ℕ} {b : Block}
    (hpc : s.pcs thread = .emplacing r key newBuf blockSize) :
    Roomy config holds n
      ({ s with cache.cache := s.cache.cache.insert key b }.goto thread (.counting r key)) := by
  apply h.of_le
  intro keys hkeys
  refine ⟨insert key keys, fun k => ?_, ?_⟩
  · change _ ↔ k ∈ s.cache.cache.insert key b ∨ holds s.cache.policyState k
    rw [Finset.mem_insert, AList.mem_insert, hkeys k, or_assoc]
  · apply Nat.le_of_succ_le_succ
    apply le_trans _ (expected_insert s n keys key)
    apply expected_of_lt hthread
    · intro other hother
      exact goto_of_ne _ _ _ hother
    · rw [goto_self, hpc]
      exact Nat.one_pos

end Potential

/-- A thread that finds room has compared the counter. -/
theorem cacheSize_le_of_fetching {r : Reading} {key : Key} {env : Env}
    (hpc : s.pcs thread = .sizing r key)
    (hstep : s.step config policy (.advance thread env) = some t)
    (hafter : t.pcs thread = .fetching r key) : s.cache.cacheSize ≤ config.size := by
  simp only [Threads.step, hpc, Threads.advance] at hstep
  obtain rfl := Option.some.inj hstep
  rw [goto_self] at hafter
  by_contra hnot
  rw [if_pos (Nat.not_le.mp hnot)] at hafter
  cases hafter

/-- A step of the first threads leaves the others idle. -/
theorem beyond_of_step {a : ThreadAction} (ha : a.Within n) (hbeyond : ∀ i, n ≤ i → s.pcs i = .idle)
    (hstep : s.step config policy a = some t) (i : ℕ) (hi : n ≤ i) : t.pcs i = .idle := by
  have hother {thread : ℕ} (hthread : a.thread = some thread) : i ≠ thread := by
    have hlt := ha thread hthread
    omega
  cases steps_of_step hstep with
  | opened | released => exact hbeyond i hi
  | hit | copied =>
    rw [copy_of_ne _ _ _ _ _ (hother rfl)]
    exact hbeyond i hi
  | _ =>
    rw [← hbeyond i hi]
    exact goto_of_ne _ _ _ (hother rfl)

/-- Every timely step stays within the bound. -/
theorem Overshoot.roomy_step (h : Overshoot config valid holds n s)
    (hfits : config.size + config.blockSize * n < 2 ^ 64) (hlawful : policy.Lawful valid holds)
    (hfrees : policy.Frees valid holds) {a : ThreadAction} (hwithin : a.Within n)
    (ha : Timely s a) (hstep : s.step config policy a = some t) : Roomy config holds n t := by
  have hvalid := h.booked.valid
  cases steps_of_step hstep with
  | bypass hpc | begun hpc | bypassed hpc | ended hpc | missed hpc hblock | outdated hpc hblock hb
  | unlocked hpc | full hpc | fetchFailed hpc hres | fetchEnded hpc | counted hpc =>
    apply h.roomy.of_step (hwithin _ rfl)
    · intro other hother
      exact goto_of_ne _ _ _ hother
    · intro k
      rfl
    · intro keys hkeys
      exact le_of_eq_of_le (congrArg (Pc.adds keys) (goto_self _ _ _)) (Nat.zero_le _)
  | fetched hpc hres | found hpc hmem =>
    apply h.roomy.of_step (hwithin _ rfl)
    · intro other hother
      exact goto_of_ne _ _ _ hother
    · intro k
      rfl
    · intro keys hkeys
      rw [goto_self, hpc]
      simp [Pc.adds]
  | hit hpc | copied hpc =>
    apply h.roomy.of_step (hwithin _ rfl)
    · intro other hother
      exact copy_of_ne _ _ _ _ _ hother
    · intro k
      simp only [copy_cache, Threads.unlock]
    · intro keys hkeys
      apply copy_place (P := fun pc => pc.adds keys ≤ _)
      · exact Nat.zero_le _
      · intro r'
        exact Nat.zero_le _
  | refreshFailed hpc hb hres | refreshed hpc hb hres =>
    have hmem := AList.lookup_isSome.mp (Option.isSome_of_eq_some hb)
    apply h.roomy.of_step (hwithin _ rfl)
    · intro other hother
      exact goto_of_ne _ _ _ hother
    · intro k
      exact or_congr_left (AList.mem_insert_of_mem hmem _)
    · intro keys hkeys
      rw [goto_self]
      exact Nat.zero_le _
  | @touched thread r key env hpc =>
    have hkey : key ∈ s.cache.cache := by
      unfold Timely at ha
      simp only [hpc] at ha
      exact ha.1
    apply h.roomy.of_step (hwithin _ rfl)
    · intro other hother
      exact goto_of_ne _ _ _ hother
    · intro k
      change k ∈ s.cache.cache ∨ holds (policy.touch key s.cache.policyState) k ↔ _
      rw [(hlawful.touch key _ hvalid).2 k]
      by_cases hk : k = key
      · simp [hk, hkey]
      · simp [hk]
    · intro keys hkeys
      rw [goto_self]
      exact Nat.zero_le _
  | removed hpc hshared => exact h.removed (hwithin _ rfl) _ _ _
  | @dropped thread r key res env hpc =>
    have hkey : key ∉ s.cache.cache := by
      unfold Timely at ha
      simpa only [hpc] using ha
    exact h.dropped (hwithin _ rfl) hkey (hlawful.remove key _ hvalid).2
  | room hpc =>
    have hle := cacheSize_le_of_fetching hpc hstep (goto_self _ _ _)
    obtain ⟨keys, hkeys, hbound⟩ := h.roomy
    apply Roomy.of_bound (s := s)
    · exact hkeys
    · exact hwithin _ rfl
    · intro other hother
      exact goto_of_ne _ _ _ hother
    · exact h.room hfits (hwithin _ rfl) hpc hle hkeys hbound
  | evicted hpc hevict =>
    apply h.evicted (hwithin _ rfl)
    · exact hfrees.evicted _ _ _ hvalid hevict
    · exact (hlawful.evict _ _ _ hvalid hevict).2
  | @evictedNone thread r key state env hpc hevict =>
    have hnone := hfrees.exhausted _ _ hvalid hevict
    obtain ⟨keys, hkeys, hbound⟩ := h.roomy
    have hsame : ∀ k, k ∈ keys ↔ k ∈ s.cache.cache ∨ holds state k := by
      intro k
      rw [(hlawful.evict_none _ _ hvalid hevict).2 k]
      exact hkeys k
    apply Roomy.of_bound (s := s)
    · exact hsame
    · exact hwithin _ rfl
    · intro other hother
      exact goto_of_ne _ _ _ hother
    · exact h.exhausted (hwithin _ rfl) hpc hnone hkeys
  | discarded hpc hshared => exact h.discarded (hwithin _ rfl) hpc
  | emplaced hpc hshared => exact h.roomy.emplaced (hwithin _ rfl) hpc
  | opened | released => exact h.roomy

/-- **Step lemma.** Every timely step of the first threads keeps the invariant. -/
theorem Overshoot.step (h : Overshoot config valid holds n s) (hblock : config.blockSize < 2 ^ 64)
    (hfits : config.size + config.blockSize * n < 2 ^ 64) (hlawful : policy.Lawful valid holds)
    (hfrees : policy.Frees valid holds) {a : ThreadAction} (hwithin : a.Within n)
    (ha : Timely s a) (hstep : s.step config policy a = some t) :
    Overshoot config valid holds n t where
  booked := h.booked.step hlawful (h.selected.orderly ha) hstep
  selected := h.selected.step h.booked.valid hlawful hfrees ha hstep
  sized := h.sized.step hblock hwithin hstep
  beyond := beyond_of_step hwithin h.beyond hstep
  roomy := h.roomy_step hfits hlawful hfrees hwithin ha hstep

section Runs

/-- Thread 0 reads a byte whose block is not there, and evicts. -/
def missAt (i : ℕ) : List ThreadAction :=
  [.start 0 ['/', 'f'] 1 i default, quietly 0, quietly 0, quietly 0, quietly 0,
    .advance 0 ⟨(1, [8]), 0⟩, quietly 0, quietly 0, quietly 0, quietly 0, quietly 0, quietly 0]

/-- Thread 1 copies a byte whose block thread 0 evicts before thread 1 touches its key. -/
def touchLate (i : ℕ) : List ThreadAction :=
  [.start 1 ['/', 'f'] 1 i default, quietly 1] ++ missAt (i + 1) ++ [quietly 1, quietly 1]

/-- Two keys without blocks are evicted later, and two blocks are too many. -/
theorem not_blocks_shared : ¬ ∀ (config : DataCacheConfig) (n : ℕ) (actions : List ThreadAction)
    (s : Threads (LruState Key)), config.size + config.blockSize * n < 2 ^ 64 →
    Transition.run (Threads.step config lruEviction) (Threads.initial LruState.empty) actions =
      some s → (∀ a ∈ actions, a.Within n) →
    config.blockSize * s.cache.blocks ≤ config.size + config.blockSize * n := by
  intro hall
  have hthree := hall noRoom 2
    (firstByte ++ touchLate 0 ++ touchLate 1 ++ missAt 3 ++ missAt 4 ++ missAt 5) _ (by decide) rfl
    (by simp [firstByte, touchLate, missAt, quietly, ThreadAction.Within, ThreadAction.thread])
  exact absurd hthree (by decide)

end Runs

end RSafeFS.DataCache
