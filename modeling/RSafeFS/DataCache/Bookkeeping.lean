import RSafeFS.DataCache.Threads
import RSafeFS.Lib.AssocList

/-!
# The keys of the eviction policy

A read enters a block into the cache and touches its key, an eviction takes the key from
the policy and then removes the block, and a failed fetch removes the block and then its
key. Each of these is two steps, and other threads run in between. The invariant says that
the two sets of keys differ only where a thread is between its two steps.
-/

namespace RSafeFS.DataCache

/-- The second step that a thread has still to make. -/
inductive Debt where
  | touch (key : Key)
  | discard (key : Key)
  | drop (key : Key)
  deriving DecidableEq, Repr

/-- What a thread owes at its place. -/
def Pc.owes : Pc → Option Debt
  | .touching _ key | .counting _ key => some (.touch key)
  | .discarding _ _ selected => some (.discard selected)
  | .dropping _ key _ => some (.drop key)
  | _ => none

variable {ρ : Type} (config : DataCacheConfig) (policy : EvictionPolicy Key ρ)
  (valid : ρ → Prop) (holds : ρ → Key → Prop)

/-- A key is touched while its block is in the cache, removed from the policy while its
block is not, and an evicted block is removed before its key has been touched again. -/
def Orderly (s : Threads ρ) : ThreadAction → Prop
  | .advance thread _ =>
    match s.pcs thread with
    | .touching _ key => key ∈ s.cache.cache
    | .dropping _ key _ => key ∉ s.cache.cache
    | .discarding _ _ selected => ¬ holds s.cache.policyState selected
    | _ => True
  | _ => True

/-- No read is in progress. -/
def Threads.Quiet (s : Threads ρ) : Prop := ∀ thread, s.pcs thread = .idle

/-- The policy holds the keys of the cache, but for those of which a thread owes a step. -/
structure Booked (s : Threads ρ) : Prop where
  valid : valid s.cache.policyState
  cached : ∀ k, holds s.cache.policyState k → k ∉ s.cache.cache →
    ∃ thread, (s.pcs thread).owes = some (.drop k)
  chosen : ∀ k, k ∈ s.cache.cache → ¬ holds s.cache.policyState k →
    ∃ thread, (s.pcs thread).owes = some (.touch k) ∨ (s.pcs thread).owes = some (.discard k)

variable {config policy valid holds} {s t : Threads ρ}

/-- A step of one thread keeps the invariant if every difference of the two sets that it
leaves is one it owes a step for, or was there before without its owing that step. -/
theorem Booked.of_step (h : Booked valid holds s) (thread : ℕ)
    (hpcs : ∀ other, other ≠ thread → t.pcs other = s.pcs other)
    (hvalid : valid t.cache.policyState)
    (hcached : ∀ k, holds t.cache.policyState k → k ∉ t.cache.cache →
      (t.pcs thread).owes = some (.drop k) ∨
        (holds s.cache.policyState k ∧ k ∉ s.cache.cache ∧ (s.pcs thread).owes ≠ some (.drop k)))
    (hchosen : ∀ k, k ∈ t.cache.cache → ¬ holds t.cache.policyState k →
      ((t.pcs thread).owes = some (.touch k) ∨ (t.pcs thread).owes = some (.discard k)) ∨
        (k ∈ s.cache.cache ∧ ¬ holds s.cache.policyState k ∧
          (s.pcs thread).owes ≠ some (.touch k) ∧ (s.pcs thread).owes ≠ some (.discard k))) :
    Booked valid holds t := by
  refine ⟨hvalid, fun k hk hnot => ?_, fun k hk hnot => ?_⟩
  · rcases hcached k hk hnot with howes | ⟨hk', hnot', howes⟩
    · exact ⟨thread, howes⟩
    · obtain ⟨other, hother⟩ := h.cached k hk' hnot'
      have hne : other ≠ thread := by
        rintro rfl
        exact howes hother
      exact ⟨other, by rwa [hpcs other hne]⟩
  · rcases hchosen k hk hnot with howes | ⟨hk', hnot', htouch, hdiscard⟩
    · exact ⟨thread, howes⟩
    · obtain ⟨other, hother⟩ := h.chosen k hk' hnot'
      have hne : other ≠ thread := by
        rintro rfl
        exact hother.elim htouch hdiscard
      exact ⟨other, by rwa [hpcs other hne]⟩

/-- A step that changes neither set keeps the invariant if the thread owed nothing. -/
theorem Booked.of_same (h : Booked valid holds s) {thread : ℕ} {pc : Pc}
    (hpc : s.pcs thread = pc) (hnone : pc.owes = none)
    (hpcs : ∀ other, other ≠ thread → t.pcs other = s.pcs other)
    (hpolicy : t.cache.policyState = s.cache.policyState)
    (hkeys : ∀ k, k ∈ t.cache.cache ↔ k ∈ s.cache.cache) : Booked valid holds t := by
  refine h.of_step thread hpcs (hpolicy ▸ h.valid) (fun k hk hnot => Or.inr ?_)
    fun k hk hnot => Or.inr ?_
  · rw [hpolicy] at hk
    rw [hkeys] at hnot
    exact ⟨hk, hnot, by simp [hpc, hnone]⟩
  · rw [hpolicy] at hnot
    rw [hkeys] at hk
    exact ⟨hk, hnot, by simp [hpc, hnone], by simp [hpc, hnone]⟩

/-- A thread that owed nothing moves to another place. -/
theorem Booked.goto (h : Booked valid holds s) {thread : ℕ} {pc pc' : Pc}
    (hpc : s.pcs thread = pc) (hnone : pc.owes = none) : Booked valid holds (s.goto thread pc') :=
  h.of_same hpc hnone (fun _ => goto_of_ne _ _ _) rfl fun _ => Iff.rfl

/-- **Step lemma.** Every orderly step keeps the invariant. -/
theorem Booked.step (hlawful : policy.Lawful valid holds) (h : Booked valid holds s)
    {a : ThreadAction} (hok : Orderly holds s a) (hstep : s.step config policy a = some t) :
    Booked valid holds t := by
  cases steps_of_step hstep with
  | bypass hpc | begun hpc | missed hpc | full hpc | room hpc | fetched hpc | found hpc =>
    exact h.goto hpc rfl
  | bypassed hpc | ended hpc | outdated hpc | unlocked hpc | fetchFailed hpc | fetchEnded hpc =>
    exact h.of_same hpc rfl (fun _ => goto_of_ne _ _ _) rfl fun _ => Iff.rfl
  | hit hpc hblock hb hvalid =>
    exact h.of_same hpc rfl (fun _ => copy_of_ne _ _ _ _ _) (by rw [copy_cache])
      fun k => by rw [copy_cache]
  | refreshFailed hpc hb | refreshed hpc hb =>
    exact h.of_same hpc rfl (fun _ => goto_of_ne _ _ _) rfl
      fun _ => AList.mem_insert_of_mem (AList.lookup_isSome.mp (by rw [hb]; rfl)) _
  | copied hpc hb =>
    exact h.of_same hpc rfl (fun _ => copy_of_ne _ _ _ _ _) (by rw [copy_cache]; rfl)
      fun k => by rw [copy_cache]; rfl
  | @touched thread r key env hpc =>
    have hkey : key ∈ s.cache.cache := by simpa only [Orderly, hpc] using hok
    obtain ⟨hvalid, hholds⟩ := hlawful.touch key s.cache.policyState h.valid
    refine h.of_step thread (fun _ => goto_of_ne _ _ _) hvalid (fun k hk hnot => Or.inr ?_)
      fun k hk hnot => Or.inr ?_
    · rcases (hholds k).mp hk with rfl | hk
      · exact absurd hkey hnot
      · exact ⟨hk, hnot, by simp [hpc, Pc.owes]⟩
    · have hboth := not_or.mp (mt (hholds k).mpr hnot)
      exact ⟨hk, hboth.2, by simp [hpc, Pc.owes, Ne.symm hboth.1], by simp [hpc, Pc.owes]⟩
  | @removed thread r key res env hpc hshared =>
    have hpolicy := removeBlock_policyState config s.cache key
    refine h.of_step thread (fun _ => goto_of_ne _ _ _) ?_ (fun k hk hnot => ?_) fun k hk hnot => ?_
    · exact (congrArg valid hpolicy).mpr h.valid
    · replace hk : holds s.cache.policyState k := (congrArg (holds · k) hpolicy).mp hk
      by_cases hne : k = key
      · subst hne
        exact Or.inl (by rw [goto_self]; rfl)
      · exact Or.inr ⟨hk, fun hmem => hnot (mem_removeBlock.mpr ⟨hne, hmem⟩), by simp [hpc, Pc.owes]⟩
    · replace hnot : ¬ holds s.cache.policyState k := fun hold =>
        hnot ((congrArg (holds · k) hpolicy).mpr hold)
      exact Or.inr ⟨(mem_removeBlock.mp hk).2, hnot, by simp [hpc, Pc.owes]⟩
  | @dropped thread r key res env hpc =>
    have hkey : key ∉ s.cache.cache := by simpa only [Orderly, hpc] using hok
    obtain ⟨hvalid, hholds⟩ := hlawful.remove key s.cache.policyState h.valid
    refine h.of_step thread (fun _ => goto_of_ne _ _ _) hvalid (fun k hk hnot => Or.inr ?_)
      fun k hk hnot => Or.inr ?_
    · obtain ⟨hne, hk⟩ := (hholds k).mp hk
      exact ⟨hk, hnot, by simp [hpc, Pc.owes, Ne.symm hne]⟩
    · refine ⟨hk, fun hold => ?_, by simp [hpc, Pc.owes], by simp [hpc, Pc.owes]⟩
      have hne : k ≠ key := by
        rintro rfl
        exact hkey hk
      exact hnot ((hholds k).mpr ⟨hne, hold⟩)
  | @evicted thread r key selected state env hpc hevict =>
    obtain ⟨hvalid, hholds⟩ := hlawful.evict _ _ _ h.valid hevict
    refine h.of_step thread (fun _ => goto_of_ne _ _ _) hvalid (fun k hk hnot => Or.inr ?_)
      fun k hk hnot => ?_
    · exact ⟨((hholds k).mp hk).2, hnot, by simp [hpc, Pc.owes]⟩
    · by_cases hne : k = selected
      · subst hne
        exact Or.inl (Or.inr (by rw [goto_self]; rfl))
      · refine Or.inr ⟨hk, fun hold => hnot ((hholds k).mpr ⟨hne, hold⟩), ?_⟩
        simp [hpc, Pc.owes]
  | @evictedNone thread r key state env hpc hevict =>
    obtain ⟨hvalid, hholds⟩ := hlawful.evict_none _ _ h.valid hevict
    refine h.of_step thread (fun _ => goto_of_ne _ _ _) hvalid (fun k hk hnot => Or.inr ?_)
      fun k hk hnot => Or.inr ?_
    · exact ⟨(hholds k).mp hk, hnot, by simp [hpc, Pc.owes]⟩
    · exact ⟨hk, mt (hholds k).mpr hnot, by simp [hpc, Pc.owes], by simp [hpc, Pc.owes]⟩
  | @discarded thread r key selected env hpc hshared =>
    have hselected : ¬ holds s.cache.policyState selected := by simpa only [Orderly, hpc] using hok
    have hpolicy := removeBlock_policyState config s.cache selected
    refine h.of_step thread (fun _ => goto_of_ne _ _ _) ?_ (fun k hk hnot => Or.inr ?_)
      fun k hk hnot => Or.inr ?_
    · exact (congrArg valid hpolicy).mpr h.valid
    · replace hk : holds s.cache.policyState k := (congrArg (holds · k) hpolicy).mp hk
      have hne : k ≠ selected := by
        rintro rfl
        exact hselected hk
      exact ⟨hk, fun hmem => hnot (mem_removeBlock.mpr ⟨hne, hmem⟩), by simp [hpc, Pc.owes]⟩
    · replace hnot : ¬ holds s.cache.policyState k := fun hold =>
        hnot ((congrArg (holds · k) hpolicy).mpr hold)
      obtain ⟨hne, hmem⟩ := mem_removeBlock.mp hk
      exact ⟨hmem, hnot, by simp [hpc, Pc.owes], by simp [hpc, Pc.owes, Ne.symm hne]⟩
  | @emplaced thread r key newBuf blockSize env hpc hshared =>
    refine h.of_step thread (fun _ => goto_of_ne _ _ _) h.valid (fun k hk hnot => Or.inr ?_)
      fun k hk hnot => ?_
    · exact ⟨hk, fun hmem => hnot ((AList.mem_insert _).mpr (Or.inr hmem)), by simp [hpc, Pc.owes]⟩
    · rcases (AList.mem_insert _).mp hk with rfl | hmem
      · exact Or.inl (Or.inl (by rw [goto_self]; rfl))
      · exact Or.inr ⟨hmem, hnot, by simp [hpc, Pc.owes]⟩
  | @counted thread r key env hpc =>
    refine h.of_step thread (fun _ => goto_of_ne _ _ _) h.valid (fun k hk hnot => Or.inr ?_)
      fun k hk hnot => ?_
    · exact ⟨hk, hnot, by simp [hpc, Pc.owes]⟩
    · by_cases hne : k = key
      · subst hne
        exact Or.inl (Or.inl (by rw [goto_self]; rfl))
      · exact Or.inr ⟨hk, hnot, by simp [hpc, Pc.owes, Ne.symm hne], by simp [hpc, Pc.owes]⟩
  | opened => exact ⟨h.valid, h.cached, h.chosen⟩
  | released => exact ⟨h.valid, h.cached, h.chosen⟩

/-- In every run of orderly steps the two sets agree whenever no read is in progress. -/
theorem keys_agree_of_lawful (hlawful : policy.Lawful valid holds) {policyState : ρ}
    (hvalid : valid policyState) (hempty : ∀ k, ¬ holds policyState k)
    {actions : List ThreadAction}
    (hrun : Transition.run (Threads.step config policy) (Threads.initial policyState) actions = some s)
    (hok : Transition.Meets (Threads.step config policy) (Orderly holds)
      (Threads.initial policyState) actions) (hquiet : s.Quiet) (k : Key) :
    holds s.cache.policyState k ↔ k ∈ s.cache.cache := by
  have hinitial : Booked valid holds (Threads.initial policyState) :=
    ⟨hvalid, fun k hk => absurd hk (hempty k), fun k hk => absurd hk (AList.notMem_empty k)⟩
  have hbooked := Transition.invariant (fun s a t h hsa hstep => h.step hlawful hsa hstep) hrun hok
    hinitial
  constructor
  · intro hk
    by_contra hnot
    obtain ⟨thread, howes⟩ := hbooked.cached k hk hnot
    simp [hquiet thread, Pc.owes] at howes
  · intro hk
    by_contra hnot
    obtain ⟨thread, howes⟩ := hbooked.chosen k hk hnot
    simp [hquiet thread, Pc.owes] at howes

/-- **Bookkeeping.** With either policy, in every run of any number of reads whose steps are
orderly, whenever no read is in progress the policy holds the keys of the cache. -/
theorem keys_agree (config : DataCacheConfig) :
    (∀ (actions : List ThreadAction) (s : Threads (LruState Key)),
      Transition.run (Threads.step config lruEviction) (Threads.initial LruState.empty) actions =
        some s →
      Transition.Meets (Threads.step config lruEviction) (Orderly fun p k => k ∈ p.map)
        (Threads.initial LruState.empty) actions →
      s.Quiet → ∀ k, k ∈ s.cache.policyState.map ↔ k ∈ s.cache.cache) ∧
    (∀ (γ : Type) (generator : Generator γ) (randGen : γ) (actions : List ThreadAction)
      (s : Threads (RndState Key γ)),
      Transition.run (Threads.step config (rndEviction generator)) (Threads.initial ⟨[], randGen⟩)
        actions = some s →
      Transition.Meets (Threads.step config (rndEviction generator)) (Orderly fun p k => k ∈ p.keys)
        (Threads.initial ⟨[], randGen⟩) actions →
      s.Quiet → ∀ k, k ∈ s.cache.policyState.keys ↔ k ∈ s.cache.cache) := by
  constructor
  · intro actions s hrun hok hquiet k
    exact keys_agree_of_lawful lruEviction_lawful LruState.valid_empty (fun k => AList.notMem_empty k)
      hrun hok hquiet k
  · intro γ generator randGen actions s hrun hok hquiet k
    exact keys_agree_of_lawful (rndEviction_lawful generator) List.nodup_nil
      (fun k => List.not_mem_nil) hrun hok hquiet k

section Runs

/-- Blocks of one byte, and room for none of them after the first. -/
def noRoom : DataCacheConfig := { size := 0, blockSize := 1, timeOut := 0 }

/-- A step in which the thread asks for nothing. -/
def quietly (thread : ℕ) : ThreadAction := .advance thread ⟨(0, []), 0⟩

/-- Thread 0 reads the first byte, and its block enters the cache. -/
def firstByte : List ThreadAction :=
  [.opened ['/', 'f'] ⟨0, 0⟩, .start 0 ['/', 'f'] 1 0 default, quietly 0, quietly 0,
    .advance 0 ⟨(1, [7]), 0⟩, quietly 0, quietly 0, quietly 0, quietly 0, quietly 0, quietly 0]

/-- Thread 1 reads the first byte and is about to touch the block. -/
def readAgain : List ThreadAction := [.start 1 ['/', 'f'] 1 0 default, quietly 1]

/-- Thread 0 reads the second byte, for which the first block is evicted. -/
def secondByte : List ThreadAction :=
  [.start 0 ['/', 'f'] 1 1 default, quietly 0, quietly 0, quietly 0, quietly 0,
    .advance 0 ⟨(1, [8]), 0⟩, quietly 0, quietly 0, quietly 0, quietly 0, quietly 0, quietly 0]

theorem firstByte_orderly :
    Transition.Meets (Threads.step noRoom lruEviction) (Orderly fun p k => k ∈ p.map)
      (Threads.initial LruState.empty) firstByte := by
  refine .cons trivial rfl (.cons trivial rfl (.cons trivial rfl (.cons trivial rfl
    (.cons trivial rfl (.cons trivial rfl (.cons trivial rfl (.cons ?_ rfl (.cons trivial rfl
      (.cons ?_ rfl (.cons trivial rfl trivial))))))))))
  · exact (AList.mem_insert _).mpr (Or.inl rfl)
  · exact (AList.mem_insert _).mpr (Or.inl rfl)

/-- Two reads, one after the other, with an eviction. -/
theorem keys_agree_oneThread :
    ∃ s, Transition.run (Threads.step noRoom lruEviction) (Threads.initial LruState.empty)
        (firstByte ++ secondByte) = some s ∧ s.cache.cache.keys = [(['/', 'f'], 1)] ∧
      ∀ k, k ∈ s.cache.policyState.map ↔ k ∈ s.cache.cache := by
  obtain ⟨s, hrun, hkeys, hquiet⟩ : ∃ s, Transition.run (Threads.step noRoom lruEviction)
      (Threads.initial LruState.empty) (firstByte ++ secondByte) = some s ∧
      s.cache.cache.keys = [(['/', 'f'], 1)] ∧ s.Quiet :=
    ⟨_, rfl, rfl, fun thread => match thread with
      | 0 => rfl
      | _ + 1 => rfl⟩
  refine ⟨s, hrun, hkeys, (keys_agree noRoom).1 _ s hrun (firstByte_orderly.append rfl ?_) hquiet⟩
  refine .cons trivial rfl (.cons trivial rfl (.cons trivial rfl (.cons trivial rfl
    (.cons ?_ rfl (.cons trivial rfl (.cons trivial rfl (.cons trivial rfl (.cons ?_ rfl
      (.cons trivial rfl (.cons ?_ rfl (.cons trivial rfl trivial)))))))))))
  · exact List.not_mem_nil
  · exact (AList.mem_insert _).mpr (Or.inl rfl)
  · exact (AList.mem_insert _).mpr (Or.inl rfl)

/-- A key that is touched after its block has been evicted stays with the policy. -/
theorem not_keys_agree : ¬ ∀ (config : DataCacheConfig) (actions : List ThreadAction)
    (s : Threads (LruState Key)),
    Transition.run (Threads.step config lruEviction) (Threads.initial LruState.empty) actions =
      some s → s.Quiet → ∀ k, k ∈ s.cache.policyState.map ↔ k ∈ s.cache.cache := by
  intro hall
  have hagree := hall noRoom (firstByte ++ readAgain ++ secondByte ++ [quietly 1, quietly 1]) _ rfl
    (fun thread => match thread with
      | 0 => rfl
      | 1 => rfl
      | _ + 2 => rfl) (['/', 'f'], 0)
  exact absurd hagree (by decide)

end Runs

end RSafeFS.DataCache
