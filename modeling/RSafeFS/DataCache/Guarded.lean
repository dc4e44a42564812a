import RSafeFS.DataCache.BlockLocks
import RSafeFS.DataCache.Bookkeeping

/-!
# What the locks of the blocks keep apart

Every place of a thread says which locks it holds, and the locks agree with the places. So a
block stays as it was checked until it has been copied, nobody looks at a block that is being
fetched again, and no block is removed while a thread holds or waits for its lock. From this it
follows that the steps of `Threads` are right to take a check and its copy together.
-/

namespace RSafeFS.DataCache

/-- A thread's place in the code, with what it holds there. -/
abbrev Place := Pc × Stage

/-- The place of a thread. -/
def Locking.place {ρ : Type} (s : Locking ρ) (i : ℕ) : Place := (s.threads.pcs i, s.stages i)

/-- The block that a thread looks at, checks or updates. -/
def Pc.block (config : DataCacheConfig) : Pc → Option Key
  | .looking r => some (r.key config)
  | .refreshing _ key | .copying _ key => some key
  | _ => none

/-- The thread holds `cache_mtx_` shared. -/
def SharesCache : Place → Prop
  | (.looking _, .waiting) | (.looking _, .reading) | (.looking _, .checked _) => True
  | (pc, _) => pc.holds ≠ none

/-- The thread holds `cache_mtx_` exclusively. -/
def OwnsCache (p : Place) : Prop := p.2 = .exclusive

/-- The thread holds the lock of the block shared. -/
def SharesBlock (config : DataCacheConfig) (key : Key) : Place → Prop
  | (pc, .reading) | (pc, .checked _) => pc.block config = some key
  | _ => False

/-- The thread holds the lock of the block exclusively. -/
def OwnsBlock (config : DataCacheConfig) (key : Key) : Place → Prop
  | (pc, .writing) => pc.block config = some key
  | _ => False

/-- The stages of each place. -/
def Fits : Place → Prop
  | (_, .free) => True
  | (.looking _, .waiting) | (.looking _, .reading) | (.looking _, .checked _) => True
  | (.refreshing _ _, .writing) | (.copying _ _, .reading) => True
  | (.removing _ _ _, .exclusive) | (.discarding _ _ _, .exclusive) => True
  | (.emplacing _ _ _ _, .exclusive) => True
  | _ => False

variable {ρ : Type}

/-- The block of a thread that holds `cache_mtx_` shared is in the cache, and valid once checked;
the thread is inside the loop. -/
structure Sees (config : DataCacheConfig) (c : Cache ρ) (p : Place) : Prop where
  present : SharesCache p → ∀ key, p.1.block config = some key → key ∈ c.cache
  entered : SharesCache p → ∀ r, p.1 = .looking r →
    r.out.length ≠ r.size ∧ config.blockSize ≠ 0
  valid : ∀ r now, p = (.looking r, .checked now) →
    ∃ b, c.cache.lookup (r.key config) = some b ∧ b.isValid config.timeOut r.mtime now = true

/-- The threads listed as holders of `cache_mtx_` between two steps are those at such places. -/
structure Listed (s : Threads ρ) : Prop where
  nodup : s.shared.Nodup
  listed : ∀ i, i ∈ s.shared ↔ (s.pcs i).holds ≠ none

/-- The invariant of the locks. -/
structure Guarded (config : DataCacheConfig) (s : Locking ρ) : Prop where
  fits : ∀ i, Fits (s.place i)
  cache : s.cacheMtx.HeldBy SharesCache OwnsCache s.place
  blocks : ∀ key, (s.blockMtx key).HeldBy (SharesBlock config key) (OwnsBlock config key) s.place
  sees : ∀ i, Sees config s.threads.cache (s.place i)
  listed : Listed s.threads

variable {config : DataCacheConfig} {policy : EvictionPolicy Key ρ}

section Coarse

variable {s t : Threads ρ} {thread : ℕ}

/-- A step of a thread that neither takes nor lets go of the lock. -/
theorem Listed.keep (h : Listed s) (thread : ℕ)
    (hpcs : ∀ other, other ≠ thread → t.pcs other = s.pcs other) (hshared : t.shared = s.shared)
    (hholds : (t.pcs thread).holds ≠ none ↔ (s.pcs thread).holds ≠ none) : Listed t := by
  constructor
  · rw [hshared]
    exact h.nodup
  · rw [hshared]
    refine SharedMutex.forall_of_move (i := thread) ?_ ?_
    · exact (h.listed thread).trans hholds.symm
    · intro other hother
      rw [hpcs other hother]
      exact h.listed other

/-- A step in which a thread lets the lock go. -/
theorem Listed.unlock (h : Listed s) (thread : ℕ)
    (hpcs : ∀ other, other ≠ thread → t.pcs other = s.pcs other)
    (hshared : t.shared = s.shared.erase thread) (hholds : (t.pcs thread).holds = none) :
    Listed t := by
  constructor
  · rw [hshared]
    exact h.nodup.erase thread
  · rw [hshared]
    refine SharedMutex.forall_of_move (i := thread) ?_ ?_
    · exact iff_of_false (h.nodup.not_mem_erase) (not_not_intro hholds)
    · intro other hother
      rw [hpcs other hother, List.mem_erase_of_ne hother]
      exact h.listed other

/-- A step in which a thread takes the lock. -/
theorem Listed.lock (h : Listed s) (thread : ℕ)
    (hpcs : ∀ other, other ≠ thread → t.pcs other = s.pcs other)
    (hshared : t.shared = thread :: s.shared) (hbefore : (s.pcs thread).holds = none)
    (hholds : (t.pcs thread).holds ≠ none) : Listed t := by
  constructor
  · rw [hshared]
    apply List.nodup_cons.mpr
    exact ⟨fun hmem => (h.listed thread).mp hmem hbefore, h.nodup⟩
  · rw [hshared]
    refine SharedMutex.forall_of_move (i := thread) ?_ ?_
    · exact iff_of_true List.mem_cons_self hholds
    · intro other hother
      rw [hpcs other hother, ← h.listed other, List.mem_cons]
      exact or_iff_right hother

/-- After a copy a thread uses no block. -/
theorem copy_holds (s : Threads ρ) (thread : ℕ) (r : Reading) (key : Key) (b : Block) :
    ((s.copy thread r key b).pcs thread).holds = none := by
  rcases copy_self s thread r key b with hpc | ⟨r', hpc⟩
  · rw [hpc]
    rfl
  · rw [hpc]
    rfl

/-- A thread that uses no block moves to where it uses none. -/
theorem Listed.goto (h : Listed s) {s' : Threads ρ} {pc : Pc}
    (hsame : s'.pcs = s.pcs ∧ s'.shared = s.shared) (hbefore : (s.pcs thread).holds = none)
    (hafter : pc.holds = none) : Listed (s'.goto thread pc) := by
  obtain ⟨hpcs, hshared⟩ := hsame
  apply h.keep thread
  · intro other hother
    rw [goto_of_ne _ _ _ hother, hpcs]
  · exact hshared
  · rw [goto_self, hbefore, hafter]

/-- Every step keeps the list. -/
theorem Listed.step (h : Listed s) {a : ThreadAction} (hstep : s.step config policy a = some t) :
    Listed t := by
  cases steps_of_step hstep with
  | bypass hpc | begun hpc | bypassed hpc | ended hpc | missed hpc hblock | touched hpc
  | removed hpc hshared | dropped hpc | full hpc | room hpc | evicted hpc hevict
  | evictedNone hpc hevict | discarded hpc hshared | fetchFailed hpc hres | fetchEnded hpc
  | fetched hpc hres | found hpc hmem | emplaced hpc hshared | counted hpc =>
    apply h.goto
    · exact ⟨rfl, rfl⟩
    · rw [hpc]
      rfl
    · rfl
  | @hit thread r env b hpc hblock hb hvalid =>
    apply h.keep thread
    · intro other hother
      exact copy_of_ne _ _ _ _ _ hother
    · exact copy_shared _ _ _ _ _
    · rw [copy_holds, hpc]
      rfl
  | @outdated thread r env b hpc hblock hb =>
    apply h.lock thread
    · intro other hother
      exact goto_of_ne _ _ _ hother
    · rfl
    · rw [hpc]
      rfl
    · rw [goto_self]
      exact Option.some_ne_none _
  | @refreshFailed thread r key env b hpc hb hres =>
    apply h.keep thread
    · intro other hother
      exact goto_of_ne _ _ _ hother
    · rfl
    · rw [goto_self, hpc]
      rfl
  | @refreshed thread r key env b hpc hb hres =>
    apply h.keep thread
    · intro other hother
      exact goto_of_ne _ _ _ hother
    · rfl
    · rw [goto_self, hpc]
      rfl
  | @copied thread r key env b hpc hb =>
    apply h.unlock thread
    · intro other hother
      rw [copy_of_ne _ _ _ _ _ hother]
      rfl
    · exact copy_shared _ _ _ _ _
    · exact copy_holds _ _ _ _ _
  | @unlocked thread r key res env hpc =>
    apply h.unlock thread
    · intro other hother
      exact goto_of_ne _ _ _ hother
    · rfl
    · rw [goto_self]
      rfl
  | opened | released => exact ⟨h.nodup, h.listed⟩

/-- A step from a place that needs no lock takes none, and leaves the blocks as they are. -/
theorem plain_of_step {env : Env} (hplain : (s.pcs thread).isPlain = true)
    (hstep : s.step config policy (.advance thread env) = some t) :
    t.cache.cache = s.cache.cache ∧ (∀ other, other ≠ thread → t.pcs other = s.pcs other) ∧
      (t.pcs thread).holds = none := by
  cases steps_of_step hstep with
  | bypassed | touched | dropped | full | room | evicted | evictedNone | fetchFailed | fetchEnded
  | fetched | counted =>
    refine ⟨rfl, fun other hother => goto_of_ne _ _ _ hother, ?_⟩
    exact congrArg Pc.holds (goto_self _ _ _)
  | ended hpc | missed hpc | hit hpc | outdated hpc | refreshFailed hpc | refreshed hpc | copied hpc
  | unlocked hpc | removed hpc | discarded hpc | found hpc | emplaced hpc =>
    rw [hpc] at hplain
    cases hplain

end Coarse

section Locks

variable {s t : Locking ρ} {thread : ℕ} {p p' : Place}

/-- One thread moves from a place to another. -/
structure Moves (s t : Locking ρ) (thread : ℕ) (p p' : Place) : Prop where
  before : s.place thread = p
  after : t.place thread = p'
  others : ∀ other, other ≠ thread → t.place other = s.place other

/-- A thread moves if the places and stages of the others stay. -/
theorem moves_of_eq {pc pc' : Pc} {stage stage' : Stage} (hpc : s.threads.pcs thread = pc)
    (hstage : s.stages thread = stage) (hpc' : t.threads.pcs thread = pc')
    (hpcs : ∀ other, other ≠ thread → t.threads.pcs other = s.threads.pcs other)
    (hstages : t.stages = Function.update s.stages thread stage') :
    Moves s t thread (pc, stage) (pc', stage') where
  before := by rw [Locking.place, hpc, hstage]
  after := by rw [Locking.place, hpc', hstages, Function.update_self]
  others other hother := by
    rw [Locking.place, hpcs other hother, hstages, Function.update_of_ne hother]
    rfl

/-- A step that leaves `cache_mtx_` as it is. -/
theorem Moves.keepCache (hm : Moves s t thread p p') (h : Guarded config s)
    (hmtx : t.cacheMtx = s.cacheMtx) (hshares : SharesCache p' ↔ SharesCache p)
    (howns : OwnsCache p' ↔ OwnsCache p) : t.cacheMtx.HeldBy SharesCache OwnsCache t.place := by
  rw [hmtx]
  apply h.cache.keep thread hm.others
  · rw [hm.before, hm.after]
    exact hshares
  · rw [hm.before, hm.after]
    exact howns

/-- A step that leaves the locks of the blocks as they are. -/
theorem Moves.keepBlocks (hm : Moves s t thread p p') (h : Guarded config s)
    (hmtx : t.blockMtx = s.blockMtx)
    (hshares : ∀ key, SharesBlock config key p' ↔ SharesBlock config key p)
    (howns : ∀ key, OwnsBlock config key p' ↔ OwnsBlock config key p) (key : Key) :
    (t.blockMtx key).HeldBy (SharesBlock config key) (OwnsBlock config key) t.place := by
  rw [hmtx]
  apply (h.blocks key).keep thread hm.others
  · rw [hm.before, hm.after]
    exact hshares key
  · rw [hm.before, hm.after]
    exact howns key

/-- A step that changes the lock of one block. -/
theorem Moves.setBlock (hm : Moves s t thread p p') (h : Guarded config s) (key : Key)
    {m : SharedMutex ℕ} (hmtx : t.blockMtx = Function.update s.blockMtx key m)
    (hkey : m.HeldBy (SharesBlock config key) (OwnsBlock config key) t.place)
    (hother : ∀ k, k ≠ key → (SharesBlock config k p' ↔ SharesBlock config k p) ∧
      (OwnsBlock config k p' ↔ OwnsBlock config k p)) (k : Key) :
    (t.blockMtx k).HeldBy (SharesBlock config k) (OwnsBlock config k) t.place := by
  rw [hmtx]
  by_cases hk : k = key
  · subst hk
    rw [Function.update_self]
    exact hkey
  · rw [Function.update_of_ne hk]
    apply (h.blocks k).keep thread hm.others
    · rw [hm.before, hm.after]
      exact (hother k hk).1
    · rw [hm.before, hm.after]
      exact (hother k hk).2

/-- A step of one thread keeps the invariant if its locks, what it sees and what the others see
stay right. -/
theorem Guarded.of_moves (h : Guarded config s) (hm : Moves s t thread p p') (hfits : Fits p')
    (hcache : t.cacheMtx.HeldBy SharesCache OwnsCache t.place)
    (hblocks : ∀ key, (t.blockMtx key).HeldBy (SharesBlock config key) (OwnsBlock config key) t.place)
    (hsees : Sees config t.threads.cache p')
    (hothers : ∀ other, other ≠ thread → Sees config t.threads.cache (s.place other))
    (hlisted : Listed t.threads) : Guarded config t where
  fits := by
    refine SharedMutex.forall_of_move (i := thread) ?_ ?_
    · rw [hm.after]
      exact hfits
    · intro other hother
      rw [hm.others other hother]
      exact h.fits other
  cache := hcache
  blocks := hblocks
  sees := by
    refine SharedMutex.forall_of_move (i := thread) ?_ ?_
    · rw [hm.after]
      exact hsees
    · intro other hother
      rw [hm.others other hother]
      exact hothers other hother
  listed := hlisted

/-- A thread that holds nothing sees nothing. -/
theorem sees_of_free {c : Cache ρ} {pc : Pc} (hpc : pc.holds = none) : Sees config c (pc, .free) where
  present hshares := by
    cases pc with
    | looking => exact absurd hpc hshares
    | _ => exact absurd hpc hshares
  entered hshares := by
    cases pc with
    | looking => exact absurd hpc hshares
    | _ => exact absurd hpc hshares
  valid _ _ hp := by cases hp

theorem sharesCache_free {pc : Pc} : SharesCache (pc, .free) ↔ pc.holds ≠ none := by
  cases pc <;> exact Iff.rfl

theorem sharesCache_of_holds {pc : Pc} {stage : Stage} (hpc : pc.holds ≠ none) :
    SharesCache (pc, stage) := by
  cases pc with
  | looking => exact absurd rfl hpc
  | _ => exact hpc

/-- While a thread holds `cache_mtx_` exclusively, no thread holds it between two steps. -/
theorem Guarded.shared_eq_nil (h : Guarded config s) (howns : OwnsCache (s.place thread)) :
    s.threads.shared = [] := by
  rw [List.eq_nil_iff_forall_not_mem]
  intro i hi
  apply h.cache.not_shares howns i
  exact sharesCache_of_holds ((h.listed.listed i).mp hi)

/-- The change of the map is the step of a thread while nobody shares `cache_mtx_`. -/
theorem step_of_change {s t : Threads ρ} {env : Env} (hshared : s.shared = [])
    (hchange : s.change config thread env (s.pcs thread) = some t) :
    s.step config policy (.advance thread env) = some t := by
  simp only [Threads.step]
  cases hpc : s.pcs thread with
  | removing | discarding =>
    rw [hpc] at hchange
    simp only [Threads.advance, if_pos hshared]
    exact hchange
  | emplacing =>
    rw [hpc] at hchange
    simp only [Threads.advance, if_pos hshared]
    exact hchange
  | _ =>
    rw [hpc] at hchange
    cases hchange

/-- The change of the map moves its thread to where it uses no block. -/
theorem others_of_change {s t : Threads ρ} {env : Env} {pc : Pc}
    (hchange : s.change config thread env pc = some t) :
    (∀ other, other ≠ thread → t.pcs other = s.pcs other) ∧ (t.pcs thread).holds = none := by
  cases pc with
  | removing | discarding =>
    obtain rfl := Option.some.inj hchange
    refine ⟨fun other hother => goto_of_ne _ _ _ hother, ?_⟩
    rw [goto_self]
    rfl
  | emplacing =>
    simp only [Threads.change] at hchange
    split at hchange
    · obtain rfl := Option.some.inj hchange
      refine ⟨fun other hother => goto_of_ne _ _ _ hother, ?_⟩
      rw [goto_self]
      rfl
    · obtain rfl := Option.some.inj hchange
      refine ⟨fun other hother => goto_of_ne _ _ _ hother, ?_⟩
      rw [goto_self]
      rfl
  | _ => cases hchange

/-- **Step refinement.** A step either leaves the threads as they are or is one of `Threads`. -/
theorem Guarded.coarse_step (h : Guarded config s) {a : ThreadAction}
    (hstep : s.step config policy a = some t) :
    t.threads = s.threads ∨ ∃ a', s.threads.step config policy a' = some t.threads := by
  cases lockSteps_of_step hstep with
  | outside ha hcoarse => exact Or.inr ⟨_, hcoarse⟩
  | plain hstage hpc hcoarse => exact Or.inr ⟨_, hcoarse⟩
  | found | lockFound | valid | lockOutdated | lockUpdated | lockCache => exact Or.inl rfl
  | @ended thread env r hpc hstage hlength =>
    refine Or.inr ⟨.advance thread env, ?_⟩
    simp only [Threads.step, hpc, Threads.advance, Threads.look, if_pos hlength]
  | @missed thread env r hpc hstage hlength hblock hnone =>
    unfold Reading.key at hnone
    refine Or.inr ⟨.advance thread env, ?_⟩
    simp only [Threads.step, hpc, Threads.advance, Threads.look, if_neg hlength, if_neg hblock, hnone]
    rfl
  | @outdated thread env r b hpc hstage hb hvalid =>
    have hshares : SharesCache (s.place thread) := by
      rw [Locking.place, hpc, hstage]
      trivial
    obtain ⟨hlength, hblock⟩ := (h.sees thread).entered hshares r hpc
    unfold Reading.key at hb
    refine Or.inr ⟨.advance thread env, ?_⟩
    simp only [Threads.step, hpc, Threads.advance, Threads.look, if_neg hlength, if_neg hblock, hb,
      if_neg hvalid]
    rfl
  | @hit thread env r b now hpc hstage hb =>
    have hplace : s.place thread = (.looking r, .checked now) := by
      rw [Locking.place, hpc, hstage]
    have hshares : SharesCache (s.place thread) := by
      rw [hplace]
      trivial
    obtain ⟨hlength, hblock⟩ := (h.sees thread).entered hshares r hpc
    obtain ⟨b', hb', hvalid⟩ := (h.sees thread).valid r now hplace
    obtain rfl := Option.some.inj (hb.symm.trans hb')
    unfold Reading.key at hb
    refine Or.inr ⟨.advance thread ⟨env.reply, now⟩, ?_⟩
    simp only [Threads.step, hpc, Threads.advance, Threads.look, if_neg hlength, if_neg hblock, hb,
      if_pos hvalid]
    rfl
  | @updated thread env r key b hpc hstage hb =>
    refine Or.inr ⟨.advance thread env, ?_⟩
    simp only [Threads.step, hpc, Threads.advance, hb]
    rfl
  | @copied thread env r key b hpc hstage hb =>
    refine Or.inr ⟨.advance thread env, ?_⟩
    simp only [Threads.step, hpc, Threads.advance, hb]
    rfl
  | @unlocked thread env r key res hpc hstage =>
    refine Or.inr ⟨.advance thread env, ?_⟩
    simp only [Threads.step, hpc, Threads.advance]
  | @changed thread env u hstage hchange =>
    refine Or.inr ⟨.advance thread env, ?_⟩
    apply step_of_change _ hchange
    exact h.shared_eq_nil hstage

/-- Every step keeps the list of those that hold `cache_mtx_` between steps. -/
theorem Guarded.listed_step (h : Guarded config s) {a : ThreadAction}
    (hstep : s.step config policy a = some t) : Listed t.threads := by
  rcases h.coarse_step hstep with hsame | ⟨a', ha'⟩
  · rw [hsame]
    exact h.listed
  · exact h.listed.step ha'

/-- Another state with the same blocks is seen alike. -/
theorem Sees.congr {c c' : Cache ρ} (h : Sees config c p) (hc : c'.cache = c.cache) :
    Sees config c' p := by
  constructor
  · rw [hc]
    exact h.present
  · exact h.entered
  · rw [hc]
    exact h.valid

/-- A thread without `cache_mtx_` sees nothing. -/
theorem sees_of_not_shares {c : Cache ρ} (hp : ¬ SharesCache p) : Sees config c p where
  present hshares := absurd hshares hp
  entered hshares := absurd hshares hp
  valid _ _ heq := by
    rw [heq] at hp
    exact absurd trivial hp

/-- What a thread sees it sees as well with other locks held, before it has checked anything. -/
theorem Sees.hold {c : Cache ρ} {pc : Pc} {stage stage' : Stage} (h : Sees config c (pc, stage))
    (hshares : SharesCache (pc, stage)) (hstage : ∀ now, stage' ≠ .checked now) :
    Sees config c (pc, stage') where
  present _ := h.present hshares
  entered _ := h.entered hshares
  valid _ now heq := absurd (congrArg Prod.snd heq) (hstage now)

/-- A step of a thread that holds nothing before or after. -/
theorem Guarded.unheld (h : Guarded config s) {u : Threads ρ} (hstage : s.stages thread = .free)
    (hpc : (s.threads.pcs thread).holds = none) (hcache : u.cache.cache = s.threads.cache.cache)
    (hpcs : ∀ other, other ≠ thread → u.pcs other = s.threads.pcs other)
    (hpc' : (u.pcs thread).holds = none) (hlisted : Listed u) :
    Guarded config { s with threads := u } := by
  have hm : Moves s { s with threads := u } thread (s.threads.pcs thread, .free)
      (u.pcs thread, .free) := by
    apply moves_of_eq rfl hstage rfl hpcs
    rw [← hstage, Function.update_eq_self]
  apply h.of_moves hm
  · trivial
  · apply hm.keepCache h rfl
    · rw [sharesCache_free, sharesCache_free, hpc, hpc']
    · exact Iff.rfl
  · apply hm.keepBlocks h rfl
    · intro key
      exact Iff.rfl
    · intro key
      exact Iff.rfl
  · exact sees_of_free hpc'
  · intro other hother
    exact (h.sees other).congr hcache
  · exact hlisted

/-- The place of an idle thread. -/
theorem Guarded.free_of_idle (h : Guarded config s) (hpc : s.threads.pcs thread = .idle) :
    s.stages thread = .free := by
  have hfits := h.fits thread
  rw [Locking.place, hpc] at hfits
  cases hstage : s.stages thread with
  | free => rfl
  | _ =>
    rw [hstage] at hfits
    cases hfits

/-- A copy lets both locks go. -/
theorem Guarded.copy (h : Guarded config s) {pc : Pc} {stage : Stage} {r : Reading} {key : Key}
    {b : Block} {u : Threads ρ} (hpc : s.threads.pcs thread = pc) (hstage : s.stages thread = stage)
    (hu : u.pcs = s.threads.pcs ∧ u.cache = s.threads.cache) (hblock : pc.block config = some key)
    (hshares : SharesCache (pc, stage))
    (hboth : ∀ k, SharesBlock config k (pc, stage) ↔ pc.block config = some k)
    (howns : ∀ k, ¬ OwnsBlock config k (pc, stage))
    (hlisted : Listed (u.copy thread r key b)) :
    Guarded config (s.unlockBoth thread key (u.copy thread r key b)) := by
  obtain ⟨hpcs, hcache⟩ := hu
  have hnone : ((u.copy thread r key b).pcs thread).holds = none := copy_holds _ _ _ _ _
  have hm : Moves s (s.unlockBoth thread key (u.copy thread r key b)) thread (pc, stage)
      ((u.copy thread r key b).pcs thread, .free) := by
    apply moves_of_eq hpc hstage rfl
    · intro other hother
      change (u.copy thread r key b).pcs other = _
      rw [copy_of_ne _ _ _ _ _ hother, hpcs]
    · rfl
  apply h.of_moves hm
  · trivial
  · apply h.cache.unlockShared hm.others
    · rw [hm.before]
      exact hshares
    · rw [hm.after, sharesCache_free, not_not]
      exact hnone
    · rw [hm.after]
      exact nofun
  · apply hm.setBlock h key
    · rfl
    · apply (h.blocks key).unlockShared hm.others
      · rw [hm.before, hboth]
        exact hblock
      · rw [hm.after]
        exact id
      · rw [hm.after]
        exact id
    · intro k hk
      constructor
      · rw [hboth, hblock]
        apply iff_of_false id
        intro heq
        exact hk (Option.some.inj heq).symm
      · exact iff_of_false id (howns k)
  · exact sees_of_free hnone
  · intro other hother
    apply (h.sees other).congr
    change (u.copy thread r key b).cache.cache = _
    rw [copy_cache, hcache]
  · exact hlisted

/-- A thread takes the lock of its block. -/
theorem Guarded.lockBlock (h : Guarded config s) {pc : Pc} {stage stage' : Stage} {key : Key}
    {m : SharedMutex ℕ} (hpc : s.threads.pcs thread = pc) (hstage : s.stages thread = stage)
    (hfits : Fits (pc, stage'))
    (hcache : SharesCache (pc, stage) ∧ SharesCache (pc, stage'))
    (howns : stage ≠ .exclusive ∧ stage' ≠ .exclusive ∧ ∀ now, stage' ≠ .checked now)
    (hbefore : ∀ k, ¬ SharesBlock config k (pc, stage) ∧ ¬ OwnsBlock config k (pc, stage))
    (hafter : ∀ k, k ≠ key →
      ¬ SharesBlock config k (pc, stage') ∧ ¬ OwnsBlock config k (pc, stage'))
    (hkey : ∀ place', place' thread = (pc, stage') →
      (∀ other, other ≠ thread → place' other = s.place other) →
      m.HeldBy (SharesBlock config key) (OwnsBlock config key) place') :
    Guarded config ((s.setBlock key m).to thread stage') := by
  have hm : Moves s ((s.setBlock key m).to thread stage') thread (pc, stage) (pc, stage') := by
    apply moves_of_eq (t := (s.setBlock key m).to thread stage') hpc hstage hpc
    · intro other hother
      rfl
    · rfl
  apply h.of_moves hm
  · exact hfits
  · apply hm.keepCache h rfl
    · exact iff_of_true hcache.2 hcache.1
    · exact iff_of_false howns.2.1 howns.1
  · apply hm.setBlock h key
    · rfl
    · exact hkey _ hm.after hm.others
    · intro k hk
      constructor
      · exact iff_of_false (hafter k hk).1 (hbefore k).1
      · exact iff_of_false (hafter k hk).2 (hbefore k).2
  · have hsees := h.sees thread
    rw [hm.before] at hsees
    exact hsees.hold hcache.1 howns.2.2
  · intro other hother
    exact h.sees other
  · exact h.listed

/-- A block is fetched again. -/
theorem Guarded.updated (h : Guarded config s) {r : Reading} {key : Key} {b : Block} {env : Env}
    (hpc : s.threads.pcs thread = .refreshing r key) (hstage : s.stages thread = .writing)
    (hb : s.threads.cache.cache.lookup key = some b) (pc' : Pc) (hkey : pc'.holds = some key)
    (hblock : ∀ k, pc'.block config = some k → k = key) {u : Threads ρ}
    (hu : u = { s.threads with
      cache.cache := s.threads.cache.cache.insert key (b.update r.mtime env) }.goto thread pc')
    (hlisted : Listed u) :
    Guarded config (({ s with threads := u }.setBlock key (s.blockMtx key).unlock).to thread
      .free) := by
  have hmem : key ∈ s.threads.cache.cache :=
    AList.lookup_isSome.mp (Option.isSome_of_eq_some hb)
  have hpc' : u.pcs thread = pc' := by
    rw [hu]
    exact goto_self _ _ _
  have hm : Moves s (({ s with threads := u }.setBlock key (s.blockMtx key).unlock).to thread
      .free) thread (.refreshing r key, .writing) (pc', .free) := by
    apply moves_of_eq hpc hstage hpc'
    · intro other hother
      change u.pcs other = _
      rw [hu]
      exact goto_of_ne _ _ _ hother
    · rfl
  have hcache : u.cache.cache = s.threads.cache.cache.insert key (b.update r.mtime env) := by
    rw [hu]
    rfl
  have howns : OwnsBlock config key (s.place thread) := by
    rw [hm.before]
    rfl
  have hholds : SharesCache (pc', .free) := by
    rw [sharesCache_free, hkey]
    exact Option.some_ne_none key
  apply h.of_moves hm
  · trivial
  · apply hm.keepCache h rfl
    · exact iff_of_true hholds (Option.some_ne_none key)
    · exact iff_of_false nofun nofun
  · apply hm.setBlock h key
    · rfl
    · apply (h.blocks key).unlock hm.others howns
      · rw [hm.after]
        exact id
      · rw [hm.after]
        exact id
    · intro k hk
      constructor
      · exact Iff.rfl
      · apply iff_of_false id
        intro heq
        exact hk (Option.some.inj heq).symm
  · constructor
    · intro _ k hk
      obtain rfl := hblock k hk
      change k ∈ u.cache.cache
      rw [hcache]
      exact (AList.mem_insert _).mpr (Or.inl rfl)
    · intro _ r' hr'
      rw [show pc' = .looking r' from hr'] at hkey
      cases hkey
    · intro r' now heq
      cases heq
  · intro other hother
    have hsees := h.sees other
    constructor
    · intro hshares k hk
      change k ∈ u.cache.cache
      rw [hcache, AList.mem_insert_of_mem hmem]
      exact hsees.present hshares k hk
    · exact hsees.entered
    · intro r' now heq
      obtain ⟨b', hb', hvalid⟩ := hsees.valid r' now heq
      -- The thread that has checked its block holds the lock of that block, so it is another one.
      have hne : r'.key config ≠ key := by
        intro hk
        apply (h.blocks key).not_shares howns other
        rw [heq]
        exact congrArg some hk
      refine ⟨b', ?_, hvalid⟩
      change u.cache.cache.lookup (r'.key config) = some b'
      rw [hcache, AList.lookup_insert_ne hne]
      exact hb'
  · exact hlisted

/-- **Step lemma.** Every step keeps the locks in agreement with the places. -/
theorem Guarded.step (h : Guarded config s) {a : ThreadAction}
    (hstep : s.step config policy a = some t) : Guarded config t := by
  have hlisted := h.listed_step hstep
  cases lockSteps_of_step hstep with
  | @outside a u ha hcoarse =>
    cases steps_of_step hcoarse with
    | bypass hpc | begun hpc =>
      apply h.unheld (h.free_of_idle hpc)
      · rw [hpc]
        rfl
      · rfl
      · intro other hother
        exact goto_of_ne _ _ _ hother
      · rw [goto_self]
        rfl
      · exact hlisted
    | opened | released =>
      exact ⟨h.fits, h.cache, h.blocks, fun i => (h.sees i).congr rfl, hlisted⟩
    | _ => exact absurd rfl (ha _ _)
  | plain hstage hpc hcoarse =>
    obtain ⟨hcache, hpcs, hpc'⟩ := plain_of_step hpc hcoarse
    apply h.unheld hstage
    · generalize s.threads.pcs _ = pc at hpc
      cases pc with
      | refreshing | copying | failed => cases hpc
      | _ => rfl
    · exact hcache
    · exact hpcs
    · exact hpc'
    · exact hlisted
  | ended hpc hstage hlength =>
    apply h.unheld hstage
    · rw [hpc]
      rfl
    · rfl
    · intro other hother
      exact goto_of_ne _ _ _ hother
    · exact congrArg Pc.holds (goto_self _ _ _)
    · exact hlisted
  | missed hpc hstage hlength hblock hnone =>
    apply h.unheld hstage
    · rw [hpc]
      rfl
    · rfl
    · intro other hother
      exact goto_of_ne _ _ _ hother
    · rw [goto_self]
      rfl
    · exact hlisted
  | @found thread env r b m hpc hstage hlength hblock hb hlock =>
    have hm : Moves s ({ s with cacheMtx := m }.to thread .waiting) thread (.looking r, .free)
        (.looking r, .waiting) := by
      apply moves_of_eq hpc hstage
      · exact hpc
      · intro other hother
        rfl
      · rfl
    apply h.of_moves hm
    · trivial
    · apply h.cache.lockShared hlock hm.others
      · rw [hm.after]
        trivial
      · rw [hm.after]
        exact nofun
    · apply hm.keepBlocks h rfl
      · intro key
        exact Iff.rfl
      · intro key
        exact Iff.rfl
    · constructor
      · intro _ key hkey
        obtain rfl := Option.some.inj hkey
        exact AList.lookup_isSome.mp (Option.isSome_of_eq_some hb)
      · intro _ r' hr'
        obtain rfl := Pc.looking.inj hr'
        exact ⟨hlength, hblock⟩
      · intro r' now heq
        cases heq
    · intro other hother
      exact h.sees other
    · exact hlisted
  | lockFound hpc hstage hlock =>
    apply h.lockBlock hpc hstage
    · trivial
    · exact ⟨trivial, trivial⟩
    · exact ⟨nofun, nofun, nofun⟩
    · intro k
      exact ⟨id, id⟩
    · intro k hk
      exact ⟨fun heq => hk (Option.some.inj heq).symm, id⟩
    · intro place' hself hothers
      apply (h.blocks _).lockShared hlock hothers
      · rw [hself]
        rfl
      · rw [hself]
        exact id
  | @valid thread env r b hpc hstage hb hvalid =>
    have hm : Moves s (s.to thread (.checked env.now)) thread (.looking r, .reading)
        (.looking r, .checked env.now) := by
      apply moves_of_eq hpc hstage
      · exact hpc
      · intro other hother
        rfl
      · rfl
    have hsees := h.sees thread
    rw [hm.before] at hsees
    apply h.of_moves hm
    · trivial
    · apply hm.keepCache h rfl
      · exact Iff.rfl
      · exact iff_of_false nofun nofun
    · apply hm.keepBlocks h rfl
      · intro key
        exact Iff.rfl
      · intro key
        exact Iff.rfl
    · constructor
      · exact hsees.present
      · exact hsees.entered
      · intro r' now heq
        obtain ⟨hr, hnow⟩ := Prod.mk.inj heq
        obtain rfl := Pc.looking.inj hr
        obtain rfl := Stage.checked.inj hnow
        exact ⟨b, hb, hvalid⟩
    · intro other hother
      exact h.sees other
    · exact hlisted
  | @outdated thread env r b hpc hstage hb hvalid =>
    have hm : Moves s (({ s with
        threads := { s.threads with shared := thread :: s.threads.shared }.goto thread
          (.refreshing r (r.key config)) }.setBlock (r.key config)
            ((s.blockMtx (r.key config)).unlockShared thread)).to thread .free) thread
        (.looking r, .reading) (.refreshing r (r.key config), .free) := by
      apply moves_of_eq hpc hstage
      · exact goto_self _ _ _
      · intro other hother
        exact goto_of_ne _ _ _ hother
      · rfl
    apply h.of_moves hm
    · trivial
    · apply hm.keepCache h rfl
      · exact iff_of_true (Option.some_ne_none _) trivial
      · exact iff_of_false nofun nofun
    · apply hm.setBlock h (r.key config)
      · rfl
      · apply (h.blocks _).unlockShared hm.others
        · rw [hm.before]
          rfl
        · rw [hm.after]
          exact id
        · rw [hm.after]
          exact id
      · intro k hk
        exact ⟨iff_of_false id fun heq => hk (Option.some.inj heq).symm, Iff.rfl⟩
    · constructor
      · intro _ key hkey
        obtain rfl := Option.some.inj hkey
        exact AList.lookup_isSome.mp (Option.isSome_of_eq_some hb)
      · intro _ r' hr'
        cases hr'
      · intro r' now heq
        cases heq
    · intro other hother
      exact (h.sees other).congr rfl
    · exact hlisted
  | hit hpc hstage hb =>
    apply h.copy hpc hstage
    · exact ⟨rfl, rfl⟩
    · rfl
    · trivial
    · intro k
      exact Iff.rfl
    · intro k
      exact id
    · exact hlisted
  | lockOutdated hpc hstage hlock =>
    apply h.lockBlock hpc hstage
    · trivial
    · exact ⟨Option.some_ne_none _, Option.some_ne_none _⟩
    · exact ⟨nofun, nofun, nofun⟩
    · intro k
      exact ⟨id, id⟩
    · intro k hk
      exact ⟨id, fun heq => hk (Option.some.inj heq).symm⟩
    · intro place' hself hothers
      apply (h.blocks _).lock hlock hothers
      · rw [hself]
        exact id
      · rw [hself]
        rfl
  | @updated thread env r key b hpc hstage hb =>
    apply h.updated hpc hstage hb
      (if env.reply.1 < 0 then .failed r key env.reply.1 else .copying r key)
    · split <;> rfl
    · intro k hk
      split at hk
      · cases hk
      · exact (Option.some.inj hk).symm
    · rfl
    · exact hlisted
  | lockUpdated hpc hstage hlock =>
    apply h.lockBlock hpc hstage
    · trivial
    · exact ⟨Option.some_ne_none _, Option.some_ne_none _⟩
    · exact ⟨nofun, nofun, nofun⟩
    · intro k
      exact ⟨id, id⟩
    · intro k hk
      exact ⟨fun heq => hk (Option.some.inj heq).symm, id⟩
    · intro place' hself hothers
      apply (h.blocks _).lockShared hlock hothers
      · rw [hself]
        rfl
      · rw [hself]
        exact id
  | copied hpc hstage hb =>
    apply h.copy hpc hstage
    · exact ⟨rfl, rfl⟩
    · rfl
    · exact Option.some_ne_none _
    · intro k
      exact Iff.rfl
    · intro k
      exact id
    · exact hlisted
  | @unlocked thread env r key res hpc hstage =>
    have hm : Moves s { s with
        threads := (s.threads.unlock thread).goto thread (.removing r key res)
        cacheMtx := s.cacheMtx.unlockShared thread } thread (.failed r key res, .free)
        (.removing r key res, .free) := by
      apply moves_of_eq hpc hstage
      · exact goto_self _ _ _
      · intro other hother
        exact goto_of_ne _ _ _ hother
      · rw [← hstage, Function.update_eq_self]
    apply h.of_moves hm
    · trivial
    · apply h.cache.unlockShared hm.others
      · rw [hm.before]
        exact Option.some_ne_none _
      · rw [hm.after]
        exact fun hne => hne rfl
      · rw [hm.after]
        exact nofun
    · apply hm.keepBlocks h rfl
      · intro k
        exact Iff.rfl
      · intro k
        exact Iff.rfl
    · exact sees_of_free rfl
    · intro other hother
      exact (h.sees other).congr rfl
    · exact hlisted
  | @lockCache thread env m hpc hstage hlock =>
    have hm : Moves s ({ s with cacheMtx := m }.to thread .exclusive) thread
        (s.threads.pcs thread, .free) (s.threads.pcs thread, .exclusive) := by
      apply moves_of_eq rfl hstage
      · rfl
      · intro other hother
        rfl
      · rfl
    generalize s.threads.pcs thread = pc at hpc hm
    have hnot : ¬ SharesCache (pc, .exclusive) := by
      cases pc with
      | removing | discarding | emplacing => exact fun hne => hne rfl
      | _ => cases hpc
    apply h.of_moves hm
    · cases pc with
      | removing | discarding | emplacing => trivial
      | _ => cases hpc
    · apply h.cache.lock hlock hm.others
      · rw [hm.after]
        exact hnot
      · rw [hm.after]
        rfl
    · apply hm.keepBlocks h rfl
      · intro k
        exact Iff.rfl
      · intro k
        exact Iff.rfl
    · exact sees_of_not_shares hnot
    · intro other hother
      exact h.sees other
    · exact hlisted
  | @changed thread env u hstage hchange =>
    have howns : OwnsCache (s.place thread) := hstage
    have hm : Moves s ({ s with threads := u, cacheMtx := s.cacheMtx.unlock }.to thread .free)
        thread (s.threads.pcs thread, .exclusive) (u.pcs thread, .free) := by
      apply moves_of_eq rfl hstage
      · rfl
      · exact (others_of_change hchange).1
      · rfl
    have hfree := (others_of_change hchange).2
    apply h.of_moves hm
    · trivial
    · apply h.cache.unlock hm.others howns
      · rw [hm.after, sharesCache_free, not_not]
        exact hfree
      · rw [hm.after]
        exact nofun
    · apply hm.keepBlocks h rfl
      · intro k
        exact Iff.rfl
      · intro k
        exact Iff.rfl
    · exact sees_of_free hfree
    · intro other hother
      exact sees_of_not_shares (h.cache.not_shares howns other)
    · exact hlisted

theorem guarded_initial (policyState : ρ) :
    Guarded config (Locking.initial policyState : Locking ρ) where
  fits _ := trivial
  cache := by
    apply SharedMutex.heldBy_free
    · intro i hshares
      exact hshares rfl
    · exact nofun
  blocks key := by
    apply SharedMutex.heldBy_free
    · intro i
      exact id
    · intro i
      exact id
  sees _ := sees_of_free rfl
  listed := by
    constructor
    · exact List.nodup_nil
    · intro i
      exact iff_of_false List.not_mem_nil fun hne => hne rfl

/-- The invariant holds in every state of every run. -/
theorem guarded_of_run {policyState : ρ} {actions : List ThreadAction}
    (hrun : Transition.run (Locking.step config policy) (Locking.initial policyState) actions =
      some s) : Guarded config s :=
  Transition.invariant_of_forall (fun _ _ _ h hstep => h.step hstep) hrun
    (guarded_initial policyState)

/-- **Refinement.** Every run of reads that take their locks one by one is, in its effect, a run of
`Threads`, where a check and the copy after it are one step. -/
theorem threads_of_locking {policyState : ρ} {actions : List ThreadAction}
    (hrun : Transition.run (Locking.step config policy) (Locking.initial policyState) actions =
      some s) :
    ∃ actions', Transition.run (Threads.step config policy) (Threads.initial policyState) actions' =
      some s.threads := by
  have hstep : ∀ (s : Locking ρ) (a : ThreadAction) (t : Locking ρ) (u : Threads ρ),
      Guarded config s ∧ u = s.threads → True → s.step config policy a = some t →
      ∃ actions' u', Transition.run (Threads.step config policy) u actions' = some u' ∧
        Guarded config t ∧ u' = t.threads := by
    rintro s a t u ⟨h, rfl⟩ - hstep
    rcases h.coarse_step hstep with hsame | ⟨a', ha'⟩
    · exact ⟨[], s.threads, rfl, h.step hstep, hsame.symm⟩
    · exact ⟨[a'], t.threads, Transition.run_cons.mpr ⟨_, ha', rfl⟩, h.step hstep, rfl⟩
  obtain ⟨actions', u, hrun', -, hu⟩ := Transition.simulation hstep hrun (fun _ _ => trivial)
    ⟨guarded_initial policyState, rfl⟩
  rw [hu] at hrun'
  exact ⟨actions', hrun'⟩

/-- A thread that holds the lock of a block holds `cache_mtx_` shared. -/
theorem sharesCache_of_block {key : Key} (hfits : Fits p)
    (hblock : SharesBlock config key p ∨ OwnsBlock config key p) : SharesCache p := by
  obtain ⟨pc, stage⟩ := p
  cases stage with
  | free | waiting | exclusive => exact hblock.elim False.elim False.elim
  | reading | checked =>
    cases pc with
    | looking => trivial
    | copying => exact Option.some_ne_none _
    | _ => cases hfits
  | writing =>
    cases pc with
    | refreshing => exact Option.some_ne_none _
    | _ => cases hfits

/-- **Exclusion.** In every state of every run: while a thread fetches a block again, no other thread
checks, copies or fetches that block; a block that has been checked is valid until it has been
copied; and while a thread changes the map, no other thread is between the look-up of a block and
its last use, and nobody holds the lock of any block. -/
theorem locks_exclude {policyState : ρ} {actions : List ThreadAction}
    (hrun : Transition.run (Locking.step config policy) (Locking.initial policyState) actions =
      some s) :
    (∀ i j key, OwnsBlock config key (s.place i) →
      ¬ SharesBlock config key (s.place j) ∧ (OwnsBlock config key (s.place j) → i = j)) ∧
    (∀ i r now, s.place i = (.looking r, .checked now) →
      ∃ b, s.threads.cache.cache.lookup (r.key config) = some b ∧
        b.isValid config.timeOut r.mtime now = true) ∧
    (∀ i, OwnsCache (s.place i) → (∀ j, ¬ SharesCache (s.place j)) ∧
      ∀ key, (s.blockMtx key).owner = none ∧ (s.blockMtx key).sharers = ∅) := by
  have h := guarded_of_run hrun
  refine ⟨fun i j key hi => ?_, fun i => (h.sees i).valid, fun i hi => ?_⟩
  · constructor
    · exact (h.blocks key).not_shares hi j
    · exact (h.blocks key).unique hi
  · have hnone := h.cache.not_shares hi
    refine ⟨hnone, fun key => ?_⟩
    constructor
    · rw [Option.eq_none_iff_forall_ne_some]
      intro k hk
      apply hnone k
      exact sharesCache_of_block (h.fits k) (Or.inr (((h.blocks key).owned k).mp hk))
    · rw [Finset.eq_empty_iff_forall_notMem]
      intro k hk
      apply hnone k
      exact sharesCache_of_block (h.fits k) (Or.inl (((h.blocks key).shared k).mp hk))

end Locks

section Runs

/-- Thread 0 reads the first byte, and its block enters the cache. -/
def firstRead : List ThreadAction :=
  [.opened ['/', 'f'] ⟨0, 0⟩, .start 0 ['/', 'f'] 1 0 default, quietly 0, quietly 0,
    .advance 0 ⟨(1, [7]), 0⟩, quietly 0, quietly 0, quietly 0, quietly 0, quietly 0, quietly 0,
    quietly 0, quietly 0, quietly 0, quietly 0]

/-- Two reads with different modification times find the block: thread 0 may copy from it, and
thread 1 waits to fetch it again. -/
def twoReads : List ThreadAction :=
  firstRead ++ [.start 0 ['/', 'f'] 1 0 default, .opened ['/', 'f'] ⟨1, 0⟩,
    .start 1 ['/', 'f'] 1 0 default, quietly 0, quietly 1, quietly 0, quietly 1, quietly 0, quietly 1]

/-- Thread 0 has copied, thread 1 fetches the block again, and thread 2 waits for its lock. -/
def fetchAgain : List ThreadAction :=
  twoReads ++ [quietly 0, quietly 1, .start 2 ['/', 'f'] 1 0 default, quietly 2]

theorem threads_of_locking_fetchAgain :
    ∃ s, Transition.run (Locking.step noRoom lruEviction) (Locking.initial LruState.empty)
        fetchAgain = some s ∧ s.stages 1 = .writing ∧ s.stages 2 = .waiting ∧
      ∃ actions', Transition.run (Threads.step noRoom lruEviction)
        (Threads.initial LruState.empty) actions' = some s.threads := by
  obtain ⟨s, hrun, hfirst, hsecond⟩ : ∃ s, Transition.run (Locking.step noRoom lruEviction)
      (Locking.initial LruState.empty) fetchAgain = some s ∧ s.stages 1 = .writing ∧
      s.stages 2 = .waiting := ⟨_, rfl, rfl, rfl⟩
  exact ⟨s, hrun, hfirst, hsecond, threads_of_locking hrun⟩

/-- Thread 2 does not hold the lock for which it waits. -/
theorem locks_exclude_fetchAgain :
    ∃ s, Transition.run (Locking.step noRoom lruEviction) (Locking.initial LruState.empty)
        fetchAgain = some s ∧ OwnsBlock noRoom (['/', 'f'], 0) (s.place 1) ∧
      ¬ SharesBlock noRoom (['/', 'f'], 0) (s.place 2) := by
  obtain ⟨s, hrun, howns⟩ : ∃ s, Transition.run (Locking.step noRoom lruEviction)
      (Locking.initial LruState.empty) fetchAgain = some s ∧
      OwnsBlock noRoom (['/', 'f'], 0) (s.place 1) := ⟨_, rfl, rfl⟩
  exact ⟨s, hrun, howns, ((locks_exclude hrun).1 1 2 _ howns).1⟩

end Runs

end RSafeFS.DataCache
