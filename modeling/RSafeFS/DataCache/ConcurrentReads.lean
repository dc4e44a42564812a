import RSafeFS.DataCache.SharedVersions

/-!
# Reads of many threads, step by step

Every place of a read in the loop of the cache keeps the invariant of `SharedVersions`, and the
step that ends a read answers from versions that it may see. The runs follow from the steps.
-/

namespace RSafeFS.DataCache

open ByteFile

variable {σ ρ : Type} {config : DataCacheConfig} {policy : EvictionPolicy Key ρ}
  {timeline : Timeline σ} {s t : SharedSession σ ρ} {w : σ}

section Step

variable {thread : ℕ} {env : Env}

/-- What the head of the loop does, with the conditions under which it does it. -/
theorem look_cases {u v : Threads ρ} {r : Reading} (hlook : u.look config thread r env = some v) :
    (r.out.length = r.size ∧ v = u.finish thread r (.ret (toInt r.out.length) r.out)) ∨
    (r.Wants config (r.key config) ∧
      ((u.cache.cache.lookup (r.key config) = none ∧ v = u.goto thread (.sizing r (r.key config))) ∨
      (∃ b, u.cache.cache.lookup (r.key config) = some b ∧
        b.isValid config.timeOut r.mtime env.now = true ∧ v = u.copy thread r (r.key config) b) ∨
      v = { u with shared := thread :: u.shared }.goto thread (.refreshing r (r.key config)))) := by
  unfold Threads.look at hlook
  split at hlook
  · next hfull => exact Or.inl ⟨hfull, (Option.some.inj hlook).symm⟩
  · next hmissing =>
    split at hlook
    · cases hlook
    · next hblock =>
      refine Or.inr ⟨⟨rfl, hblock, hmissing⟩, ?_⟩
      dsimp only at hlook
      split at hlook
      · next hnone => exact Or.inl ⟨hnone, (Option.some.inj hlook).symm⟩
      · next b hb =>
        split at hlook
        · next hvalid => exact Or.inr (Or.inl ⟨b, hb, hvalid, (Option.some.inj hlook).symm⟩)
        · exact Or.inr (Or.inr (Option.some.inj hlook).symm)

/-- What a step of a thread leads to: the invariant, and the right answer if it ends a read. -/
structure SharedSession.Goes (config : DataCacheConfig) (timeline : Timeline σ)
    (s : SharedSession σ ρ) (thread : ℕ) (env : Env) (u : Threads ρ) : Prop where
  invariant : SharedInvariant config timeline { s with threads := u }
  answer : ∀ e k, s.since thread = some k → u.returned = e :: s.threads.returned →
    s.Fails config thread env e ∨ e.Since timeline s.world k

/-- A step that ends no read. -/
theorem SharedSession.Goes.silent {u : Threads ρ}
    (hinvariant : SharedInvariant config timeline { s with threads := u })
    (hreturned : u.returned = s.threads.returned) : s.Goes config timeline thread env u where
  invariant := hinvariant
  answer e k _ he := by
    rw [hreturned] at he
    exact absurd he.symm (List.cons_ne_self e _)

/-- A step that ends a read of a thread that removes no block. -/
theorem SharedInvariant.finish (h : SharedInvariant config timeline s) {u : Threads ρ} {pc : Pc}
    {r : Reading} {outcome : Outcome} {k : ℕ} (hpc : s.threads.pcs thread = pc)
    (hnone : pc.removes = none) (hpcs : u.pcs = s.threads.pcs)
    (hcache : u.cache.cache = s.threads.cache.cache)
    (hmtimes : u.cache.mtimes = s.threads.cache.mtimes)
    (hreturned : u.returned = s.threads.returned) (hsince : s.since thread = some k)
    (hanswer : s.Fails config thread env ⟨r.path, r.size, r.offset, outcome⟩ ∨
      (⟨r.path, r.size, r.offset, outcome⟩ : Returned).Since timeline s.world k) :
    s.Goes config timeline thread env (u.finish thread r outcome) where
  invariant := by
    refine h.goto (u := { u with returned := _ }) hpcs hcache hmtimes trivial rfl fun key hkey => ?_
    rw [hpc, hnone] at hkey
    cases hkey
  answer e k' hk' he := by
    obtain rfl := Option.some.inj (hsince.symm.trans hk')
    rw [← hreturned] at he
    obtain ⟨rfl, -⟩ := List.cons.inj he
    exact hanswer

/-- The head of the loop, with the copy from a block that is valid. -/
theorem SharedInvariant.goes_looking (h : SharedInvariant config timeline s)
    (hdistinct : timeline.Distinct) (hallowed : s.Allowed config timeline (.advance thread env))
    (hok : s.Undisturbed config (.advance thread env)) {u : Threads ρ} {r : Reading}
    (hpc : s.threads.pcs thread = .looking r) (hlook : s.threads.look config thread r env = some u) :
    s.Goes config timeline thread env u := by
  obtain ⟨-, hsteady⟩ := hallowed
  obtain ⟨k, hsince, hr⟩ := h.at hpc
  have hnone : ∀ {pc' : Pc}, ∀ key, (s.threads.pcs thread).removes = some key →
      pc'.removes = some key := by
    intro pc' key hkey
    rw [hpc] at hkey
    cases hkey
  rcases look_cases hlook with ⟨hfull, rfl⟩ | ⟨hwants, ⟨-, rfl⟩ | ⟨b, hb, hvalid, rfl⟩ | rfl⟩
  · refine h.finish hpc rfl rfl rfl rfl rfl hsince (Or.inr (hr.answer ?_))
    have hposition := hr.position
    obtain ⟨-, hrequest⟩ := (timeline.version r.path k).ends_le r.size r.offset
    have hseeker : r.seeker = r.offset + r.out.length := rfl
    omega
  · exact .silent (h.goto rfl rfl rfl ⟨k, hsince, hr, hwants⟩ rfl hnone) rfl
  · have hlabelled : Labelled config timeline s.world (r.key config) b := by
      refine (h.labelled _ b hb).resolve_right ?_
      rintro ⟨other, hother⟩
      simp only [SharedSession.Undisturbed, Undisturbed, hpc] at hok
      exact hok b hb hvalid other hother
    have hholds : HoldsSince config timeline s.world (r.key config) k b :=
      hlabelled.holdsSince hdistinct ((mtime_eq_of_isValid hvalid).trans hr.mtime)
    have hrsteady := hsteady r k (by rw [hpc]; rfl) hsince
    refine ⟨h.copy hpc rfl rfl rfl hsince hr hwants hrsteady hholds, fun e k' hk' he => ?_⟩
    obtain rfl := Option.some.inj (hsince.symm.trans hk')
    exact Or.inr (hr.copy_answer hwants hrsteady hholds he)
  · exact .silent (h.goto rfl rfl rfl ⟨k, hsince, hr, hwants⟩ rfl hnone) rfl

/-- The fetch of an outdated block. -/
theorem SharedInvariant.goes_refreshing (h : SharedInvariant config timeline s)
    (hallowed : s.Allowed config timeline (.advance thread env))
    (hok : s.Undisturbed config (.advance thread env)) {r : Reading} {key : Key} {b : Block}
    (hpc : s.threads.pcs thread = .refreshing r key)
    (hb : s.threads.cache.cache.lookup key = some b) :
    s.Goes config timeline thread env ({ s.threads with
      cache.cache := s.threads.cache.cache.insert key (b.update r.mtime env) }.goto thread
        (if env.reply.1 < 0 then .failed r key env.reply.1 else .copying r key)) := by
  obtain ⟨hreplies, -⟩ := hallowed
  obtain ⟨k, hsince, hr, hwants⟩ := h.at hpc
  obtain ⟨hoffset, hlength⟩ := h.shape key b hb
  obtain ⟨j, hserves, hreply⟩ := hreplies r.path config.blockSize b.offset (by
    simp only [Threads.fetches, hpc, hb, Option.map_some])
  have hremoves : ∀ {pc' : Pc} key', (s.threads.pcs thread).removes = some key' →
      pc'.removes = some key' := by
    intro pc' key' hkey'
    rw [hpc] at hkey'
    cases hkey'
  have hlookup : ∀ key' b', (s.threads.cache.cache.insert key (b.update r.mtime env)).lookup key' =
      some b' → (key' = key ∧ b' = b.update r.mtime env) ∨
        (key' ≠ key ∧ s.threads.cache.cache.lookup key' = some b') := by
    intro key' b' hb'
    by_cases heq : key' = key
    · subst heq
      rw [AList.lookup_insert] at hb'
      exact Or.inl ⟨rfl, (Option.some.inj hb').symm⟩
    · rw [AList.lookup_insert_ne heq] at hb'
      exact Or.inr ⟨heq, hb'⟩
  rcases hreply with ⟨hneg, hshort⟩ | hexact
  · -- The block keeps its old bytes under the new label until it is removed.
    rw [if_pos hneg]
    refine .silent (h.move rfl rfl (fun key' b' hb' => ?_) ⟨hneg, k, hsince, hr⟩ ?_) rfl
    · rcases hlookup key' b' hb' with ⟨rfl, rfl⟩ | ⟨-, hold⟩
      · refine Or.inr ⟨⟨hoffset, length_update hlength hshort⟩, Or.inr rfl, ?_⟩
        intro other k' _ hcopies _
        simp only [SharedSession.Undisturbed, Undisturbed, hpc] at hok
        exact absurd hcopies (hok hneg other)
      · exact Or.inl ⟨hold, hremoves key'⟩
    · intro key' k' b' hcopies
      cases hcopies
  · have hcurrent : (b.update r.mtime env).Holds config.blockSize key.2
        (timeline.version key.1 j).content := by
      rw [hoffset, ← hwants.path] at hexact
      exact holds_update r.mtime hoffset hlength hexact
    rw [← hwants.path] at hserves
    have hholds : ∀ k', k' ≤ j → HoldsSince config timeline s.world key k' (b.update r.mtime env) :=
      fun k' hk' => ⟨j, hk', hserves.current, hcurrent⟩
    have hpast : k ≤ j := hserves.since thread r k (by rw [hpc]; rfl) hwants.path.symm hsince
    have hpos : ¬ env.reply.1 < 0 := by
      rw [hexact]
      exact Int.not_lt.mpr (Int.natCast_nonneg _)
    rw [if_neg hpos]
    refine .silent (h.move rfl rfl (fun key' b' hb' => ?_) ⟨k, hsince, hr, hwants⟩ ?_) rfl
    · rcases hlookup key' b' hb' with ⟨rfl, rfl⟩ | ⟨-, hold⟩
      · refine Or.inr ⟨⟨hcurrent.offset, hcurrent.length⟩,
          Or.inl (hr.labelled hwants.path rfl (hholds k hpast)), ?_⟩
        intro other k' _ hcopies hk'
        -- The other read is at this block too, and goes by no newer version.
        refine hholds k' ?_
        obtain ⟨r', hother⟩ : ∃ r', s.threads.pcs other = .copying r' key' := by
          cases heq : s.threads.pcs other <;> rw [heq] at hcopies <;> cases hcopies
          exact ⟨_, rfl⟩
        obtain ⟨k'', hk'', hr', hwants'⟩ := h.at hother
        obtain rfl := Option.some.inj (hk'.symm.trans hk'')
        exact hserves.since other r' k' (by rw [hother]; rfl) hwants'.path.symm hk'
      · exact Or.inl ⟨hold, hremoves key'⟩
    · intro key' k' b' hcopies hk' hb'
      obtain rfl := Option.some.inj hcopies
      obtain rfl := Option.some.inj (hsince.symm.trans hk')
      rcases hlookup key b' hb' with ⟨-, rfl⟩ | ⟨hne, -⟩
      · exact hholds k hpast
      · exact absurd rfl hne

/-- The fetch of a block that is not in the cache. -/
theorem SharedInvariant.goes_fetching (h : SharedInvariant config timeline s)
    (hallowed : s.Allowed config timeline (.advance thread env)) {u : Threads ρ} {r : Reading}
    {key : Key} (hpc : s.threads.pcs thread = .fetching r key)
    (hstep : s.threads.advance config policy thread env (.fetching r key) = some u) :
    s.Goes config timeline thread env u := by
  obtain ⟨hreplies, hsteady⟩ := hallowed
  obtain ⟨k, hsince, hr, hwants⟩ := h.at hpc
  obtain ⟨j, hserves, hreply⟩ := hreplies r.path config.blockSize (key.2 * config.blockSize) (by
    simp only [Threads.fetches, hpc])
  have hpast : k ≤ j := hserves.since thread r k (by rw [hpc]; rfl) rfl hsince
  simp only [Threads.advance] at hstep
  split_ifs at hstep with hneg hzero
  · obtain rfl := Option.some.inj hstep
    refine h.finish hpc rfl rfl rfl rfl rfl hsince (Or.inl ⟨_, _, rfl, hneg, Or.inl ⟨?_, rfl⟩⟩)
    simp [Threads.fetches, hpc]
  · -- Nothing of the file lies behind the start of the block, so the request has ended.
    obtain rfl := Option.some.inj hstep
    refine h.finish hpc rfl rfl rfl rfl rfl hsince (Or.inr (hr.answer ?_))
    have hexact := hreply.resolve_left fun hfailed => hneg hfailed.1
    rw [hexact] at hzero
    have hlength : (pread (timeline.version r.path j).content config.blockSize
        (key.2 * config.blockSize)).length = 0 := Int.ofNat.inj hzero
    rw [length_pread] at hlength
    obtain ⟨hle, hlt⟩ := position_in_block (Nat.pos_of_ne_zero hwants.blockSize) r.seeker
    have hkey : key.2 = r.seeker / config.blockSize := by
      rw [hwants.key]
      rfl
    have hends := hsteady r k (by rw [hpc]; rfl) hsince j hpast hserves.current
    have hposition := hr.position
    obtain ⟨hfile, -⟩ := (timeline.version r.path j).ends_le r.size r.offset
    have hblock := hwants.blockSize
    rw [hkey] at hlength
    omega
  · obtain rfl := Option.some.inj hstep
    have hexact := hreply.resolve_left fun hfailed => hneg hfailed.1
    refine .silent (h.goto rfl rfl rfl ⟨k, hsince, hr, hwants, fun timestamp => ?_⟩ rfl ?_) rfl
    · rw [hwants.path.symm] at hserves hexact
      refine ⟨j, hpast, hserves.current, ?_⟩
      rw [hexact, Int.toNat_natCast]
      exact holds_overlay _ _ _ List.length_replicate _
    · intro key' hkey'
      rw [hpc] at hkey'
      cases hkey'

/-- A new block comes into the cache, unless another read has brought it there before. -/
theorem SharedInvariant.goes_emplacing (h : SharedInvariant config timeline s) (hheld : Held s.threads)
    {u : Threads ρ} {r : Reading} {key : Key} {newBuf : Bytes} {blockSize : ℕ}
    (hpc : s.threads.pcs thread = .emplacing r key newBuf blockSize)
    (hstep : s.threads.advance config policy thread env (.emplacing r key newBuf blockSize) =
      some u) :
    s.Goes config timeline thread env u := by
  obtain ⟨k, hsince, hr, hwants, hnew⟩ := h.at hpc
  have hremoves : ∀ {pc' : Pc} key', (s.threads.pcs thread).removes = some key' →
      pc'.removes = some key' := by
    intro pc' key' hkey'
    rw [hpc] at hkey'
    cases hkey'
  simp only [Threads.advance] at hstep
  split at hstep
  · next hshared =>
    split at hstep
    · obtain rfl := Option.some.inj hstep
      exact .silent (h.goto rfl rfl rfl ⟨k, hsince, hr⟩ rfl hremoves) rfl
    · obtain rfl := Option.some.inj hstep
      refine .silent (h.move rfl rfl (fun key' b' hb' => ?_) ⟨k, hsince, hr⟩ ?_) rfl
      · change (s.threads.cache.cache.insert key _).lookup key' = some b' at hb'
        by_cases heq : key' = key
        · subst heq
          rw [AList.lookup_insert] at hb'
          obtain rfl := Option.some.inj hb'
          obtain ⟨j, hfirst, hlast, hholds⟩ := hnew env.now
          refine Or.inr ⟨⟨rfl, hholds.length⟩, Or.inl (hr.labelled hwants.path rfl (hnew env.now)), ?_⟩
          -- No read uses a block while another one has the lock.
          intro other k' _ hcopies _
          have hnone := hheld.holds_eq_none hshared other
          cases heq : s.threads.pcs other <;> rw [heq] at hcopies hnone <;> cases hcopies
          cases hnone
        · rw [AList.lookup_insert_ne heq] at hb'
          exact Or.inl ⟨hb', hremoves key'⟩
      · intro key' k' b' hcopies
        cases hcopies
  · cases hstep

/-- The removal of a block. -/
theorem SharedInvariant.remove (h : SharedInvariant config timeline s) {key : Key} {pc : Pc}
    (hpc : pc.Since config timeline s.world (s.since thread)) (hcopies : pc.copies = none)
    (hremoves : ∀ key', (s.threads.pcs thread).removes = some key' → key' = key) :
    s.Goes config timeline thread env
      ({ s.threads with cache := s.threads.cache.removeBlock config key }.goto thread pc) := by
  refine .silent (h.move rfl (removeBlock_mtimes _ _) (fun key' b' hb' => ?_) hpc ?_) rfl
  · obtain ⟨hne, hold⟩ := lookup_removeBlock.mp hb'
    exact Or.inl ⟨hold, fun hkey' => absurd (hremoves key' hkey') hne⟩
  · intro key' k' b' hkey'
    rw [hcopies] at hkey'
    cases hkey'

/-- **Step lemma.** Every step of a read keeps the invariant and answers rightly. -/
theorem SharedInvariant.goes (h : SharedInvariant config timeline s) (hheld : Held s.threads)
    (hdistinct : timeline.Distinct) (hallowed : s.Allowed config timeline (.advance thread env))
    (hok : s.Undisturbed config (.advance thread env)) {u : Threads ρ}
    (hstep : s.threads.step config policy (.advance thread env) = some u) :
    s.Goes config timeline thread env u := by
  change s.threads.advance config policy thread env (s.threads.pcs thread) = some u at hstep
  have hnone : ∀ {pc pc' : Pc}, s.threads.pcs thread = pc → pc.removes = none →
      ∀ key, (s.threads.pcs thread).removes = some key → pc'.removes = some key := by
    intro pc pc' hpc hremoves key hkey
    rw [hpc, hremoves] at hkey
    cases hkey
  cases hpc : s.threads.pcs thread with
  | idle =>
    rw [hpc] at hstep
    cases hstep
  | bypassing path size offset fi =>
    rw [hpc] at hstep
    obtain rfl := Option.some.inj hstep
    refine ⟨h.goto (u := { s.threads with returned := _ }) rfl rfl rfl trivial rfl (hnone hpc rfl), ?_⟩
    intro e k hk
    rw [show s.since thread = none from h.at hpc] at hk
    cases hk
  | looking r =>
    rw [hpc] at hstep
    exact h.goes_looking hdistinct hallowed hok hpc hstep
  | refreshing r key =>
    rw [hpc] at hstep
    simp only [Threads.advance] at hstep
    split at hstep
    · cases hstep
    · next b hb =>
      obtain rfl := Option.some.inj hstep
      exact h.goes_refreshing hallowed hok hpc hb
  | copying r key =>
    rw [hpc] at hstep
    simp only [Threads.advance] at hstep
    split at hstep
    · cases hstep
    · next b hb =>
      obtain rfl := Option.some.inj hstep
      obtain ⟨k, hsince, hr, hwants⟩ := h.at hpc
      have hsteady := hallowed.2 r k (by rw [hpc]; rfl) hsince
      have hholds := h.copying thread key k b (by rw [hpc]; rfl) hsince hb
      refine ⟨h.copy hpc rfl rfl rfl hsince hr hwants hsteady hholds, fun e k' hk' he => ?_⟩
      obtain rfl := Option.some.inj (hsince.symm.trans hk')
      exact Or.inr (hr.copy_answer hwants hsteady hholds he)
  | touching r key =>
    rw [hpc] at hstep
    obtain rfl := Option.some.inj hstep
    exact .silent (h.goto rfl rfl rfl (h.at hpc :) rfl (hnone hpc rfl)) rfl
  | failed r key res =>
    rw [hpc] at hstep
    obtain rfl := Option.some.inj hstep
    refine .silent (h.goto rfl rfl rfl (h.at hpc :) rfl fun key' hkey' => ?_) rfl
    rw [hpc] at hkey'
    exact hkey'
  | removing r key res =>
    rw [hpc] at hstep
    simp only [Threads.advance] at hstep
    split at hstep
    · obtain rfl := Option.some.inj hstep
      refine h.remove (h.at hpc :) rfl fun key' hkey' => ?_
      rw [hpc] at hkey'
      exact (Option.some.inj hkey').symm
    · cases hstep
  | dropping r key res =>
    rw [hpc] at hstep
    obtain rfl := Option.some.inj hstep
    obtain ⟨hres, k, hsince, -⟩ := h.at hpc
    exact h.finish hpc rfl rfl rfl rfl rfl hsince
      (Or.inl ⟨_, _, rfl, hres, Or.inr ⟨r, key, hpc⟩⟩)
  | sizing r key =>
    rw [hpc] at hstep
    obtain rfl := Option.some.inj hstep
    split
    · exact .silent (h.goto rfl rfl rfl (h.at hpc :) rfl (hnone hpc rfl)) rfl
    · exact .silent (h.goto rfl rfl rfl (h.at hpc :) rfl (hnone hpc rfl)) rfl
  | evicting r key =>
    rw [hpc] at hstep
    simp only [Threads.advance] at hstep
    split at hstep
    · obtain rfl := Option.some.inj hstep
      exact .silent (h.goto rfl rfl rfl (h.at hpc :) rfl (hnone hpc rfl)) rfl
    · obtain rfl := Option.some.inj hstep
      exact .silent (h.goto rfl rfl rfl (h.at hpc :) rfl (hnone hpc rfl)) rfl
  | discarding r key selected =>
    rw [hpc] at hstep
    simp only [Threads.advance] at hstep
    split at hstep
    · obtain rfl := Option.some.inj hstep
      refine h.remove (h.at hpc :) rfl fun key' hkey' => ?_
      rw [hpc] at hkey'
      cases hkey'
    · cases hstep
  | fetching r key =>
    rw [hpc] at hstep
    exact h.goes_fetching hallowed hpc hstep
  | emplacing r key newBuf blockSize =>
    rw [hpc] at hstep
    exact h.goes_emplacing hheld hpc hstep
  | counting r key =>
    rw [hpc] at hstep
    obtain rfl := Option.some.inj hstep
    exact .silent (h.goto rfl rfl rfl (h.at hpc :) rfl (hnone hpc rfl)) rfl

end Step

section Run

/-- The invariant with the locks. -/
def Shared (config : DataCacheConfig) (timeline : Timeline σ) (s : SharedSession σ ρ) : Prop :=
  SharedInvariant config timeline s ∧ Held s.threads

/-- A read starts, with the modification time that the cache has for its path. -/
theorem SharedInvariant.begin (h : SharedInvariant config timeline s) {thread offset : ℕ}
    {path : PathName} (hidle : s.threads.pcs thread = .idle)
    (hoffset : ∀ k, s.openedAt path = some k → offset ≤ (timeline.version path k).content.length)
    (size : ℕ) (fi : FuseFileInfo) :
    SharedInvariant config timeline { s with
      threads := s.threads.enter thread path size offset fi
      since := Function.update s.since thread (s.openedAt path) } := by
  have hpcs : ∀ i, (s.threads.pcs i).Since config timeline s.world
      (Function.update s.since thread (s.openedAt path) i) := by
    intro i
    by_cases heq : i = thread
    · subst heq
      rw [hidle]
      trivial
    · rw [Function.update_of_ne heq]
      exact h.pcs i
  have hentered : SharedInvariant config timeline { s with
      since := Function.update s.since thread (s.openedAt path) } := by
    refine ⟨h.shape, h.labelled, fun i key k b hkey hk => ?_, hpcs, h.mtimes, h.past, h.found⟩
    by_cases heq : i = thread
    · subst heq
      dsimp only at hkey
      rw [hidle] at hkey
      cases hkey
    · dsimp only at hk
      rw [Function.update_of_ne heq] at hk
      exact h.copying i key k b hkey hk
  have hnone : ∀ {pc' : Pc} key, (s.threads.pcs thread).removes = some key →
      pc'.removes = some key := by
    intro pc' key hkey
    rw [hidle] at hkey
    cases hkey
  have hmtimes := h.mtimes path
  unfold Threads.enter
  cases hopened : s.openedAt path with
  | none =>
    rw [hopened, Option.map_none] at hmtimes
    rw [hmtimes]
    rw [hopened] at hentered
    refine hentered.goto rfl rfl rfl ?_ rfl hnone
    exact Function.update_self _ _ _
  | some k =>
    rw [hopened, Option.map_some] at hmtimes
    rw [hmtimes]
    rw [hopened] at hentered
    refine hentered.goto rfl rfl rfl ⟨k, Function.update_self _ _ _, rfl, h.past path k hopened, ?_, ?_⟩
      rfl hnone
    · intro i hi
      exact absurd hi (Nat.not_lt_zero i)
    · exact Nat.le_min.mpr ⟨hoffset k hopened, Nat.le_add_right _ _⟩

/-- An open finds a version, not newer than the current one. -/
theorem SharedInvariant.find (h : SharedInvariant config timeline s) (opener : ℕ) {path : PathName}
    {k : ℕ} (hcurrent : k ≤ timeline.current s.world path) :
    SharedInvariant config timeline
      { s with found := Function.update s.found opener (some (path, k)) } := by
  refine ⟨h.shape, h.labelled, h.copying, h.pcs, h.mtimes, h.past, fun i p k' hk' => ?_⟩
  dsimp only at hk'
  by_cases heq : i = opener
  · subst heq
    rw [Function.update_self] at hk'
    obtain ⟨rfl, rfl⟩ := Prod.mk.inj (Option.some.inj hk')
    exact hcurrent
  · rw [Function.update_of_ne heq] at hk'
    exact h.found i p k' hk'

/-- An open records the modification time of the version it has found. -/
theorem SharedInvariant.record (h : SharedInvariant config timeline s) {opener k : ℕ}
    {path : PathName} (hfound : s.found opener = some (path, k)) :
    SharedInvariant config timeline { s with
      threads := { s.threads with
        cache.mtimes := s.threads.cache.mtimes.insert path (timeline.version path k).mtime }
      found := Function.update s.found opener none
      openedAt := Function.update s.openedAt path (some k) } := by
  refine ⟨h.shape, h.labelled, h.copying, h.pcs, fun p => ?_, fun p k' hk' => ?_,
    fun i p k' hk' => ?_⟩
  · by_cases hp : p = path
    · subst hp
      simp
    · simpa [hp] using h.mtimes p
  · dsimp only at hk'
    by_cases hp : p = path
    · subst hp
      rw [Function.update_self] at hk'
      exact Option.some.inj hk' ▸ h.found opener p k hfound
    · rw [Function.update_of_ne hp] at hk'
      exact h.past p k' hk'
  · dsimp only at hk'
    by_cases heq : i = opener
    · subst heq
      rw [Function.update_self] at hk'
      cases hk'
    · rw [Function.update_of_ne heq] at hk'
      exact h.found i p k' hk'

/-- A release erases the modification time. -/
theorem SharedInvariant.release (h : SharedInvariant config timeline s) (path : PathName) :
    SharedInvariant config timeline { s with
      threads := { s.threads with cache.mtimes := s.threads.cache.mtimes.erase path }
      openedAt := Function.update s.openedAt path none } := by
  refine ⟨h.shape, h.labelled, h.copying, h.pcs, fun p => ?_, fun p k hk => ?_, h.found⟩
  · by_cases hp : p = path
    · subst hp
      simp
    · simpa [hp] using h.mtimes p
  · dsimp only at hk
    by_cases hp : p = path
    · subst hp
      rw [Function.update_self] at hk
      cases hk
    · rw [Function.update_of_ne hp] at hk
      exact h.past p k hk

/-- Every step keeps the invariant. -/
theorem Shared.step (hdistinct : timeline.Distinct) {a : SharedAction σ}
    (h : Shared config timeline s) (hallowed : s.Allowed config timeline a)
    (hok : s.Undisturbed config a) (hstep : s.step config policy timeline a = some t) :
    Shared config timeline t := by
  obtain ⟨hinvariant, hheld⟩ := h
  cases a with
  | start thread path size offset fi =>
    obtain ⟨u, hu, rfl⟩ := Option.map_eq_some_iff.mp hstep
    refine ⟨?_, hheld.step hu⟩
    simp only [Threads.step] at hu
    split at hu
    · next hidle =>
      obtain rfl := Option.some.inj hu
      exact hinvariant.begin hidle hallowed size fi
    · cases hu
  | advance thread env =>
    obtain ⟨u, hu, rfl⟩ := Option.map_eq_some_iff.mp hstep
    exact ⟨(hinvariant.goes hheld hdistinct hallowed hok hu).invariant, hheld.step hu⟩
  | find opener path k =>
    simp only [SharedSession.step] at hstep
    split at hstep
    · next hfind =>
      obtain rfl := Option.some.inj hstep
      exact ⟨hinvariant.find opener hfind.2, hheld⟩
    · cases hstep
  | record opener =>
    simp only [SharedSession.step] at hstep
    split at hstep
    · cases hstep
    · next path k hfound =>
      obtain ⟨u, hu, rfl⟩ := Option.map_eq_some_iff.mp hstep
      refine ⟨?_, hheld.step hu⟩
      obtain rfl := Option.some.inj hu
      exact hinvariant.record hfound
  | release path =>
    simp only [SharedSession.step] at hstep
    obtain ⟨u, hu, rfl⟩ := Option.map_eq_some_iff.mp hstep
    refine ⟨?_, hheld.step hu⟩
    obtain rfl := Option.some.inj hu
    exact hinvariant.release path
  | change w =>
    obtain rfl := Option.some.inj hstep
    exact ⟨hinvariant.advance hallowed, hheld⟩

/-- The thread is on the way from a failed fetch to its answer. -/
def Pc.fails : Pc → Bool
  | .failed _ _ _ | .removing _ _ _ | .dropping _ _ _ => true
  | _ => false

/-- While fetches succeed, no thread is on such a way. -/
theorem fails_of_steps {u v : Threads ρ} {a : ThreadAction} (h : ∀ i, (u.pcs i).fails = false)
    (hok : ∀ thread env, a = .advance thread env → u.fetches config thread ≠ none → 0 ≤ env.reply.1)
    (hstep : u.step config policy a = some v) (i : ℕ) : (v.pcs i).fails = false := by
  have hgoto : ∀ (u' : Threads ρ) (thread : ℕ) (pc : Pc), u'.pcs = u.pcs → pc.fails = false →
      ((u'.goto thread pc).pcs i).fails = false := by
    intro u' thread pc hpcs hpc
    refine forall_goto u' thread pc (P := fun _ pc => pc.fails = false) hpc (fun j _ => ?_) i
    rw [hpcs]
    exact h j
  have hcopy : ∀ (u' : Threads ρ) (thread : ℕ) (r : Reading) (key : Key) (b : Block),
      u'.pcs = u.pcs → ((u'.copy thread r key b).pcs i).fails = false := by
    intro u' thread r key b hpcs
    unfold Threads.copy
    dsimp only
    split_ifs
    · exact hgoto _ _ _ hpcs rfl
    · exact hgoto _ _ _ hpcs rfl
    · exact hgoto _ _ _ hpcs rfl
  have hnever : ∀ {thread : ℕ} {pc : Pc}, u.pcs thread = pc → pc.fails ≠ true := by
    intro thread pc hpc
    rw [← hpc, h thread]
    exact Bool.false_ne_true
  cases steps_of_step hstep with
  | bypass | begun | bypassed | ended | missed | outdated | refreshed | touched | full | room
  | evicted | evictedNone | discarded | fetchFailed | fetchEnded | fetched | found | emplaced
  | counted => exact hgoto _ _ _ rfl rfl
  | hit | copied => exact hcopy _ _ _ _ _ rfl
  | @refreshFailed thread r key env b hpc hb hres =>
    have hpos := hok thread env rfl (by simp [Threads.fetches, hpc, hb])
    omega
  | unlocked hpc => exact absurd rfl (hnever hpc)
  | removed hpc => exact absurd rfl (hnever hpc)
  | dropped hpc => exact absurd rfl (hnever hpc)
  | opened => exact h i
  | released => exact h i

/-- No thread is on the way from a failed fetch to its answer, and the locks are held rightly. -/
def Unfailing (s : SharedSession σ ρ) : Prop :=
  (∀ i, (s.threads.pcs i).fails = false) ∧ Held s.threads

/-- Every step with a fetch that succeeds keeps it so. -/
theorem Unfailing.step (h : Unfailing s) {a : SharedAction σ} (hok : s.Succeeds config a)
    (hstep : s.step config policy timeline a = some t) : Unfailing t := by
  obtain ⟨hfails, hheld⟩ := h
  cases a with
  | start thread path size offset fi =>
    obtain ⟨u, hu, rfl⟩ := Option.map_eq_some_iff.mp hstep
    exact ⟨fails_of_steps hfails (fun _ _ h => by cases h) hu, hheld.step hu⟩
  | advance thread env =>
    obtain ⟨u, hu, rfl⟩ := Option.map_eq_some_iff.mp hstep
    refine ⟨fails_of_steps hfails (fun thread' env' h => ?_) hu, hheld.step hu⟩
    cases h
    exact hok
  | find opener path k =>
    simp only [SharedSession.step] at hstep
    split at hstep
    · obtain rfl := Option.some.inj hstep
      exact ⟨hfails, hheld⟩
    · cases hstep
  | record opener =>
    simp only [SharedSession.step] at hstep
    split at hstep
    · cases hstep
    · obtain ⟨u, hu, rfl⟩ := Option.map_eq_some_iff.mp hstep
      exact ⟨fails_of_steps hfails (fun _ _ h => by cases h) hu, hheld.step hu⟩
  | release path =>
    simp only [SharedSession.step] at hstep
    obtain ⟨u, hu, rfl⟩ := Option.map_eq_some_iff.mp hstep
    exact ⟨fails_of_steps hfails (fun _ _ h => by cases h) hu, hheld.step hu⟩
  | change w =>
    obtain rfl := Option.some.inj hstep
    exact ⟨hfails, hheld⟩

/-- While fetches succeed, nothing is disturbed. -/
theorem Unfailing.undisturbed (h : Unfailing s) {a : SharedAction σ} (hok : s.Succeeds config a) :
    s.Undisturbed config a := by
  cases a with
  | advance thread env =>
    unfold SharedSession.Undisturbed DataCache.Undisturbed
    dsimp only
    split
    · next r key hpc =>
      intro hneg
      obtain ⟨b, hb⟩ := Option.isSome_iff_exists.mp
        (AList.lookup_isSome.mpr (h.2 thread key (by rw [hpc]; rfl)).2)
      have hpos : 0 ≤ env.reply.1 := hok (by simp [Threads.fetches, hpc, hb])
      omega
    · intro b _ _ other hremoves
      have hnone := h.1 other
      cases hpc : s.threads.pcs other <;> rw [hpc] at hremoves hnone <;> cases hremoves <;> cases hnone
    · trivial
  | _ => trivial

end Run

section Counting

variable {ρ : Type} {config : DataCacheConfig} {s : SharedSession ℕ ρ} {thread : ℕ} {env : Env}

/-- The result of the layer below that comes with a step. -/
def SharedAction.result : SharedAction ℕ → ℤ
  | .advance _ env => env.reply.1
  | _ => 0

end Counting

end RSafeFS.DataCache
