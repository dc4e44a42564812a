import RSafeFS.DataCache.Guarded
import RSafeFS.Lib.Budget

/-!
# No deadlock between reads

The locks have an order: whoever holds the lock of a block holds `cache_mtx_` shared, and never
waits for `cache_mtx_` again; whoever holds `cache_mtx_` exclusively waits for nothing. So a chain
of threads that wait ends at the owner of a lock, at a thread that copies, or at one that fetches.
A thread lets `cache_mtx_` go after at most six steps of its own.
-/

namespace RSafeFS.DataCache

variable {ρ : Type} {config : DataCacheConfig} {policy : EvictionPolicy Key ρ} {s t : Locking ρ}
  {i : ℕ}

/-- The thread can take its next step, whatever it gets from outside. -/
def CanStep (config : DataCacheConfig) (policy : EvictionPolicy Key ρ) (s : Locking ρ) (i : ℕ) :
    Prop :=
  ∀ env, s.step config policy (.advance i env) ≠ none

/-- A thread that changes the map goes on. -/
theorem Guarded.canStep_exclusive (h : Guarded config s) (hi : OwnsCache (s.place i)) :
    CanStep config policy s i := by
  intro env
  have hstage : s.stages i = .exclusive := hi
  have hfits := h.fits i
  rw [Locking.place, hstage] at hfits
  cases hpc : s.threads.pcs i with
  | removing | discarding =>
    simp [Locking.step, hstage, hpc, Locking.advance, Threads.change]
  | emplacing r key newBuf blockSize =>
    simp only [Locking.step, hstage, hpc, Locking.advance, Threads.change]
    split <;> simp
  | _ =>
    rw [hpc] at hfits
    cases hfits

/-- The block of a thread that holds `cache_mtx_` shared is there. -/
theorem Guarded.lookup_of_shares (h : Guarded config s) (hi : SharesCache (s.place i)) {key : Key}
    (hblock : (s.threads.pcs i).block config = some key) :
    ∃ b, s.threads.cache.cache.lookup key = some b := by
  have hmem := (h.sees i).present hi key hblock
  exact Option.isSome_iff_exists.mp (AList.lookup_isSome.mpr hmem)

/-- A thread that holds the lock of a block goes on. -/
theorem Guarded.canStep_block (h : Guarded config s) (key : Key)
    (hi : SharesBlock config key (s.place i) ∨ OwnsBlock config key (s.place i)) :
    CanStep config policy s i := by
  intro env
  have hfits := h.fits i
  have hshares := sharesCache_of_block hfits hi
  cases hstage : s.stages i with
  | free | waiting | exclusive =>
    rw [Locking.place, hstage] at hi
    exact absurd hi (not_or_intro id id)
  | reading =>
    rw [Locking.place, hstage] at hfits
    cases hpc : s.threads.pcs i with
    | looking r =>
      obtain ⟨b, hb⟩ := h.lookup_of_shares hshares (by rw [hpc]; rfl)
      simp only [Locking.step, hstage, hpc, Locking.advance, Locking.fromReading, hb]
      split <;> simp
    | copying r key' =>
      obtain ⟨b, hb⟩ := h.lookup_of_shares hshares (by rw [hpc]; rfl)
      simp [Locking.step, hstage, hpc, Locking.advance, Locking.fromReading, hb]
    | _ =>
      rw [hpc] at hfits
      cases hfits
  | checked now =>
    rw [Locking.place, hstage] at hfits
    cases hpc : s.threads.pcs i with
    | looking r =>
      obtain ⟨b, hb⟩ := h.lookup_of_shares hshares (by rw [hpc]; rfl)
      simp [Locking.step, hstage, hpc, Locking.advance, hb]
    | _ =>
      rw [hpc] at hfits
      cases hfits
  | writing =>
    rw [Locking.place, hstage] at hfits
    cases hpc : s.threads.pcs i with
    | refreshing r key' =>
      obtain ⟨b, hb⟩ := h.lookup_of_shares hshares (by rw [hpc]; rfl)
      simp [Locking.step, hstage, hpc, Locking.advance, Locking.fromWriting, hb]
    | _ =>
      rw [hpc] at hfits
      cases hfits

/-- Some thread that holds `cache_mtx_`, or the thread itself, goes on. -/
def SomeStep (config : DataCacheConfig) (policy : EvictionPolicy Key ρ) (s : Locking ρ) (i : ℕ) :
    Prop :=
  ∃ j, (j = i ∨ SharesCache (s.place j) ∨ OwnsCache (s.place j)) ∧ CanStep config policy s j

/-- Who waits for a shared lock of a block waits for its owner. -/
theorem Guarded.someStep_lockShared (h : Guarded config s) (key : Key)
    (hstep : ∀ m env, (s.blockMtx key).lockShared i = some m →
      s.step config policy (.advance i env) ≠ none) : SomeStep config policy s i := by
  cases hlock : (s.blockMtx key).lockShared i with
  | some m => exact ⟨i, Or.inl rfl, fun env => hstep m env hlock⟩
  | none =>
    obtain ⟨j, hj⟩ := SharedMutex.owner_of_lockShared_eq_none hlock
    have howns := ((h.blocks key).owned j).mp hj
    refine ⟨j, Or.inr (Or.inl ?_), h.canStep_block key (Or.inr howns)⟩
    exact sharesCache_of_block (h.fits j) (Or.inr howns)

/-- Who waits for the exclusive lock of a block waits for a thread that holds it. -/
theorem Guarded.someStep_lock (h : Guarded config s) (key : Key)
    (hstep : ∀ m env, (s.blockMtx key).lock i = some m →
      s.step config policy (.advance i env) ≠ none) : SomeStep config policy s i := by
  cases hlock : (s.blockMtx key).lock i with
  | some m => exact ⟨i, Or.inl rfl, fun env => hstep m env hlock⟩
  | none =>
    rcases SharedMutex.holder_of_lock_eq_none hlock with ⟨j, hj⟩ | ⟨j, hj⟩
    · have howns := ((h.blocks key).owned j).mp hj
      refine ⟨j, Or.inr (Or.inl ?_), h.canStep_block key (Or.inr howns)⟩
      exact sharesCache_of_block (h.fits j) (Or.inr howns)
    · have hshares := ((h.blocks key).shared j).mp hj
      refine ⟨j, Or.inr (Or.inl ?_), h.canStep_block key (Or.inl hshares)⟩
      exact sharesCache_of_block (h.fits j) (Or.inl hshares)

/-- A thread that holds `cache_mtx_` shared waits for the lock of its block at most. -/
theorem Guarded.someStep_shares (h : Guarded config s) (hi : SharesCache (s.place i)) :
    SomeStep config policy s i := by
  have hfits := h.fits i
  cases hstage : s.stages i with
  | exclusive => exact absurd hi (h.cache.not_shares hstage i)
  | reading | checked | writing =>
    rw [Locking.place, hstage] at hfits
    have hblock : ∃ key, (s.threads.pcs i).block config = some key := by
      cases hpc : s.threads.pcs i with
      | looking | refreshing | copying => exact ⟨_, rfl⟩
      | _ =>
        rw [hpc] at hfits
        cases hfits
    obtain ⟨key, hkey⟩ := hblock
    refine ⟨i, Or.inl rfl, h.canStep_block key ?_⟩
    rw [Locking.place, hstage]
    first
      | exact Or.inl hkey
      | exact Or.inr hkey
  | waiting =>
    rw [Locking.place, hstage] at hfits
    cases hpc : s.threads.pcs i with
    | looking r =>
      apply h.someStep_lockShared (r.key config)
      intro m env hm
      simp [Locking.step, hstage, hpc, Locking.advance, hm]
    | _ =>
      rw [hpc] at hfits
      cases hfits
  | free =>
    rw [Locking.place, hstage, sharesCache_free] at hi
    cases hpc : s.threads.pcs i with
    | refreshing r key =>
      apply h.someStep_lock key
      intro m env hm
      simp [Locking.step, hstage, hpc, Locking.advance, Locking.fromFree, hm]
    | copying r key =>
      apply h.someStep_lockShared key
      intro m env hm
      simp [Locking.step, hstage, hpc, Locking.advance, Locking.fromFree, hm]
    | failed r key res =>
      refine ⟨i, Or.inl rfl, fun env => ?_⟩
      simp [Locking.step, hstage, hpc, Locking.advance, Locking.fromFree]
    | _ =>
      rw [hpc] at hi
      exact absurd rfl hi

/-- Who waits for `cache_mtx_` waits for a thread that holds it. -/
theorem Guarded.someStep_holder (h : Guarded config s)
    (hheld : (∃ j, s.cacheMtx.owner = some j) ∨ ∃ j, j ∈ s.cacheMtx.sharers) (i : ℕ) :
    SomeStep config policy s i := by
  rcases hheld with ⟨j, hj⟩ | ⟨j, hj⟩
  · have howns := (h.cache.owned j).mp hj
    exact ⟨j, Or.inr (Or.inr howns), h.canStep_exclusive howns⟩
  · have hsome : SomeStep config policy s j := h.someStep_shares ((h.cache.shared j).mp hj)
    obtain ⟨k, hk, hstep⟩ := hsome
    refine ⟨k, ?_, hstep⟩
    rcases hk with rfl | hk
    · exact Or.inr (Or.inl ((h.cache.shared k).mp hj))
    · exact Or.inr hk

/-- A thread that needs no lock goes on. -/
theorem plain_advance (s : Threads ρ) (thread : ℕ) (env : Env) {pc : Pc} (hpc : pc.isPlain = true)
    (hidle : pc ≠ .idle) : s.advance config policy thread env pc ≠ none := by
  cases pc with
  | idle => exact absurd rfl hidle
  | evicting =>
    simp only [Threads.advance]
    split <;> exact Option.some_ne_none _
  | fetching =>
    simp only [Threads.advance]
    split
    · exact Option.some_ne_none _
    · split <;> exact Option.some_ne_none _
  | bypassing | touching | dropping | sizing | counting => exact Option.some_ne_none _
  | _ => cases hpc

/-- A thread that holds `cache_mtx_` in neither way is at the beginning of a step. -/
theorem Guarded.stage_eq_free (h : Guarded config s) (hshares : ¬ SharesCache (s.place i))
    (howns : ¬ OwnsCache (s.place i)) : s.stages i = .free := by
  have hfits := h.fits i
  unfold Locking.place at hfits hshares howns
  cases hstage : s.stages i with
  | free => rfl
  | exclusive =>
    rw [hstage] at howns
    exact absurd rfl howns
  | waiting | reading | checked | writing =>
    rw [hstage] at hfits hshares
    cases hpc : s.threads.pcs i with
    | looking =>
      rw [hpc] at hfits hshares
      first
        | exact absurd trivial hshares
        | cases hfits
    | refreshing | copying =>
      rw [hpc] at hshares
      exact absurd (Option.some_ne_none _) hshares
    | _ =>
      rw [hpc] at hfits
      cases hfits

/-- **Progress.** A thread that is inside a read goes on, or one that holds `cache_mtx_` does. -/
theorem Guarded.someStep (h : Guarded config s) (hblock : config.blockSize ≠ 0)
    (hi : s.threads.pcs i ≠ .idle) : SomeStep config policy s i := by
  by_cases hshares : SharesCache (s.place i)
  · exact h.someStep_shares hshares
  by_cases howns : OwnsCache (s.place i)
  · exact ⟨i, Or.inl rfl, h.canStep_exclusive howns⟩
  have hstage := h.stage_eq_free hshares howns
  cases hpc : s.threads.pcs i with
  | looking r =>
    by_cases hlength : r.out.length = r.size
    · refine ⟨i, Or.inl rfl, fun env => ?_⟩
      simp [Locking.step, hstage, hpc, Locking.advance, Locking.fromFree, hlength]
    · cases hlock : s.cacheMtx.lockShared i with
      | some m =>
        refine ⟨i, Or.inl rfl, fun env => ?_⟩
        simp [Locking.step, hstage, hpc, Locking.advance, Locking.fromFree, hlength, hblock, hlock]
      | none =>
        apply h.someStep_holder
        exact Or.inl (SharedMutex.owner_of_lockShared_eq_none hlock)
  | removing | discarding | emplacing =>
    cases hlock : s.cacheMtx.lock i with
    | some m =>
      refine ⟨i, Or.inl rfl, fun env => ?_⟩
      simp [Locking.step, hstage, hpc, Locking.advance, Locking.fromFree, hlock]
    | none =>
      apply h.someStep_holder
      exact SharedMutex.holder_of_lock_eq_none hlock
  | refreshing | copying | failed =>
    rw [Locking.place, hpc, hstage] at hshares
    exact absurd (Option.some_ne_none _) hshares
  | idle => exact absurd hpc hi
  | _ =>
    refine ⟨i, Or.inl rfl, fun env => ?_⟩
    simp only [Locking.step, hstage, hpc, Locking.advance, Locking.fromFree, ne_eq,
      Option.map_eq_none_iff]
    apply plain_advance
    · rfl
    · intro hidle
      cases hidle

/-- **No deadlock.** In every run of any number of reads, whatever the layer below answers and when,
a thread that is inside a read can take its next step, or a thread that holds `cache_mtx_` can. -/
theorem reads_progress (hblock : config.blockSize ≠ 0) {policyState : ρ}
    {actions : List ThreadAction}
    (hrun : Transition.run (Locking.step config policy) (Locking.initial policyState) actions =
      some s) (hi : s.threads.pcs i ≠ .idle) :
    ∃ j, (j = i ∨ SharesCache (s.place j) ∨ OwnsCache (s.place j)) ∧
      ∀ env, s.step config policy (.advance j env) ≠ none :=
  (guarded_of_run hrun).someStep hblock hi

/-- A thread waits to fetch a block again, since another may copy from it. -/
theorem reads_progress_twoReads :
    ∃ s, Transition.run (Locking.step noRoom lruEviction) (Locking.initial LruState.empty)
        twoReads = some s ∧ s.step noRoom lruEviction (quietly 1) = none ∧
      ∃ j, (j = 1 ∨ SharesCache (s.place j) ∨ OwnsCache (s.place j)) ∧
        ∀ env, s.step noRoom lruEviction (.advance j env) ≠ none := by
  obtain ⟨s, hrun, hwaits, hpc⟩ : ∃ s, Transition.run (Locking.step noRoom lruEviction)
      (Locking.initial LruState.empty) twoReads = some s ∧
      s.step noRoom lruEviction (quietly 1) = none ∧
      (s.threads.pcs 1).holds ≠ none := ⟨_, rfl, rfl, Option.some_ne_none _⟩
  refine ⟨s, hrun, hwaits, reads_progress (by decide) hrun ?_⟩
  intro hidle
  rw [hidle] at hpc
  exact hpc rfl

/-- The steps that a thread may take before it lets `cache_mtx_` go. -/
def rank : Place → ℕ
  | (.looking _, .waiting) => 6
  | (.looking _, .reading) => 5
  | (.looking _, .checked _) => 1
  | (.refreshing _ _, .free) => 4
  | (.refreshing _ _, _) => 3
  | (.copying _ _, .free) => 2
  | (.copying _ _, _) => 1
  | (.failed _ _ _, _) => 1
  | _ => 0

theorem rank_le (p : Place) : rank p ≤ 6 := by
  unfold rank
  split <;> decide

/-- A thread that uses no block has no such steps to take. -/
theorem rank_of_holds {pc : Pc} (hpc : pc.holds = none) : rank (pc, .free) = 0 := by
  cases pc with
  | refreshing | copying | failed => cases hpc
  | _ => rfl

/-- The thread takes a step of its own. -/
def ThreadAction.isOf (i : ℕ) : ThreadAction → Bool
  | .advance thread _ => thread = i
  | _ => false

/-- The steps of the other threads leave a thread at its place. -/
theorem place_of_step {a : ThreadAction} (hstep : s.step config policy a = some t)
    (ha : a.isOf i = false) (hi : s.threads.pcs i ≠ .idle) : t.place i = s.place i := by
  have hne {thread : ℕ} {env : Env} (heq : a = .advance thread env) : i ≠ thread := by
    rintro rfl
    rw [heq] at ha
    simp [ThreadAction.isOf] at ha
  have hkeep {thread : ℕ} (stage : Stage) (hthread : i ≠ thread)
      (hpcs : t.threads.pcs i = s.threads.pcs i)
      (hstages : t.stages = s.stages ∨ t.stages = Function.update s.stages thread stage) :
      t.place i = s.place i := by
    unfold Locking.place
    rw [hpcs]
    rcases hstages with hstages | hstages
    · rw [hstages]
    · rw [hstages, Function.update_of_ne hthread]
  cases lockSteps_of_step hstep with
  | outside hnot hcoarse =>
    cases steps_of_step hcoarse with
    | @bypass thread size offset path fi hpc | @begun thread size offset path fi mtime hpc =>
      have hthread : i ≠ thread := by
        rintro rfl
        exact hi hpc
      apply hkeep .free hthread
      · exact goto_of_ne _ _ _ hthread
      · exact Or.inl rfl
    | opened | released => rfl
    | _ => exact absurd rfl (hnot _ _)
  | @plain thread env u hstage hpc hcoarse =>
    apply hkeep .free (hne rfl)
    · exact (plain_of_step hpc hcoarse).2.1 i (hne rfl)
    · exact Or.inl rfl
  | ended | missed | unlocked =>
    apply hkeep .free (hne rfl)
    · exact goto_of_ne _ _ _ (hne rfl)
    · exact Or.inl rfl
  | found | lockFound | valid | lockOutdated | lockUpdated | lockCache =>
    apply hkeep _ (hne rfl)
    · rfl
    · exact Or.inr rfl
  | outdated | updated =>
    apply hkeep _ (hne rfl)
    · exact goto_of_ne _ _ _ (hne rfl)
    · exact Or.inr rfl
  | hit | copied =>
    apply hkeep _ (hne rfl)
    · exact copy_of_ne _ _ _ _ _ (hne rfl)
    · exact Or.inr rfl
  | changed hstage hchange =>
    apply hkeep _ (hne rfl)
    · exact (others_of_change hchange).1 i (hne rfl)
    · exact Or.inr rfl

/-- A thread that holds `cache_mtx_` shared comes nearer to letting it go. -/
theorem rank_of_step {env : Env} (hstep : s.step config policy (.advance i env) = some t)
    (hi : SharesCache (s.place i)) : rank (t.place i) + 1 ≤ rank (s.place i) := by
  have hbefore {pc : Pc} {stage : Stage} (hpc : s.threads.pcs i = pc) (hstage : s.stages i = stage) :
      s.place i = (pc, stage) := by
    rw [Locking.place, hpc, hstage]
  have hafter {pc : Pc} {stage : Stage} (hpc : t.threads.pcs i = pc)
      (hstages : t.stages = Function.update s.stages i stage) : t.place i = (pc, stage) := by
    rw [Locking.place, hpc, hstages, Function.update_self]
  cases lockSteps_of_step hstep with
  | outside hnot hcoarse => exact absurd rfl (hnot _ _)
  | plain hstage hpc hcoarse =>
    rw [hbefore rfl hstage, sharesCache_free] at hi
    generalize s.threads.pcs i = pc at hpc hi
    cases pc with
    | refreshing | copying | failed => cases hpc
    | _ => exact absurd rfl hi
  | ended hpc hstage | missed hpc hstage | found hpc hstage =>
    rw [hbefore hpc hstage] at hi
    exact absurd rfl hi
  | lockCache hpc hstage =>
    rw [hbefore rfl hstage, sharesCache_free] at hi
    generalize s.threads.pcs i = pc at hpc hi
    cases pc with
    | removing | discarding | emplacing => exact absurd rfl hi
    | _ => cases hpc
  | changed hstage hchange =>
    rw [hbefore rfl hstage] at hi
    generalize s.threads.pcs i = pc at hchange hi
    cases pc with
    | removing | discarding | emplacing => exact absurd rfl hi
    | _ => cases hchange
  | lockFound hpc hstage | valid hpc hstage | lockOutdated hpc hstage | lockUpdated hpc hstage =>
    rw [hbefore hpc hstage, hafter hpc rfl]
    simp [rank]
  | outdated hpc hstage =>
    rw [hbefore hpc hstage, hafter (goto_self _ _ _) rfl]
    simp [rank]
  | hit hpc hstage | copied hpc hstage =>
    rw [hbefore hpc hstage, hafter rfl rfl]
    exact Nat.le_of_eq (congrArg (· + 1) (rank_of_holds (copy_holds _ _ _ _ _)))
  | updated hpc hstage =>
    rw [hbefore hpc hstage, hafter (goto_self _ _ _) rfl]
    split <;> simp [rank]
  | unlocked hpc hstage =>
    rw [hbefore hpc hstage]
    simp [Locking.place, Threads.goto, hstage, rank]

/-- **Short holds.** From any moment of a run, a thread that holds `cache_mtx_` shared at each of
its steps takes six of them at most, however the steps of the others come in between. -/
theorem holds_short {actions : List ThreadAction}
    (hrun : Transition.run (Locking.step config policy) s actions = some t)
    (hholds : Transition.Meets (Locking.step config policy) (fun s _ => SharesCache (s.place i)) s
      actions) : actions.countP (ThreadAction.isOf i) ≤ 6 := by
  have hpaid : ∀ (s : Locking ρ) (a : ThreadAction) (t : Locking ρ), True → SharesCache (s.place i) →
      s.step config policy a = some t →
      True ∧ rank (t.place i) + (if a.isOf i then 1 else 0) ≤
        rank (s.place i) + (if a.isOf i then 0 else 0) := by
    intro s a t _ hi hstep
    refine ⟨trivial, ?_⟩
    cases ha : a.isOf i with
    | true =>
      cases a with
      | advance thread env =>
        obtain rfl : thread = i := by simpa [ThreadAction.isOf] using ha
        exact rank_of_step hstep hi
      | _ => cases ha
    | false =>
      apply Nat.le_of_eq
      rw [place_of_step hstep ha]
      · rfl
      · intro hidle
        rw [Locking.place, hidle] at hi
        exact hi rfl
  have hbudget := Transition.total_le hpaid hrun hholds trivial
  rw [Transition.total_ite, Transition.total_ite] at hbudget
  have hstart := rank_le (s.place i)
  omega

/-- Thread 1 finds the block outdated, fetches it again and copies from it. -/
def longestHold : List ThreadAction :=
  [quietly 1, quietly 1, quietly 1, .advance 1 ⟨(1, [9]), 0⟩, quietly 1, quietly 1]

/-- It takes six steps from the look-up to the end of the copy. -/
theorem holds_short_longestHold :
    ∃ s t, Transition.run (Locking.step noRoom lruEviction) (Locking.initial LruState.empty)
        (firstRead ++ [.opened ['/', 'f'] ⟨1, 0⟩, .start 1 ['/', 'f'] 1 0 default, quietly 1]) =
          some s ∧
      Transition.run (Locking.step noRoom lruEviction) s longestHold = some t ∧
      ¬ SharesCache (t.place 1) ∧ longestHold.countP (ThreadAction.isOf 1) ≤ 6 := by
  obtain ⟨s, t, hfirst, hrun, hend, hholds⟩ : ∃ s t,
      Transition.run (Locking.step noRoom lruEviction) (Locking.initial LruState.empty)
        (firstRead ++ [.opened ['/', 'f'] ⟨1, 0⟩, .start 1 ['/', 'f'] 1 0 default, quietly 1]) =
          some s ∧
      Transition.run (Locking.step noRoom lruEviction) s longestHold = some t ∧
      ¬ SharesCache (t.place 1) ∧
      Transition.Meets (Locking.step noRoom lruEviction) (fun s _ => SharesCache (s.place 1)) s
        longestHold := by
    refine ⟨_, _, rfl, rfl, fun hne => hne rfl, ?_⟩
    refine .cons trivial rfl (.cons trivial rfl (.cons ?_ rfl (.cons ?_ rfl (.cons ?_ rfl (.cons ?_
      rfl trivial)))))
    all_goals exact Option.some_ne_none _
  exact ⟨s, t, hfirst, hrun, hend, holds_short hrun hholds⟩

end RSafeFS.DataCache
