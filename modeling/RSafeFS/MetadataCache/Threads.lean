import RSafeFS.MetadataCache.Cache
import RSafeFS.Lib.AssocList
import RSafeFS.Lib.Transition

/-!
# Concurrent use of the metadata cache

Several threads call `put`, `get` and `remove` at once. What a call does under one hold of
`mtx_` is one step. A `get` that finds an expired entry gives the shared lock back and takes
the exclusive one, so its removal of the entry is a step of its own, and other calls may
come before it.
-/

namespace RSafeFS.MetadataCache

/-- Where a thread is: in no call, or in a `get` that has found an expired entry. -/
inductive ThreadPc where
  | idle
  | expired (path : PathName)
  deriving DecidableEq, Repr

/-- What the statements look back at: a `put` and a `remove` that were made, and a `get` that
returned attributes. -/
inductive Event where
  | put (path : PathName) (stbuf : Stat) (time : ℤ)
  | remove (path : PathName)
  | hit (path : PathName) (stbuf : Stat) (time : ℤ)
  deriving DecidableEq, Repr

/-- The threads over one cache and one clock. The history has the latest event first. -/
structure Threads (ρ : Type) where
  cache : Cache ρ
  now : ℤ
  pcs : ℕ → ThreadPc
  history : List Event

/-- The start of a run: the cache is empty and every thread is idle. -/
def Threads.initial {ρ : Type} (policyState : ρ) (now : ℤ) : Threads ρ :=
  ⟨⟨∅, policyState⟩, now, fun _ => .idle, []⟩

/-- A thread makes a call or takes the second step of its `get`, or the clock goes on. -/
inductive ThreadAction where
  | put (thread : ℕ) (path : PathName) (stbuf : Stat)
  | get (thread : ℕ) (path : PathName)
  | expire (thread : ℕ)
  | remove (thread : ℕ) (path : PathName)
  | tick (now : ℤ)
  deriving DecidableEq, Repr

variable {ρ : Type} (config : MetadataCacheConfig) (policy : EvictionPolicy PathName ρ)

/-- Move a thread to another place. -/
def Threads.goto (s : Threads ρ) (thread : ℕ) (pc : ThreadPc) : Threads ρ :=
  { s with pcs := Function.update s.pcs thread pc }

/-- `cache::get` under the shared lock. -/
def Threads.lookup (s : Threads ρ) (thread : ℕ) (path : PathName) : Threads ρ :=
  match s.cache.entries.lookup path with
  | none => s
  | some m =>
    if m.isValid config.timeOut s.now then
      { s with
        cache := { s.cache with policyState := policy.touch path s.cache.policyState }
        history := .hit path m.stbuf s.now :: s.history }
    else s.goto thread (.expired path)

/-- One step of some thread, or of the clock. -/
def Threads.step (s : Threads ρ) : ThreadAction → Option (Threads ρ)
  | .put thread path stbuf =>
    if s.pcs thread = .idle then
      some { s with
        cache := s.cache.put config policy path stbuf s.now
        history := .put path stbuf s.now :: s.history }
    else none
  | .get thread path =>
    if s.pcs thread = .idle then some (s.lookup config policy thread path) else none
  | .expire thread =>
    match s.pcs thread with
    | .idle => none
    | .expired path => some ({ s with cache := s.cache.remove policy path }.goto thread .idle)
  | .remove thread path =>
    if s.pcs thread = .idle then
      some { s with
        cache := s.cache.remove policy path
        history := .remove path :: s.history }
    else none
  | .tick now => if s.now ≤ now then some { s with now } else none

/-- What a step can do, with the conditions under which it does it. -/
inductive Steps (s : Threads ρ) : ThreadAction → Threads ρ → Prop
  | put {thread : ℕ} {path : PathName} {stbuf : Stat} :
      Steps s (.put thread path stbuf) { s with
        cache := s.cache.put config policy path stbuf s.now
        history := .put path stbuf s.now :: s.history }
  | miss {thread : ℕ} {path : PathName} : Steps s (.get thread path) s
  | hit {thread : ℕ} {path : PathName} {m : Metadata} (hm : s.cache.lookup path = some m)
      (hvalid : m.isValid config.timeOut s.now = true) :
      Steps s (.get thread path) { s with
        cache := { s.cache with policyState := policy.touch path s.cache.policyState }
        history := .hit path m.stbuf s.now :: s.history }
  | expired {thread : ℕ} {path : PathName} :
      Steps s (.get thread path) (s.goto thread (.expired path))
  | expire {thread : ℕ} {path : PathName} :
      Steps s (.expire thread) ({ s with cache := s.cache.remove policy path }.goto thread .idle)
  | remove {thread : ℕ} {path : PathName} :
      Steps s (.remove thread path) { s with
        cache := s.cache.remove policy path
        history := .remove path :: s.history }
  | tick {now : ℤ} (hnow : s.now ≤ now) : Steps s (.tick now) { s with now }

variable {config policy} {s t : Threads ρ} {a : ThreadAction}

/-- **Inversion.** Every step is one of those listed. -/
theorem steps_of_step (hstep : s.step config policy a = some t) : Steps config policy s a t := by
  cases a with
  | put thread path stbuf =>
    simp only [Threads.step] at hstep
    split at hstep
    · obtain rfl := Option.some.inj hstep
      exact .put
    · cases hstep
  | get thread path =>
    simp only [Threads.step] at hstep
    split at hstep
    · obtain rfl := Option.some.inj hstep
      unfold Threads.lookup
      split
      · exact .miss
      · next m hm =>
        split
        · next hvalid => exact .hit hm hvalid
        · exact .expired
    · cases hstep
  | expire thread =>
    simp only [Threads.step] at hstep
    split at hstep
    · cases hstep
    · obtain rfl := Option.some.inj hstep
      exact .expire
  | remove thread path =>
    simp only [Threads.step] at hstep
    split at hstep
    · obtain rfl := Option.some.inj hstep
      exact .remove
    · cases hstep
  | tick now =>
    simp only [Threads.step] at hstep
    split at hstep
    · next hnow =>
      obtain rfl := Option.some.inj hstep
      exact .tick hnow
    · cases hstep

/-- A `get` whose second step, if it has one, follows at once leaves the cache as
`Cache.get` does. -/
theorem lookup_expire (s : Threads ρ) (thread : ℕ) (path : PathName)
    (hidle : s.pcs thread = .idle) :
    ∃ t, (Transition.run (Threads.step config policy) s [.get thread path] = some t ∨
        Transition.run (Threads.step config policy) s [.get thread path, .expire thread] = some t) ∧
      t.pcs thread = .idle ∧ t.cache = (s.cache.get config policy path s.now).2 := by
  unfold Cache.get
  cases hm : s.cache.entries.lookup path with
  | none =>
    refine ⟨s, Or.inl ?_, hidle, rfl⟩
    simp [Transition.run, Threads.step, Threads.lookup, hidle, hm]
  | some m =>
    by_cases hvalid : m.isValid config.timeOut s.now = true
    · refine ⟨{ s with
        cache := { s.cache with policyState := policy.touch path s.cache.policyState }
        history := .hit path m.stbuf s.now :: s.history }, Or.inl ?_, hidle, by simp [hvalid]⟩
      simp [Transition.run, Threads.step, Threads.lookup, hidle, hm, hvalid]
    · refine ⟨({ s.goto thread (.expired path) with
        cache := s.cache.remove policy path }).goto thread .idle, Or.inr ?_, by simp [Threads.goto],
          by simp [Threads.goto, hvalid]⟩
      simp [Transition.run, Threads.step, Threads.lookup, hidle, hm, hvalid, Threads.goto]

/-- The policy and the map have the same keys, and there are not too many of them. -/
structure Cache.Tracked (config : MetadataCacheConfig) (valid : ρ → Prop)
    (holds : ρ → PathName → Prop) (c : Cache ρ) : Prop where
  valid : valid c.policyState
  keys : ∀ k, holds c.policyState k ↔ k ∈ c.entries
  size : c.entries.keys.length ≤ max 1 config.size

variable {valid : ρ → Prop} {holds : ρ → PathName → Prop} {c : Cache ρ}

/-- A removal takes the key from both. -/
theorem Cache.Tracked.remove (h : c.Tracked config valid holds)
    (hlawful : policy.Lawful valid holds) (path : PathName) :
    (c.remove policy path).Tracked config valid holds := by
  obtain ⟨hvalid, hkeys⟩ := hlawful.remove path c.policyState h.valid
  refine ⟨hvalid, fun k => ?_, ?_⟩
  · rw [Cache.remove, hkeys, h.keys, AList.mem_erase]
  · exact Nat.le_trans (AList.length_keys_erase_le c.entries path) h.size

/-- A hit moves a key that both have. -/
theorem Cache.Tracked.touch (h : c.Tracked config valid holds)
    (hlawful : policy.Lawful valid holds) {path : PathName} (hpath : path ∈ c.entries) :
    Cache.Tracked config valid holds
      { c with policyState := policy.touch path c.policyState } := by
  obtain ⟨hvalid, hkeys⟩ := hlawful.touch path c.policyState h.valid
  refine ⟨hvalid, fun k => ?_, h.size⟩
  rw [hkeys, h.keys]
  refine ⟨?_, Or.inr⟩
  rintro (rfl | hk)
  · exact hpath
  · exact hk

/-- An eviction frees an entry, so that there is room for one more. -/
theorem Cache.Tracked.makeRoom (h : c.Tracked config valid holds)
    (hlawful : policy.Lawful valid holds) (hfrees : policy.Frees valid holds) :
    (c.makeRoom config policy).Tracked config valid holds ∧
      (c.makeRoom config policy).entries.keys.length + 1 ≤ max 1 config.size := by
  unfold Cache.makeRoom
  by_cases hfull : config.size ≤ c.entries.keys.length
  · rw [if_pos hfull]
    cases hevict : policy.evict c.policyState with
    | mk selected state =>
      cases selected with
      | some selected =>
        obtain ⟨hvalid, hkeys⟩ := hlawful.evict _ _ _ h.valid hevict
        have hselected : selected ∈ c.entries :=
          (h.keys selected).mp (hfrees.evicted _ _ _ h.valid hevict)
        have hlength := AList.length_keys_erase hselected
        have hsize := h.size
        refine ⟨⟨hvalid, fun k => ?_, ?_⟩, ?_⟩
        · rw [hkeys, h.keys, AList.mem_erase]
        · dsimp only
          omega
        · dsimp only
          omega
      | none =>
        obtain ⟨hvalid, hkeys⟩ := hlawful.evict_none _ _ h.valid hevict
        have hempty : c.entries.keys = [] := by
          rw [List.eq_nil_iff_forall_not_mem]
          intro k hk
          exact hfrees.exhausted _ _ h.valid hevict k ((h.keys k).mpr (AList.mem_keys.mpr hk))
        refine ⟨⟨hvalid, fun k => (hkeys k).trans (h.keys k), h.size⟩, ?_⟩
        rw [hempty]
        exact Nat.le_max_left 1 _
  · rw [if_neg hfull]
    exact ⟨h, by omega⟩

/-- A `put` adds its key to both, after room was made for it. -/
theorem Cache.Tracked.put (h : c.Tracked config valid holds)
    (hlawful : policy.Lawful valid holds) (hfrees : policy.Frees valid holds) (path : PathName)
    (stbuf : Stat) (now : ℤ) : (c.put config policy path stbuf now).Tracked config valid holds := by
  obtain ⟨hroom, hlength⟩ := h.makeRoom hlawful hfrees
  cases hlookup : (c.makeRoom config policy).entries.lookup path with
  | some m =>
    have hpath : path ∈ (c.makeRoom config policy).entries :=
      AList.lookup_isSome.mp (Option.isSome_iff_exists.mpr ⟨m, hlookup⟩)
    simp only [Cache.put, hlookup]
    exact hroom.touch hlawful hpath
  | none =>
    have hpath : path ∉ (c.makeRoom config policy).entries := AList.lookup_eq_none.mp hlookup
    obtain ⟨hvalid, hkeys⟩ := hlawful.touch path _ hroom.valid
    simp only [Cache.put, hlookup]
    refine ⟨hvalid, fun k => ?_, ?_⟩
    · rw [hkeys, hroom.keys, AList.mem_insert]
    · rw [AList.length_keys_insert hpath]
      exact hlength

/-- Every step keeps the two sets equal and within the bound. -/
theorem Cache.Tracked.step (hlawful : policy.Lawful valid holds)
    (hfrees : policy.Frees valid holds) (h : s.cache.Tracked config valid holds)
    (hstep : s.step config policy a = some t) : t.cache.Tracked config valid holds := by
  cases steps_of_step hstep with
  | put => exact h.put hlawful hfrees _ _ _
  | miss => exact h
  | @hit thread path m hm hvalid =>
    have hpath : path ∈ s.cache.entries :=
      AList.lookup_isSome.mp (Option.isSome_iff_exists.mpr ⟨m, hm⟩)
    exact h.touch hlawful hpath
  | expired => exact h
  | expire => exact h.remove hlawful _
  | remove => exact h.remove hlawful _
  | tick => exact h

/-- In every run the two sets are equal and within the bound. -/
theorem tracked_of_run (hlawful : policy.Lawful valid holds) (hfrees : policy.Frees valid holds)
    {policyState : ρ} (hvalid : valid policyState) (hempty : ∀ k, ¬ holds policyState k) {now : ℤ}
    {actions : List ThreadAction}
    (hrun : Transition.run (Threads.step config policy) (Threads.initial policyState now) actions =
      some s) : s.cache.Tracked config valid holds := by
  have hinitial : (Threads.initial policyState now).cache.Tracked config valid holds :=
    ⟨hvalid, fun k => iff_of_false (hempty k) (AList.notMem_empty k), Nat.zero_le _⟩
  exact Transition.invariant_of_forall (I := fun s => s.cache.Tracked config valid holds)
    (fun _ _ _ h hstep => h.step hlawful hfrees hstep) hrun hinitial

/-- **Representation.** With either policy, after every step of any threads the policy holds
the keys of the map, and the map has at most `size_` entries, or one if `size_` is zero. -/
theorem keys_tracked (config : MetadataCacheConfig) :
    (∀ (now : ℤ) (actions : List ThreadAction) (s : Threads (LruState PathName)),
      Transition.run (Threads.step config lruEviction) (Threads.initial LruState.empty now) actions =
        some s →
      (∀ k, k ∈ s.cache.policyState.map ↔ k ∈ s.cache.entries) ∧
        s.cache.entries.keys.length ≤ max 1 config.size) ∧
    (∀ (γ : Type) (generator : Generator γ) (randGen : γ) (now : ℤ) (actions : List ThreadAction)
      (s : Threads (RndState PathName γ)),
      Transition.run (Threads.step config (rndEviction generator))
        (Threads.initial ⟨[], randGen⟩ now) actions = some s →
      (∀ k, k ∈ s.cache.policyState.keys ↔ k ∈ s.cache.entries) ∧
        s.cache.entries.keys.length ≤ max 1 config.size) := by
  constructor
  · intro now actions s hrun
    have h := tracked_of_run lruEviction_lawful lruEviction_frees LruState.valid_empty
      (fun k => AList.notMem_empty k) hrun
    exact ⟨h.keys, h.size⟩
  · intro γ generator randGen now actions s hrun
    have h := tracked_of_run (rndEviction_lawful generator) (rndEviction_frees generator)
      List.nodup_nil (fun k => List.not_mem_nil) hrun
    exact ⟨h.keys, h.size⟩

/-- Room for one entry that is valid for one second. -/
def oneSecond : MetadataCacheConfig := { size := 1, timeOut := 1 }

/-- Thread 1 finds the entry of `/a` expired; before it removes it, thread 0 puts `/b` into the
only place. -/
def expiredAndEvicted : List ThreadAction :=
  [.put 0 ['/', 'a'] default, .tick 1000000000, .get 1 ['/', 'a'], .put 0 ['/', 'b'] default,
    .expire 1]

/-- An entry that has been evicted is removed once more. -/
theorem keys_tracked_expiredAndEvicted : ∃ s, Transition.run (Threads.step oneSecond lruEviction)
    (Threads.initial LruState.empty 0) expiredAndEvicted = some s ∧
      s.cache.entries.keys = [['/', 'b']] ∧
      ∀ k, k ∈ s.cache.policyState.map ↔ k ∈ s.cache.entries := by
  obtain ⟨s, hrun, hkeys⟩ : ∃ s, Transition.run (Threads.step oneSecond lruEviction)
      (Threads.initial LruState.empty 0) expiredAndEvicted = some s ∧
      s.cache.entries.keys = [['/', 'b']] := ⟨_, rfl, rfl⟩
  exact ⟨s, hrun, hkeys, ((keys_tracked oneSecond).1 0 _ s hrun).1⟩

/-- The attributes were put for the path at the given time, and the path has not been
removed since. -/
def PutSinceRemoved (history : List Event) (path : PathName) (stbuf : Stat) (time : ℤ) : Prop :=
  ∃ later earlier, history = later ++ .put path stbuf time :: earlier ∧ .remove path ∉ later

/-- What a `get` that returned attributes can rely on. -/
def HitSound (timeOut : ℤ) (before : List Event) (path : PathName) (stbuf : Stat) (time : ℤ) :
    Prop :=
  ∃ putTime, PutSinceRemoved before path stbuf putTime ∧ putTime ≤ time ∧
    (0 < timeOut → time - putTime < timeOut * 1000000000)

/-- Every entry was put since its path was removed, and every hit so far was sound. -/
structure Recorded (timeOut : ℤ) (s : Threads ρ) : Prop where
  entries : ∀ path m, s.cache.lookup path = some m →
    PutSinceRemoved s.history path m.stbuf m.timestamp ∧ m.timestamp ≤ s.now
  hits : ∀ after path stbuf time before, s.history = after ++ .hit path stbuf time :: before →
    HitSound timeOut before path stbuf time

/-- An event that is no removal of the path keeps its entry recorded. -/
theorem PutSinceRemoved.cons {history : List Event} {path : PathName} {stbuf : Stat} {time : ℤ}
    (h : PutSinceRemoved history path stbuf time) {event : Event} (hevent : event ≠ .remove path) :
    PutSinceRemoved (event :: history) path stbuf time := by
  obtain ⟨later, earlier, rfl, hlater⟩ := h
  refine ⟨event :: later, earlier, rfl, ?_⟩
  rw [List.mem_cons, not_or]
  exact ⟨Ne.symm hevent, hlater⟩

/-- A valid entry is younger than the time-out, which cuts the age to whole seconds. -/
theorem Metadata.lt_of_isValid {m : Metadata} {timeOut now : ℤ} (hle : m.timestamp ≤ now)
    (hvalid : m.isValid timeOut now = true) (hpos : 0 < timeOut) :
    now - m.timestamp < timeOut * 1000000000 := by
  simp only [Metadata.isValid, gt_iff_lt, hpos, if_true, decide_eq_true_eq] at hvalid
  rw [Int.tdiv_eq_ediv_of_nonneg (by omega)] at hvalid
  omega

/-- What holds of every recorded hit and the events before it still does with one more event,
if it holds of that one. -/
theorem forall_hits_cons {P : List Event → PathName → Stat → ℤ → Prop} {history : List Event}
    (h : ∀ after path stbuf time before, history = after ++ .hit path stbuf time :: before →
      P before path stbuf time) {event : Event}
    (hevent : ∀ path stbuf time, event = .hit path stbuf time → P history path stbuf time) :
    ∀ after path stbuf time before, event :: history = after ++ .hit path stbuf time :: before →
      P before path stbuf time := by
  intro after path stbuf time before hsplit
  cases after with
  | nil =>
    obtain ⟨heq, rfl⟩ := List.cons.inj hsplit
    exact hevent path stbuf time heq
  | cons first after =>
    obtain ⟨-, hrest⟩ := List.cons.inj hsplit
    exact h after path stbuf time before hrest

/-- Every step keeps what is recorded. -/
theorem Recorded.step (h : Recorded config.timeOut s) (hstep : s.step config policy a = some t) :
    Recorded config.timeOut t := by
  cases steps_of_step hstep with
  | @put thread path stbuf =>
    refine ⟨fun q m hm => ?_, forall_hits_cons h.hits fun _ _ _ heq => by cases heq⟩
    rcases lookup_of_put hm with hold | ⟨rfl, rfl⟩
    · obtain ⟨hput, hle⟩ := h.entries q m hold
      exact ⟨hput.cons (by simp), hle⟩
    · exact ⟨⟨[], s.history, rfl, List.not_mem_nil⟩, le_refl _⟩
  | miss => exact h
  | @hit thread path m hm hvalid =>
    obtain ⟨hput, hle⟩ := h.entries path m hm
    refine ⟨fun q m' hm' => ?_, forall_hits_cons h.hits fun path' stbuf time heq => ?_⟩
    · obtain ⟨hput', hle'⟩ := h.entries q m' hm'
      exact ⟨hput'.cons (by simp), hle'⟩
    · obtain ⟨rfl, rfl, rfl⟩ := Event.hit.inj heq
      exact ⟨m.timestamp, hput, hle, Metadata.lt_of_isValid hle hvalid⟩
  | expired => exact ⟨h.entries, h.hits⟩
  | expire => exact ⟨fun q m hm => h.entries q m (lookup_of_remove hm).2, h.hits⟩
  | remove =>
    refine ⟨fun q m hm => ?_, forall_hits_cons h.hits fun _ _ _ heq => by cases heq⟩
    obtain ⟨hne, hold⟩ := lookup_of_remove hm
    obtain ⟨hput, hle⟩ := h.entries q m hold
    exact ⟨hput.cons fun heq => hne (Event.remove.inj heq).symm, hle⟩
  | tick hnow => exact ⟨fun q m hm => ⟨(h.entries q m hm).1, (h.entries q m hm).2.trans hnow⟩, h.hits⟩

/-- **Hits are sound.** Whenever a `get` returns attributes, they were put for the path since
its last removal, and less than the time-out ago if there is one. -/
theorem hit_sound {policyState : ρ} {now : ℤ} {actions : List ThreadAction}
    (hrun : Transition.run (Threads.step config policy) (Threads.initial policyState now) actions =
      some s)
    {after before : List Event} {path : PathName} {stbuf : Stat} {time : ℤ}
    (hhit : s.history = after ++ .hit path stbuf time :: before) :
    ∃ later earlier putTime, before = later ++ .put path stbuf putTime :: earlier ∧
      .remove path ∉ later ∧ putTime ≤ time ∧
      (0 < config.timeOut → time - putTime < config.timeOut * 1000000000) := by
  have hinitial : Recorded config.timeOut (Threads.initial policyState now) := by
    refine ⟨fun path m hm => ?_, fun after path stbuf time before hsplit => ?_⟩
    · simp [Threads.initial, Cache.lookup] at hm
    · simp [Threads.initial] at hsplit
  have hrecorded := Transition.invariant_of_forall (fun _ _ _ h hstep => Recorded.step h hstep) hrun
    hinitial
  obtain ⟨putTime, ⟨later, earlier, hsplit, hlater⟩, hle, hage⟩ :=
    hrecorded.hits after path stbuf time before hhit
  exact ⟨later, earlier, putTime, hsplit, hlater, hle, hage⟩

/-- Attributes of a file of three bytes. -/
def threeBytes : Stat := { (default : Stat) with size := 3 }

/-- `/a` is put, removed and put with other attributes, and looked up in the same second. -/
def putAgain : List ThreadAction :=
  [.put 0 ['/', 'a'] default, .remove 1 ['/', 'a'], .put 0 ['/', 'a'] threeBytes, .tick 999999999,
    .get 1 ['/', 'a']]

/-- The hit returns what was put after the removal. -/
theorem hit_sound_putAgain : ∃ s before, Transition.run (Threads.step oneSecond lruEviction)
      (Threads.initial LruState.empty 0) putAgain = some s ∧
    s.history = .hit ['/', 'a'] threeBytes 999999999 :: before ∧
    ∃ later earlier putTime, before = later ++ .put ['/', 'a'] threeBytes putTime :: earlier ∧
      .remove ['/', 'a'] ∉ later ∧ putTime ≤ 999999999 ∧
      (0 < oneSecond.timeOut → 999999999 - putTime < oneSecond.timeOut * 1000000000) := by
  obtain ⟨s, before, hrun, hhit⟩ : ∃ s before, Transition.run (Threads.step oneSecond lruEviction)
      (Threads.initial LruState.empty 0) putAgain = some s ∧
      s.history = .hit ['/', 'a'] threeBytes 999999999 :: before := ⟨_, _, rfl, rfl⟩
  exact ⟨s, before, hrun, hhit, hit_sound hrun (hhit.trans (List.nil_append _).symm)⟩

end RSafeFS.MetadataCache
