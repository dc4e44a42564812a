import RSafeFS.MetadataCache.Coherence

/-!
# Concurrent requests on one path of the metadata cache

Several threads run hooks of the layer at once. A step is one `cache->get`, one
`cache->remove`, one `cache->put` or one call of the layer below. A thread that looks
attributes up may put an old answer into the cache after the removal that a change
of the attributes relied on.
-/

namespace RSafeFS.MetadataCache

/-- A request that a thread starts. -/
inductive Request where
  | getattr (path : PathName)
  | fgetattr (path : PathName) (fi : FuseFileInfo)
  | call (call : FsCall)
  deriving DecidableEq, Repr

/-- Where a thread is inside a hook. `removing` lists the removals still to be made
before the request is forwarded. -/
inductive Pc where
  | idle
  | lookup (path : PathName) (fi : Option FuseFileInfo)
  | fetch (path : PathName) (fi : Option FuseFileInfo)
  | store (path : PathName) (stbuf : Stat) (fetchedAt : ℕ)
  | removing (todo : List PathName) (call : FsCall)
  deriving DecidableEq, Repr

/-- The first step of the hook of a request. -/
def Request.enter : Request → Pc
  | .getattr path => .lookup path none
  | .fgetattr path fi => .lookup path (some fi)
  | .call c => .removing c.removedPaths c

/-- The thread is in the middle of a request on the path. -/
def Pc.On (p : PathName) : Pc → Prop
  | .idle => False
  | .lookup path _ | .fetch path _ | .store path .. => path = p
  | .removing _ call => call.Names p

/-- The threads over one cache and one layer below. Two records serve the statements
only: how often the attributes of each path have changed, and which requests have
returned with which result. -/
structure RaceState (σ ρ : Type) where
  cache : Cache ρ
  world : σ
  pcs : ℕ → Pc
  changes : PathName → ℕ
  returned : List (FsCall × ℤ)

/-- The start of a run: the cache is empty and every thread is idle. -/
def RaceState.start {σ ρ : Type} (world : σ) (policyState : ρ) : RaceState σ ρ :=
  ⟨⟨∅, policyState⟩, world, fun _ => .idle, fun _ => 0, []⟩

/-- A thread starts a request or takes the next step of its hook. -/
inductive RaceAction where
  | start (thread : ℕ) (request : Request)
  | advance (thread : ℕ) (now : ℤ)

variable {σ ρ : Type} (config : MetadataCacheConfig) (policy : EvictionPolicy PathName ρ)
  (lower : LowerLayer σ)

/-- The call of the layer below that a look-up makes on a miss. -/
def LowerLayer.attributes (path : PathName) : Option FuseFileInfo → σ → ℤ × Stat
  | none => lower.getattr path
  | some fi => lower.fgetattr path fi

/-- Move a thread to another place. -/
def RaceState.goto (s : RaceState σ ρ) (thread : ℕ) (pc : Pc) : RaceState σ ρ :=
  { s with pcs := Function.update s.pcs thread pc }

/-- The next step of a thread inside its hook. -/
def RaceState.advance (s : RaceState σ ρ) (thread : ℕ) (now : ℤ) : Pc → Option (RaceState σ ρ)
  | .idle => none
  | .lookup path fi =>
    match s.cache.get config policy path now with
    | (some _, cache) => some ({ s with cache }.goto thread .idle)
    | (none, cache) => some ({ s with cache }.goto thread (.fetch path fi))
  | .fetch path fi =>
    let (res, stbuf) := lower.attributes path fi s.world
    if res = 0 then some (s.goto thread (.store path stbuf (s.changes path)))
    else some (s.goto thread .idle)
  | .store path stbuf _ =>
    some ({ s with cache := s.cache.put config policy path stbuf now }.goto thread .idle)
  | .removing (path :: todo) call =>
    some ({ s with cache := s.cache.remove policy path }.goto thread (.removing todo call))
  | .removing [] call =>
    let (result, world) := lower.call call s.world
    some ({ s with
      world
      changes := fun p =>
        if lower.getattr p s.world = lower.getattr p world then s.changes p else s.changes p + 1
      returned := (call, result.res) :: s.returned }.goto thread .idle)

/-- One step of some thread. -/
def RaceState.step (s : RaceState σ ρ) : RaceAction → Option (RaceState σ ρ)
  | .start thread request =>
    if s.pcs thread = .idle then some (s.goto thread request.enter) else none
  | .advance thread now => s.advance config policy lower thread now (s.pcs thread)

/-- The requests considered: attributes are looked up anywhere, and changed only by
requests that name the path and have a stacked hook. -/
def RaceAction.Admitted (p : PathName) : RaceAction → Prop
  | .start _ (.call call) => call.Stacked ∧ call.Names p
  | _ => True

/-- A successful request naming the path has returned, and none on the path is under way. -/
def RaceState.Settled (s : RaceState σ ρ) (p : PathName) : Prop :=
  (∃ call, (call, 0) ∈ s.returned ∧ call.Names p) ∧ ∀ thread, ¬ (s.pcs thread).On p

/-- Once settled, `getattr` answers with the current attributes of the path. -/
def NoStale (p : PathName) (s : RaceState σ ρ) : Prop :=
  s.Settled p → ∀ nowGet nowPut,
    (metadataCacheGetattr config policy lower p nowGet nowPut ⟨s.cache, s.world⟩).1 =
      lower.getattr p s.world

/-- The condition on a step. Attributes are put into the cache only if they have not
changed since they were fetched and no request stands between its removal of the path
and its call of the layer below. A `fgetattr` that reaches the layer below goes through
a handle of the file at the path. -/
def Unraced (p : PathName) (s : RaceState σ ρ) : RaceAction → Prop
  | .start .. => True
  | .advance thread _ =>
    match s.pcs thread with
    | .store path _ fetchedAt => path = p → fetchedAt = s.changes p ∧
        ∀ other todo call, s.pcs other = .removing todo call → p ∈ todo
    | .fetch path (some fi) => path = p → (lower.fgetattr p fi s.world).1 = 0 →
        lower.fgetattr p fi s.world = lower.getattr p s.world
    | _ => True

/-- What a thread's place promises about the path. A request that has removed the
path finds no entry of it; fetched attributes are current until the next change. -/
def PcSound (p : PathName) (s : RaceState σ ρ) : Pc → Prop
  | .store path stbuf fetchedAt => path = p → fetchedAt ≤ s.changes p ∧
      (fetchedAt = s.changes p → lower.getattr p s.world = (0, stbuf))
  | .removing todo _ => p ∈ todo ∨ s.cache.lookup p = none
  | _ => True

/-- The invariant: the entry of the path is current, and every thread's place is sound. -/
structure RaceInvariant (p : PathName) (s : RaceState σ ρ) : Prop where
  current : ∀ m, s.cache.lookup p = some m → lower.getattr p s.world = (0, m.stbuf)
  sound : ∀ thread, PcSound lower p s (s.pcs thread)

variable {config policy lower} {p : PathName} {s t : RaceState σ ρ}

@[simp] theorem goto_cache (thread : ℕ) (pc : Pc) : (s.goto thread pc).cache = s.cache := rfl

@[simp] theorem goto_world (thread : ℕ) (pc : Pc) : (s.goto thread pc).world = s.world := rfl

/-- Moving a thread to a sound place keeps the invariant. -/
theorem RaceInvariant.goto (h : RaceInvariant lower p s) {thread : ℕ} {pc : Pc}
    (hpc : PcSound lower p s pc) : RaceInvariant lower p (s.goto thread pc) where
  current := h.current
  sound other := by
    have hother : PcSound lower p s (Function.update s.pcs thread pc other) := by
      by_cases heq : other = thread
      · subst heq
        rwa [Function.update_self]
      · rw [Function.update_of_ne heq]
        exact h.sound other
    exact hother

/-- A cache with fewer entries keeps the invariant. -/
theorem RaceInvariant.shrink (h : RaceInvariant lower p s) {cache : Cache ρ}
    (hfewer : ∀ m, cache.lookup p = some m → s.cache.lookup p = some m) :
    RaceInvariant lower p { s with cache } where
  current m hm := h.current m (hfewer m hm)
  sound thread := by
    have hsound := h.sound thread
    cases hpc : s.pcs thread with
    | removing todo call =>
      rw [hpc] at hsound
      refine hsound.imp_right fun hnone => ?_
      rw [Option.eq_none_iff_forall_ne_some]
      intro m hm
      simp [hfewer m hm] at hnone
    | _ => rwa [hpc] at hsound

/-- The call of the layer below keeps the invariant: a request about to make it has
removed the path, so there is no entry that could become outdated. -/
theorem RaceInvariant.forward (h : RaceInvariant lower p s) (hnone : s.cache.lookup p = none)
    (world : σ) (returned : List (FsCall × ℤ)) :
    RaceInvariant lower p { s with
      world
      changes := fun p =>
        if lower.getattr p s.world = lower.getattr p world then s.changes p else s.changes p + 1
      returned } where
  current m hm := by simp [hnone] at hm
  sound thread := by
    have hsound := h.sound thread
    cases hpc : s.pcs thread with
    | store path stbuf fetchedAt =>
      rw [hpc] at hsound
      rintro rfl
      obtain ⟨hle, hcurrent⟩ := hsound rfl
      by_cases hsame : lower.getattr path s.world = lower.getattr path world
      · simp only [if_pos hsame]
        exact ⟨hle, fun heq => hsame ▸ hcurrent heq⟩
      · simp only [if_neg hsame]
        exact ⟨by omega, fun heq => by omega⟩
    | removing todo call => exact Or.inr hnone
    | _ => trivial

/-- Putting attributes into the cache keeps the invariant under the condition. -/
theorem RaceInvariant.store (h : RaceInvariant lower p s) {thread : ℕ} {path : PathName}
    {stbuf : Stat} {fetchedAt : ℕ} (hpc : s.pcs thread = .store path stbuf fetchedAt)
    (hok : path = p → fetchedAt = s.changes p ∧
      ∀ other todo call, s.pcs other = .removing todo call → p ∈ todo) (now : ℤ) :
    RaceInvariant lower p { s with cache := s.cache.put config policy path stbuf now } := by
  by_cases hpath : path = p
  · obtain ⟨hat, hothers⟩ := hok hpath
    have hstored : PcSound lower p s (.store path stbuf fetchedAt) := hpc ▸ h.sound thread
    constructor
    · intro m hm
      rcases lookup_of_put hm with hold | ⟨_, rfl⟩
      · exact h.current m hold
      · exact (hstored hpath).2 hat
    · intro other
      have hsound := h.sound other
      cases hother : s.pcs other with
      | removing todo call => exact Or.inl (hothers other todo call hother)
      | _ => rwa [hother] at hsound
  · apply h.shrink
    intro m hm
    rcases lookup_of_put hm with hold | ⟨heq, _⟩
    · exact hold
    · exact absurd heq.symm hpath

/-- Every step of a thread that meets the condition keeps the invariant. -/
theorem RaceInvariant.advance (h : RaceInvariant lower p s) {thread : ℕ} {now : ℤ}
    (hok : Unraced lower p s (.advance thread now))
    (hstep : s.advance config policy lower thread now (s.pcs thread) = some t) :
    RaceInvariant lower p t := by
  simp only [Unraced] at hok
  have hsound := h.sound thread
  cases hpc : s.pcs thread with
  | idle => simp [hpc, RaceState.advance] at hstep
  | lookup path fi =>
    have hshrunk : RaceInvariant lower p
        { s with cache := (s.cache.get config policy path now).2 } :=
      h.shrink fun m hm => lookup_of_get hm
    simp only [hpc, RaceState.advance] at hstep
    split at hstep
    · next stbuf cache hget =>
      obtain rfl := Option.some.inj hstep
      rw [hget] at hshrunk
      exact hshrunk.goto trivial
    · next cache hget =>
      obtain rfl := Option.some.inj hstep
      rw [hget] at hshrunk
      exact hshrunk.goto trivial
  | fetch path fi =>
    simp only [hpc, RaceState.advance] at hstep
    split at hstep
    · next hzero =>
      obtain rfl := Option.some.inj hstep
      apply h.goto
      rintro rfl
      refine ⟨le_rfl, fun _ => ?_⟩
      have hsame : lower.attributes path fi s.world = lower.getattr path s.world := by
        cases fi with
        | none => rfl
        | some fi =>
          rw [hpc] at hok
          exact hok rfl hzero
      rw [← hsame, ← hzero]
    · obtain rfl := Option.some.inj hstep
      exact h.goto trivial
  | store path stbuf fetchedAt =>
    rw [hpc] at hok hstep
    obtain rfl := Option.some.inj hstep
    exact (h.store hpc hok now).goto trivial
  | removing todo call =>
    rw [hpc] at hsound hstep
    cases todo with
    | nil =>
      obtain rfl := Option.some.inj hstep
      have hnone := hsound.resolve_left List.not_mem_nil
      exact (h.forward hnone _ _).goto trivial
    | cons path todo =>
      obtain rfl := Option.some.inj hstep
      refine (h.shrink fun m hm => (lookup_of_remove hm).2).goto ?_
      rcases hsound with hmem | hnone
      · rcases List.mem_cons.mp hmem with rfl | hmem
        · exact Or.inr (lookup_remove_self p s.cache)
        · exact Or.inl hmem
      · right
        rw [Option.eq_none_iff_forall_ne_some]
        intro m hm
        simp [(lookup_of_remove hm).2] at hnone

/-- Every admitted step that meets the condition keeps the invariant. -/
theorem RaceInvariant.step (h : RaceInvariant lower p s) {a : RaceAction}
    (hok : Unraced lower p s a) (hadmitted : a.Admitted p)
    (hstep : s.step config policy lower a = some t) : RaceInvariant lower p t := by
  cases a with
  | start thread request =>
    simp only [RaceState.step] at hstep
    split at hstep
    · obtain rfl := Option.some.inj hstep
      apply h.goto
      cases request with
      | getattr path => trivial
      | fgetattr path fi => trivial
      | call call => exact Or.inl (mem_removedPaths_of_names hadmitted.1 hadmitted.2)
    · cases hstep
  | advance thread now => exact h.advance hok hstep

/-- Under the invariant `getattr` answers with the current attributes of the path. -/
theorem RaceInvariant.noStale (h : RaceInvariant lower p s) : NoStale config policy lower p s := by
  intro _ nowGet nowPut
  simp only [metadataCacheGetattr, fetchThrough_result]
  cases hget : (s.cache.get config policy p nowGet).1 with
  | none => rfl
  | some stbuf =>
    obtain ⟨⟨m, hm, _, rfl⟩, _⟩ := get_hit hget
    exact (h.current m hm).symm

/-- **No stale re-caching.** In every interleaving whose look-ups store no answer
across a change of the path, or between a request's removal of the path and its call
of the layer below, a settled path is answered with its current attributes. -/
theorem noStale_of_unraced {world : σ} {policyState : ρ} {actions : List RaceAction}
    (hrun : Transition.run (RaceState.step config policy lower)
      (RaceState.start world policyState) actions = some s)
    (hadmitted : ∀ a ∈ actions, a.Admitted p)
    (hmeets : Transition.Meets (RaceState.step config policy lower) (Unraced lower p)
      (RaceState.start world policyState) actions) :
    NoStale config policy lower p s := by
  have hstart : RaceInvariant lower p (RaceState.start world policyState) :=
    ⟨fun m hm => by simp [RaceState.start, Cache.lookup] at hm, fun _ => trivial⟩
  have hinv : RaceInvariant lower p s :=
    Transition.invariant (fun _ _ _ hs hok hstep => hs.step hok.1 hok.2 hstep) hrun
      (hmeets.and_mem hadmitted) hstart
  exact hinv.noStale

/-- Thread 0 looks the attributes up, and then thread 1 changes the mode. -/
def chmodAfterGetattr : List RaceAction :=
  [.start 0 (.getattr "/f".toList), .advance 0 0, .advance 0 0, .advance 0 0,
    .start 1 (.call (.chmod "/f".toList 420)), .advance 1 0, .advance 1 0]

/-- Thread 1 changes the mode after thread 0 has fetched the attributes and before it
has stored them. -/
def chmodDuringGetattr : List RaceAction :=
  [.start 0 (.getattr "/f".toList), .advance 0 0, .advance 0 0,
    .start 1 (.call (.chmod "/f".toList 420)), .advance 1 0, .advance 1 0, .advance 0 0]

/-- A `chmod` of a path is an admitted request on it. -/
theorem admitted_chmod (thread : ℕ) (p : PathName) (mode : ℕ) :
    (RaceAction.start thread (.call (.chmod p mode))).Admitted p :=
  ⟨by simp [FsCall.Stacked, FsCall.slot, metadataCacheHooks], Or.inl List.mem_cons_self⟩

/-- One request after the other settles with the new mode. -/
theorem noStale_chmodAfterGetattr :
    ∃ s, Transition.run (RaceState.step {} lruEviction (oneFile "/f".toList))
        (RaceState.start default LruState.empty) chmodAfterGetattr = some s ∧
      s.Settled "/f".toList ∧ NoStale {} lruEviction (oneFile "/f".toList) "/f".toList s := by
  obtain ⟨s, hrun, hcall, hidle⟩ : ∃ s,
      Transition.run (RaceState.step {} lruEviction (oneFile "/f".toList))
        (RaceState.start default LruState.empty) chmodAfterGetattr = some s ∧
      s.returned = [(.chmod "/f".toList 420, 0)] ∧ ∀ thread, s.pcs thread = .idle :=
    ⟨_, rfl, rfl, fun thread => match thread with
      | 0 => rfl
      | 1 => rfl
      | _ + 2 => rfl⟩
  refine ⟨s, hrun, ⟨⟨.chmod "/f".toList 420, ?_, Or.inl List.mem_cons_self⟩, ?_⟩,
    noStale_of_unraced hrun ?_ ?_⟩
  · simp [hcall]
  · intro thread
    simp [hidle, Pc.On]
  · simp only [chmodAfterGetattr, List.forall_mem_cons]
    exact ⟨trivial, trivial, trivial, trivial, admitted_chmod 1 _ 420, trivial, trivial,
      fun _ h => absurd h List.not_mem_nil⟩
  · refine .cons trivial rfl (.cons trivial rfl (.cons trivial rfl (.cons ?_ rfl
      (.cons trivial rfl (.cons trivial rfl (.cons trivial rfl trivial))))))
    refine fun _ => ⟨rfl, fun other todo call h => ?_⟩
    match other with
    | 0 => cases h
    | _ + 1 => cases h

/-- A `getattr` overtaken by a `chmod` leaves the old mode in the cache. -/
theorem not_noStale : ¬ ∀ (σ ρ : Type) (config : MetadataCacheConfig)
    (policy : EvictionPolicy PathName ρ) (lower : LowerLayer σ) (world : σ) (policyState : ρ)
    (p : PathName) (actions : List RaceAction) (s : RaceState σ ρ),
    Transition.run (RaceState.step config policy lower) (RaceState.start world policyState)
      actions = some s → (∀ a ∈ actions, a.Admitted p) → NoStale config policy lower p s := by
  intro hall
  have hadmitted : ∀ a ∈ chmodDuringGetattr, a.Admitted "/f".toList := by
    simp only [chmodDuringGetattr, List.forall_mem_cons]
    exact ⟨trivial, trivial, trivial, admitted_chmod 1 _ 420, trivial, trivial, trivial,
      fun _ h => absurd h List.not_mem_nil⟩
  have hnoStale := hall Stat (LruState PathName) {} lruEviction (oneFile "/f".toList) default
    LruState.empty "/f".toList chmodDuringGetattr _ rfl hadmitted
  have hanswer := hnoStale ⟨⟨.chmod "/f".toList 420, List.mem_cons_self,
    Or.inl List.mem_cons_self⟩, fun thread => match thread with
      | 0 => id
      | 1 => id
      | _ + 2 => id⟩ 0 0
  exact absurd hanswer (by decide)

end RSafeFS.MetadataCache
