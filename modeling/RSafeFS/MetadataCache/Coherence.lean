import RSafeFS.MetadataCache.Hooks
import RSafeFS.Lib.Transition

/-!
# Coherence of the metadata cache for one client

A single client is the only one to modify the layer below and sends its requests
one after another. A run records, for every path, the last request that changed its
attributes. Where that request named the path, the cache is expected to answer as
the layer below would. Requests without a stacked hook and handles of files that
have left their path are what can prevent it.
-/

namespace RSafeFS.MetadataCache

/-- The path arguments of a request. -/
def FsCall.arguments : FsCall → List PathName
  | .symlink source dest | .rename source dest | .link source dest => [source, dest]
  | .mknod path .. | .mkdir path .. | .unlink path | .rmdir path | .chmod path _ | .chown path ..
  | .truncate path _ | .ftruncate path .. | .utimens path .. | .create path .. | .open path _
  | .write path .. | .flush path _ | .release path _ | .fsync path .. => [path]

/-- The paths of the directory entries that a request creates or removes. -/
def FsCall.entryArguments : FsCall → List PathName
  | .rename source dest => [source, dest]
  | .symlink _ dest | .link _ dest => [dest]
  | .mknod path .. | .mkdir path .. | .unlink path | .rmdir path | .create path .. => [path]
  | _ => []

/-- A request names a path if the path is one of its arguments, or the directory of
an entry that it creates or removes. -/
def FsCall.Names (call : FsCall) (p : PathName) : Prop :=
  p ∈ call.arguments ∨ ∃ q ∈ call.entryArguments, DirectChild p q

/-- One request of the client, with the clock readings the cache makes for it. -/
inductive Action where
  | getattr (path : PathName) (nowGet nowPut : ℤ)
  | fgetattr (path : PathName) (fi : FuseFileInfo) (nowGet nowPut : ℤ)
  | call (call : FsCall)

/-- The state of a run, with the last request that changed the attributes of each path. -/
structure History (σ ρ : Type) where
  state : LayerState σ ρ
  lastChange : PathName → Option FsCall

/-- The start of a run: the cache is empty and nothing has changed yet. -/
def History.start {σ ρ : Type} (world : σ) (policyState : ρ) : History σ ρ :=
  ⟨⟨⟨∅, policyState⟩, world⟩, fun _ => none⟩

variable {σ ρ : Type} (config : MetadataCacheConfig) (policy : EvictionPolicy PathName ρ)
  (lower : LowerLayer σ)

/-- One request of a run. -/
def History.step (h : History σ ρ) : Action → Option (History σ ρ)
  | .getattr path nowGet nowPut => some
      { h with state := (metadataCacheGetattr config policy lower path nowGet nowPut h.state).2 }
  | .fgetattr path fi nowGet nowPut => some
      { h with state := (metadataCacheFgetattr config policy lower path fi nowGet nowPut h.state).2 }
  | .call call =>
    let state := (layerCall policy lower call h.state).2
    some ⟨state, fun p =>
      if lower.getattr p h.state.world = lower.getattr p state.world then h.lastChange p
      else some call⟩

/-- The layer answers `getattr` for the path as the layer below does, provided that
the last request to change its attributes, if any, named it. -/
def Coherent (h : History σ ρ) (path : PathName) : Prop :=
  (∀ call, h.lastChange path = some call → call.Names path) → ∀ nowGet nowPut,
    (metadataCacheGetattr config policy lower path nowGet nowPut h.state).1 =
      lower.getattr path h.state.world

/-- The condition on a request: one without a stacked hook finds no entry of its
path, and a `fgetattr` that misses reports the attributes of the file at its path. -/
def Undisturbed (h : History σ ρ) : Action → Prop
  | .getattr .. => True
  | .fgetattr path fi nowGet _ =>
      (h.state.cache.get config policy path nowGet).1 = none →
      (lower.fgetattr path fi h.state.world).1 = 0 →
      lower.fgetattr path fi h.state.world = lower.getattr path h.state.world
  | .call call => call.Stacked ∨ ∀ p ∈ call.arguments, h.state.cache.lookup p = none

/-- Every cached entry is current, or its path was last changed by a request that
did not name it. -/
def Fresh (h : History σ ρ) : Prop :=
  ∀ p m, h.state.cache.lookup p = some m →
    lower.getattr p h.state.world = (0, m.stbuf) ∨
      ∃ call, h.lastChange p = some call ∧ ¬ call.Names p

/-- Every hook removes the entries of its request's path arguments. -/
theorem arguments_subset_removed {call : FsCall} {hook : Hook} (hhook : call.hook = some hook)
    {p : PathName} (hp : p ∈ call.arguments) : p ∈ hook.removed := by
  cases call <;> cases hhook <;> exact List.mem_append_left _ hp

/-- Every hook removes the parents of the entries that its request creates or removes. -/
theorem parents_subset_removed {call : FsCall} {hook : Hook} (hhook : call.hook = some hook)
    {p q : PathName} (hq : q ∈ call.entryArguments) (hp : p ∈ removeParent q) :
    p ∈ hook.removed := by
  have hcons {a b : PathName} {rest : List PathName} (h : p ∈ rest) : p ∈ a :: b :: rest :=
    List.mem_cons_of_mem a (List.mem_cons_of_mem b h)
  cases call <;> cases hhook
  case rename source dest =>
    rcases List.mem_cons.mp hq with rfl | hq
    · exact hcons (List.mem_append_left _ hp)
    · obtain rfl := List.mem_singleton.mp hq
      exact hcons (List.mem_append_right _ hp)
  case symlink source dest =>
    obtain rfl := List.mem_singleton.mp hq
    exact hcons hp
  case link source dest =>
    obtain rfl := List.mem_singleton.mp hq
    exact hcons hp
  all_goals
    first
    | exact absurd hq List.not_mem_nil
    | obtain rfl := List.mem_singleton.mp hq
      exact List.mem_cons_of_mem _ hp

/-- A request whose slot is stacked has a hook: only `write` has none. -/
theorem exists_hook_of_stacked {call : FsCall} (h : call.Stacked) :
    ∃ hook, call.hook = some hook := by
  cases call with
  | write path buf offset fi =>
    exact absurd (show Op.write ∈ metadataCacheHooks.map Prod.fst from h) (by decide)
  | _ => exact ⟨_, rfl⟩

/-- A stacked hook removes the entries of every path that its request names. -/
theorem mem_removedPaths_of_names {call : FsCall} {p : PathName} (hstacked : call.Stacked)
    (hnames : call.Names p) : p ∈ call.removedPaths := by
  obtain ⟨hook, hhook⟩ := exists_hook_of_stacked hstacked
  rw [FsCall.removedPaths, if_pos hstacked, hhook]
  rcases hnames with harg | ⟨q, hq, hchild⟩
  · exact arguments_subset_removed hhook harg
  · apply parents_subset_removed hhook hq
    simp [removeParent, hchild.hasParentPath, hchild.parentPath_eq]

/-- A request without a stacked hook names only its arguments: it neither creates
nor removes an entry. -/
theorem mem_arguments_of_names {call : FsCall} {p : PathName} (hstacked : ¬ call.Stacked)
    (hnames : call.Names p) : p ∈ call.arguments := by
  rcases hnames with harg | ⟨q, hq, _⟩
  · exact harg
  · cases call with
    | write path buf offset fi => exact absurd hq List.not_mem_nil
    | utimens path atime mtime => exact absurd hq List.not_mem_nil
    | _ => exact absurd (by simp [FsCall.Stacked, FsCall.slot, metadataCacheHooks]) hstacked

variable {config policy lower}

/-- A fetch that meets its condition keeps the cache fresh. -/
theorem Fresh.fetch {h : History σ ρ} (hfresh : Fresh lower h) {fetched : ℤ × Stat}
    {path : PathName} {nowGet nowPut : ℤ}
    (hfetched : (h.state.cache.get config policy path nowGet).1 = none → fetched.1 = 0 →
      fetched = lower.getattr path h.state.world) :
    Fresh lower { h with state := { h.state with
      cache := (fetchThrough config policy fetched path nowGet nowPut h.state.cache).2 } } := by
  intro p m hm
  rcases lookup_of_fetchThrough hm with hold | ⟨rfl, hzero, rfl, hmiss⟩
  · exact hfresh p m hold
  · left
    have heq := hfetched hmiss hzero
    dsimp only
    rw [← heq, ← hzero]

/-- A request that meets its condition keeps the cache fresh: what it changes and
names has no entry left, and what it changes without naming is recorded as such. -/
theorem Fresh.call {h : History σ ρ} (hfresh : Fresh lower h) {call : FsCall}
    (hcall : call.Stacked ∨ ∀ p ∈ call.arguments, h.state.cache.lookup p = none)
    {t : History σ ρ} (hstep : h.step config policy lower (.call call) = some t) :
    Fresh lower t := by
  obtain rfl := Option.some.inj hstep
  intro p m hm
  obtain ⟨hremoved, hold⟩ := lookup_of_removeAll hm
  by_cases hsame : lower.getattr p h.state.world =
      lower.getattr p (layerCall policy lower call h.state).2.world
  · rcases hfresh p m hold with hcur | hlast
    · exact Or.inl (hsame ▸ hcur)
    · exact Or.inr (by simpa only [if_pos hsame] using hlast)
  · right
    refine ⟨call, if_neg hsame, fun hnames => ?_⟩
    by_cases hstacked : call.Stacked
    · exact hremoved (mem_removedPaths_of_names hstacked hnames)
    · have hnone := hcall.resolve_left hstacked p (mem_arguments_of_names hstacked hnames)
      simp [hnone] at hold

/-- Every request that meets its condition keeps the cache fresh. -/
theorem Fresh.step {h t : History σ ρ} {a : Action} (hfresh : Fresh lower h)
    (hok : Undisturbed config policy lower h a) (hstep : h.step config policy lower a = some t) :
    Fresh lower t := by
  cases a with
  | getattr path nowGet nowPut =>
    obtain rfl := Option.some.inj hstep
    exact hfresh.fetch fun _ _ => rfl
  | fgetattr path fi nowGet nowPut =>
    obtain rfl := Option.some.inj hstep
    exact hfresh.fetch hok
  | call call => exact hfresh.call hok hstep

/-- In a fresh state the layer is coherent for every path. -/
theorem Fresh.coherent {h : History σ ρ} (hfresh : Fresh lower h) (path : PathName) :
    Coherent config policy lower h path := by
  intro hnamed nowGet nowPut
  simp only [metadataCacheGetattr, fetchThrough_result]
  cases hget : (h.state.cache.get config policy path nowGet).1 with
  | none => rfl
  | some stbuf =>
    obtain ⟨⟨m, hm, _, rfl⟩, _⟩ := get_hit hget
    rcases hfresh path m hm with hcur | ⟨call, hlast, hnot⟩
    · exact hcur.symm
    · exact absurd (hnamed call hlast) hnot

/-- **Metadata-cache coherence.** In every run of one client whose requests without
a stacked hook find no entry of their path, and whose `fgetattr` misses go through
a handle of the file at the path, `getattr` answers as the layer below for every
path that was named by the last request to change it. -/
theorem metadataCacheGetattr_coherent {world : σ} {policyState : ρ} {actions : List Action}
    {h : History σ ρ}
    (hrun : Transition.run (History.step config policy lower)
      (History.start world policyState) actions = some h)
    (hmeets : Transition.Meets (History.step config policy lower)
      (Undisturbed config policy lower) (History.start world policyState) actions)
    (path : PathName) : Coherent config policy lower h path := by
  have hstart : Fresh lower (History.start world policyState) := by
    intro p m hm
    simp [History.start, Cache.lookup] at hm
  have hfresh : Fresh lower h :=
    Transition.invariant (fun _ _ _ hs hok hstep => hs.step hok hstep) hrun hmeets hstart
  exact hfresh.coherent path

/-- A layer below that holds one file, whose mode and times can be set. -/
def oneFile (file : PathName) : LowerLayer Stat where
  getattr path stbuf := if path = file then (0, stbuf) else (-2, default)
  fgetattr _ _ stbuf := (0, stbuf)
  call
    | .utimens path atime mtime, stbuf =>
      if path = file then (⟨0, none⟩, { stbuf with atim := atime, mtim := mtime })
      else (⟨-2, none⟩, stbuf)
    | .chmod path mode, stbuf =>
      if path = file then (⟨0, none⟩, { stbuf with mode := mode }) else (⟨-2, none⟩, stbuf)
    | _, stbuf => (⟨-95, none⟩, stbuf)

/-- A run that meets the condition: a `chmod` between two `getattr` of one file. -/
theorem metadataCacheGetattr_coherent_chmod :
    ∃ h, Transition.run (History.step {} lruEviction (oneFile "/f".toList))
        (History.start default LruState.empty)
        [.getattr "/f".toList 0 0, .call (.chmod "/f".toList 420), .getattr "/f".toList 1 1] =
          some h ∧
      Coherent {} lruEviction (oneFile "/f".toList) h "/f".toList := by
  obtain ⟨h, hrun⟩ : ∃ h, Transition.run (History.step {} lruEviction (oneFile "/f".toList))
      (History.start default LruState.empty)
      [.getattr "/f".toList 0 0, .call (.chmod "/f".toList 420), .getattr "/f".toList 1 1] =
        some h := ⟨_, rfl⟩
  refine ⟨h, hrun, metadataCacheGetattr_coherent hrun ?_ _⟩
  exact ⟨trivial, fun _ _ => ⟨Or.inl (by decide), fun _ _ => ⟨trivial, fun _ _ => trivial⟩⟩⟩

/-- A `utimens` after a `getattr` of the same file leaves the old times in the cache:
its hook is defined and never stacked. -/
theorem not_coherent_utimens : ¬ ∀ (σ ρ : Type) (config : MetadataCacheConfig)
    (policy : EvictionPolicy PathName ρ) (lower : LowerLayer σ) (world : σ) (policyState : ρ)
    (actions : List Action) (h : History σ ρ),
    Transition.run (History.step config policy lower) (History.start world policyState) actions =
      some h → ∀ path, Coherent config policy lower h path := by
  intro hall
  have hcoherent := hall Stat (LruState PathName) {} lruEviction (oneFile "/f".toList) default
    LruState.empty [.getattr "/f".toList 0 0, .call (.utimens "/f".toList ⟨5, 0⟩ ⟨5, 0⟩)] _ rfl
    "/f".toList
  have hnamed : FsCall.Names (.utimens "/f".toList ⟨5, 0⟩ ⟨5, 0⟩) "/f".toList :=
    Or.inl (by decide)
  have hanswer := hcoherent (fun call hcall => Option.some.inj hcall ▸ hnamed) 0 0
  exact absurd hanswer (by decide)

end RSafeFS.MetadataCache
