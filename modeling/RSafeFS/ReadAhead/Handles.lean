import RSafeFS.ReadAhead.Cache

/-!
# Handles and read-ahead buffers

The layer keeps one buffer for each path. It is made by an `open`, before the layer
below is asked, and dropped by a `release`; `create` is not hooked. A run keeps the
handles that were obtained and not yet released, so that the paths with a buffer can be
compared with the paths that are open.
-/

namespace RSafeFS.ReadAhead

/-- A layer below through which files can also be created. -/
structure CreateLayer (σ : Type) extends ReadLayer σ where
  create : PathName → ℕ → FuseFileInfo → σ → (ℤ × FuseFileInfo) × σ

/-- A request on a handle, or one that asks for a handle. -/
inductive HandleAction where
  | create (path : PathName) (mode : ℕ) (fi : FuseFileInfo)
  | «open» (path : PathName) (fi : FuseFileInfo)
  | read (path : PathName) (size offset : ℕ) (fi : FuseFileInfo)
  | release (path : PathName) (fi : FuseFileInfo)
  deriving DecidableEq, Repr

/-- The cache over a layer below, with the handles that are open. -/
structure Handles (σ : Type) where
  cache : Cache
  world : σ
  handles : List (PathName × FuseFileInfo)

/-- The start of a run. -/
def Handles.start {σ : Type} (w : σ) : Handles σ := ⟨⟨∅⟩, w, []⟩

/-- The open handles after a request for one has been answered. -/
def obtained (path : PathName) (answer : ℤ × FuseFileInfo)
    (handles : List (PathName × FuseFileInfo)) : List (PathName × FuseFileInfo) :=
  if answer.1 < 0 then handles else (path, answer.2) :: handles

variable {σ : Type} (config : ReadAheadConfig) (lower : CreateLayer σ)

/-- One request through the hooks of the layer. A run does not go on after undefined
behaviour. -/
def Handles.step (s : Handles σ) : HandleAction → Option (Handles σ)
  | .create path mode fi =>
    let (answer, w) := lower.create path mode fi s.world
    some { s with world := w, handles := obtained path answer s.handles }
  | .open path fi =>
    let (answer, c, w) := s.cache.open lower.toReadLayer path fi s.world
    some ⟨c, w, obtained path answer s.handles⟩
  | .read path size offset fi =>
    match s.cache.read config lower.toReadLayer path size offset fi s.world with
    | (.ret _ _, c) => some { s with cache := c }
    | _ => none
  | .release path fi =>
    let (_, c, w) := s.cache.release lower.toReadLayer path fi s.world
    some ⟨c, w, s.handles.erase (path, fi)⟩

/-- Some handle on the path is open. -/
def Handles.IsOpen (s : Handles σ) (path : PathName) : Prop := ∃ fi, (path, fi) ∈ s.handles

/-- The paths with a buffer are the open ones, so that no read on an open handle
dereferences `buffers_.end()`. -/
structure Tracked (s : Handles σ) : Prop where
  keys : ∀ path, path ∈ s.cache.buffers ↔ s.IsOpen path
  reads : ∀ path size offset fi, (path, fi) ∈ s.handles →
    (s.cache.read config lower.toReadLayer path size offset fi s.world).1 ≠ .undefined

/-- The condition on a request. An `open` that fails and a `create` that succeeds find
the path open, and a `release` leaves no other handle on its path. -/
def Balanced (s : Handles σ) : HandleAction → Prop
  | .create path mode fi => (lower.create path mode fi s.world).1.1 < 0 ∨ s.IsOpen path
  | .open path fi => 0 ≤ (lower.open path fi s.world).1.1 ∨ s.IsOpen path
  | .read .. => True
  | .release path fi => ∀ other, (path, other) ∉ s.handles.erase (path, fi)

variable {config lower} {s t : Handles σ}

/-- A read is undefined only on a path without a buffer. -/
theorem read_ne_undefined {lower : ReadLayer σ} {c : Cache} {path : PathName}
    (h : path ∈ c.buffers) (size offset : ℕ) (fi : FuseFileInfo) (w : σ) :
    (c.read config lower path size offset fi w).1 ≠ .undefined := by
  obtain ⟨b, hb⟩ := Option.isSome_iff_exists.mp (AList.lookup_isSome.mpr h)
  simp only [Cache.read, hb]
  split
  · split
    · simp
    · simp
  · simp

/-- That reads are defined follows from the comparison of the paths. -/
theorem tracked_iff : Tracked config lower s ↔ ∀ path, path ∈ s.cache.buffers ↔ s.IsOpen path := by
  refine ⟨Tracked.keys, fun hkeys => ⟨hkeys, fun path size offset fi hmem => ?_⟩⟩
  exact read_ne_undefined ((hkeys path).mpr ⟨fi, hmem⟩) size offset fi s.world

/-- A read leaves the paths that have a buffer as they are. -/
theorem mem_buffers_read {lower : ReadLayer σ} {c c' : Cache} {path : PathName} {size offset : ℕ}
    {fi : FuseFileInfo} {w : σ} {res : ℤ} {buf : Bytes}
    (h : c.read config lower path size offset fi w = (.ret res buf, c')) (p : PathName) :
    p ∈ c'.buffers ↔ p ∈ c.buffers := by
  cases hb : c.buffers.lookup path with
  | none => simp [Cache.read, hb] at h
  | some b =>
    have hpath : path ∈ c.buffers := AList.lookup_isSome.mp (by simp [hb])
    simp only [Cache.read, hb] at h
    split at h
    · split at h
      · rw [← (Prod.mk.inj h).2]
      · rw [← (Prod.mk.inj h).2, AList.mem_insert]
        exact ⟨fun hp => hp.elim (fun heq => heq ▸ hpath) id, Or.inr⟩
    · rw [← (Prod.mk.inj h).2]

/-- An `open` adds its path to those that have a buffer. -/
theorem mem_buffers_open {lower : ReadLayer σ} {c : Cache} {path : PathName} {fi : FuseFileInfo}
    {w : σ} (p : PathName) :
    p ∈ (c.open lower path fi w).2.1.buffers ↔ p = path ∨ p ∈ c.buffers := by
  unfold Cache.open
  cases hb : c.buffers.lookup path with
  | none => exact AList.mem_insert _
  | some b =>
    have hpath : path ∈ c.buffers := AList.lookup_isSome.mp (by simp [hb])
    exact ⟨Or.inr, fun hp => hp.elim (fun heq => heq ▸ hpath) id⟩

/-- A request for a handle that succeeds opens its path, one that fails changes nothing. -/
theorem isOpen_obtained {path : PathName} {answer : ℤ × FuseFileInfo} {c : Cache} {w : σ}
    (p : PathName) :
    (⟨c, w, obtained path answer s.handles⟩ : Handles σ).IsOpen p ↔
      (0 ≤ answer.1 ∧ p = path) ∨ s.IsOpen p := by
  unfold Handles.IsOpen obtained
  split
  · next hneg =>
    refine ⟨Or.inr, fun h => h.resolve_left ?_⟩
    rintro ⟨hnonneg, _⟩
    omega
  · next hnonneg =>
    simp only [List.mem_cons, Prod.mk.injEq]
    constructor
    · rintro ⟨fi, ⟨hp, _⟩ | hmem⟩
      · exact Or.inl ⟨Int.not_lt.mp hnonneg, hp⟩
      · exact Or.inr ⟨fi, hmem⟩
    · rintro (⟨_, hp⟩ | ⟨fi, hmem⟩)
      · exact ⟨answer.2, Or.inl ⟨hp, rfl⟩⟩
      · exact ⟨fi, Or.inr hmem⟩

/-- A release closes at most its own path. -/
theorem isOpen_erase_of_ne {path p : PathName} {fi : FuseFileInfo} {c : Cache} {w : σ}
    (hne : p ≠ path) :
    (⟨c, w, s.handles.erase (path, fi)⟩ : Handles σ).IsOpen p ↔ s.IsOpen p := by
  have hmem (other : FuseFileInfo) :
      (p, other) ∈ s.handles.erase (path, fi) ↔ (p, other) ∈ s.handles :=
    List.mem_erase_of_ne fun heq => hne (Prod.mk.inj heq).1
  exact exists_congr hmem

/-- From a state in which the buffers are those of the open paths, a request leads to
another one exactly when it meets the condition. -/
theorem Tracked.step_iff (h : Tracked config lower s) {a : HandleAction}
    (hstep : s.step config lower a = some t) : Tracked config lower t ↔ Balanced lower s a := by
  rw [tracked_iff]
  cases a with
  | create path mode fi =>
    obtain rfl := Option.some.inj hstep
    simp only [isOpen_obtained, h.keys, Balanced]
    constructor
    · intro hkeys
      by_cases hfail : (lower.create path mode fi s.world).1.1 < 0
      · exact Or.inl hfail
      · exact Or.inr ((hkeys path).mpr (Or.inl ⟨Int.not_lt.mp hfail, rfl⟩))
    · rintro hbalanced p
      refine ⟨Or.inr, fun hp => hp.elim ?_ id⟩
      rintro ⟨hnonneg, rfl⟩
      exact hbalanced.resolve_left (Int.not_lt.mpr hnonneg)
  | «open» path fi =>
    have ht : t = ⟨(s.cache.open lower.toReadLayer path fi s.world).2.1,
        (lower.open path fi s.world).2, obtained path (lower.open path fi s.world).1 s.handles⟩ :=
      (Option.some.inj hstep).symm
    subst ht
    simp only [isOpen_obtained, mem_buffers_open, h.keys, Balanced]
    constructor
    · intro hkeys
      exact ((hkeys path).mp (Or.inl rfl)).imp_left And.left
    · intro hbalanced p
      constructor
      · rintro (rfl | hp)
        · exact hbalanced.imp_left fun hnonneg => ⟨hnonneg, rfl⟩
        · exact Or.inr hp
      · rintro (⟨_, rfl⟩ | hp)
        · exact Or.inl rfl
        · exact Or.inr hp
  | read path size offset fi =>
    simp only [Handles.step] at hstep
    split at hstep
    · next res buf c hread =>
      obtain rfl := Option.some.inj hstep
      simp only [mem_buffers_read hread, h.keys, Balanced, iff_true]
      exact fun p => Iff.rfl
    · cases hstep
  | release path fi =>
    obtain rfl := Option.some.inj hstep
    simp only [Balanced, AList.mem_erase]
    constructor
    · intro hkeys other hmem
      exact ((hkeys path).mpr ⟨other, hmem⟩).1 rfl
    · intro hlast p
      by_cases hp : p = path
      · subst hp
        refine iff_of_false (fun hmem => hmem.1 rfl) ?_
        rintro ⟨other, hmem⟩
        exact hlast other hmem
      · rw [isOpen_erase_of_ne hp, h.keys p]
        exact ⟨And.right, fun hopen => ⟨hp, hopen⟩⟩

/-- **Buffers and handles.** In every run, the paths with a buffer are the open ones in
every state exactly when no `open` fails and no `create` succeeds on a path that is not
open, and no `release` leaves another handle on its path. -/
theorem tracked_iff_balanced {w : σ} {actions : List HandleAction}
    (hrun : Transition.run (Handles.step config lower) (Handles.start w) actions = some s) :
    Transition.Always (Handles.step config lower) (Tracked config lower) (Handles.start w)
        actions ↔
      Transition.Meets (Handles.step config lower) (Balanced lower) (Handles.start w) actions := by
  refine Transition.always_iff_meets (fun _ _ _ h hstep => h.step_iff hstep) hrun ?_
  rw [tracked_iff]
  simp [Handles.start, Handles.IsOpen]

/-- A layer below on which every request succeeds and every file is empty. -/
def emptyFiles : CreateLayer Unit where
  «open» _ fi w := ((0, fi), w)
  getattr _ _ := (0, default)
  read _ _ _ _ _ := (0, [])
  release _ _ w := (0, w)
  create _ _ fi w := ((0, fi), w)

/-- A file that is opened, read and released. -/
theorem tracked_openReadRelease :
    Transition.Always (Handles.step {} emptyFiles) (Tracked {} emptyFiles) (Handles.start ())
      [.open ['/', 'f'] default, .read ['/', 'f'] 1 0 default, .release ['/', 'f'] default] := by
  refine (tracked_iff_balanced rfl).mpr ?_
  refine .cons (Or.inl le_rfl) rfl (.cons trivial rfl (.cons ?_ rfl trivial))
  intro other hmem
  simp [obtained, Handles.start, emptyFiles] at hmem

/-- A handle obtained by `create` has no buffer. -/
theorem not_tracked : ¬ ∀ (config : ReadAheadConfig) (lower : CreateLayer Unit)
    (actions : List HandleAction) (s : Handles Unit),
    Transition.run (Handles.step config lower) (Handles.start ()) actions = some s →
      Tracked config lower s := by
  intro hall
  have htracked := hall {} emptyFiles [.create ['/', 'f'] 0 default] _ rfl
  have hmem := (htracked.keys ['/', 'f']).mpr ⟨default, by simp [obtained, emptyFiles]⟩
  simp [Handles.start] at hmem

end RSafeFS.ReadAhead
