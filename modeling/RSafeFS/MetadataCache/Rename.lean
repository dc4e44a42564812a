import RSafeFS.MetadataCache.Hooks

/-!
# Renaming a directory under the metadata cache

A successful rename of a directory changes what every path below its two names
refers to, while `metadata_cache_rename` removes at most four entries. This file
determines exactly when the cache still answers as the layer below for all of them.
-/

namespace RSafeFS.MetadataCache

/-- `q` is the directory `d` or lies below it. -/
def Under (d q : PathName) : Prop := q = d ∨ Below d q

/-- What `rename(2)` documents for a directory that it moved from `source` to `dest`,
between the states `w` and `w'` of the layer below. -/
structure DirectoryRenamed {σ : Type} (lower : LowerLayer σ) (source dest : PathName)
    (w w' : σ) : Prop where
  /-- Renaming a directory to its own name does nothing. -/
  same : source = dest → ∀ q, lower.getattr q w' = lower.getattr q w
  /-- A directory cannot become a subdirectory of itself. -/
  notInside : source ≠ dest → ¬ Below source dest
  /-- An existing target is an empty directory. -/
  targetEmpty : source ≠ dest → ∀ q, Below dest q → (lower.getattr q w).1 ≠ 0
  /-- Nothing is left under the old name. -/
  gone : source ≠ dest → ∀ q, Under source q → (lower.getattr q w').1 ≠ 0
  /-- The subtree appears under the new name. -/
  moved : ∀ rest, rest ≠ [] →
    lower.getattr (dest ++ '/' :: rest) w' = lower.getattr (source ++ '/' :: rest) w

variable {σ ρ : Type} (config : MetadataCacheConfig) (policy : EvictionPolicy PathName ρ)
  (lower : LowerLayer σ)

/-- The state after a series of `getattr` requests, each with its clock readings. -/
def getattrAll : List (PathName × ℤ × ℤ) → LayerState σ ρ → LayerState σ ρ
  | [], s => s
  | (path, nowGet, nowPut) :: rest, s =>
    getattrAll rest (metadataCacheGetattr config policy lower path nowGet nowPut s).2

/-- Every cached entry holds the attributes that the layer below reports. -/
def Accurate (s : LayerState σ ρ) : Prop :=
  ∀ p m, s.cache.lookup p = some m → lower.getattr p s.world = (0, m.stbuf)

variable {config policy lower}

/-- `getattr` keeps an accurate cache accurate and the layer below as it is. -/
theorem Accurate.getattrAll (config : MetadataCacheConfig) (policy : EvictionPolicy PathName ρ)
    (requests : List (PathName × ℤ × ℤ)) {s : LayerState σ ρ} (h : Accurate lower s) :
    Accurate lower (getattrAll config policy lower requests s) ∧
      (MetadataCache.getattrAll config policy lower requests s).world = s.world := by
  induction requests generalizing s with
  | nil => exact ⟨h, rfl⟩
  | cons request rest ih =>
    obtain ⟨path, nowGet, nowPut⟩ := request
    have hnext : Accurate lower (metadataCacheGetattr config policy lower path nowGet nowPut s).2 := by
      intro p m hm
      rcases lookup_of_fetchThrough hm with hold | ⟨rfl, hzero, rfl, _⟩
      · exact h p m hold
      · exact Prod.ext hzero rfl
    exact ih hnext

/-- The answer for a path with no entry valid at the time is the layer below's. -/
theorem getattr_of_invalid {path : PathName} {nowGet nowPut : ℤ} {s : LayerState σ ρ}
    (h : ∀ m, s.cache.lookup path = some m → m.isValid config.timeOut nowGet = false) :
    (metadataCacheGetattr config policy lower path nowGet nowPut s).1 =
      lower.getattr path s.world := by
  simp [metadataCacheGetattr, fetchThrough_result, get_eq_none_of_invalid h]

/-- The answer for a path with a valid entry is that entry. -/
theorem getattr_of_valid {path : PathName} {nowGet nowPut : ℤ} {s : LayerState σ ρ}
    {m : Metadata} (hm : s.cache.lookup path = some m)
    (hvalid : m.isValid config.timeOut nowGet = true) :
    (metadataCacheGetattr config policy lower path nowGet nowPut s).1 = (0, m.stbuf) := by
  simp [metadataCacheGetattr, fetchThrough_result, get_eq_some_of_valid hm hvalid]

/-- The paths that `metadata_cache_rename` removes. -/
theorem removedPaths_rename (source dest : PathName) : (FsCall.rename source dest).removedPaths =
    source :: dest :: (removeParent source ++ removeParent dest) := by
  rw [FsCall.removedPaths, if_pos (by simp [FsCall.Stacked, FsCall.slot, metadataCacheHooks])]
  rfl

/-- A path below the old name is none of the four that the hook removes. -/
theorem not_mem_removedPaths {source dest q : PathName} (hq : Below source q)
    (hinside : ¬ Below source dest) : q ∉ (FsCall.rename source dest).removedPaths := by
  have hlength := hq.length_lt
  have hparent {p : PathName} (h : q ∈ removeParent p) : q = parentPath p := by
    by_cases hp : hasParentPath p = true
    · simpa [removeParent, hp] using h
    · simp [removeParent, hp] at h
  rw [removedPaths_rename]
  simp only [List.mem_cons, List.mem_append, not_or]
  refine ⟨?_, ?_, ?_, ?_⟩
  · rintro rfl
    omega
  · rintro rfl
    exact hinside hq
  · intro h
    have := (parentPath_isPrefix source).length_le
    rw [← hparent h] at this
    omega
  · intro h
    rw [hparent h] at hq
    exact hinside hq.of_parentPath

/-- **Directory rename under the metadata cache.** After a successful rename of a
directory, in any cache state reached by `getattr`, the layer answers as the layer
below for every path under the old or the new name exactly when the names are equal
or no entry for a path below the old name is still valid. -/
theorem rename_getattr_iff {source dest : PathName} {w : σ} {policyState : ρ}
    {requests : List (PathName × ℤ × ℤ)} {s s' : LayerState σ ρ} {result : CallResult}
    (hs : getattrAll config policy lower requests ⟨⟨∅, policyState⟩, w⟩ = s)
    (hcall : layerCall policy lower (.rename source dest) s = (result, s'))
    (hrenamed : DirectoryRenamed lower source dest w s'.world) (nowGet nowPut : ℤ) :
    (∀ q, Under source q ∨ Under dest q →
      (metadataCacheGetattr config policy lower q nowGet nowPut s').1 = lower.getattr q s'.world) ↔
    source = dest ∨ ∀ q m, Below source q → s.cache.lookup q = some m →
      m.isValid config.timeOut nowGet = false := by
  have hstart : Accurate lower (⟨⟨∅, policyState⟩, w⟩ : LayerState σ ρ) := by
    intro p m hm
    simp [Cache.lookup] at hm
  obtain ⟨haccurate, hworld⟩ := hstart.getattrAll config policy requests
  rw [hs] at haccurate hworld
  have hcache : s'.cache =
      removeAll policy (FsCall.rename source dest).removedPaths s.cache := by
    have h := congrArg (fun r => r.2.cache) hcall
    exact h.symm
  constructor
  · intro hall
    by_contra hnot
    simp only [not_or, not_forall] at hnot
    obtain ⟨hne, q, m, hbelow, hm, hvalid⟩ := hnot
    have hkept : s'.cache.lookup q = some m := by
      rw [hcache, lookup_removeAll (not_mem_removedPaths hbelow (hrenamed.notInside hne)), hm]
    have hanswer := hall q (Or.inl (Or.inr hbelow))
    rw [getattr_of_valid hkept (by simpa using hvalid)] at hanswer
    exact hrenamed.gone hne q (Or.inr hbelow) (congrArg Prod.fst hanswer).symm
  · intro hcondition q hq
    cases hlookup : s'.cache.lookup q with
    | none => exact getattr_of_invalid (by simp [hlookup])
    | some m =>
      rw [hcache] at hlookup
      obtain ⟨hremoved, hm⟩ := lookup_of_removeAll hlookup
      rw [← hcache] at hlookup
      have hcurrent := haccurate q m hm
      rw [hworld] at hcurrent
      rcases eq_or_ne source dest with heq | hne
      · -- Nothing moved, so an entry that is still there is still accurate.
        cases hvalid : m.isValid config.timeOut nowGet with
        | false =>
          exact getattr_of_invalid fun m' hm' => Option.some.inj (hlookup.symm.trans hm') ▸ hvalid
        | true => rw [getattr_of_valid hlookup hvalid, hrenamed.same heq, hcurrent]
      · rw [removedPaths_rename] at hremoved
        simp only [List.mem_cons, not_or] at hremoved
        have hbelow : Below source q := by
          rcases hq with (rfl | hbelow) | (rfl | hbelow)
          · exact absurd rfl hremoved.1
          · exact hbelow
          · exact absurd rfl hremoved.2.1
          · have := hrenamed.targetEmpty hne q hbelow
            simp [hcurrent] at this
        have hinvalid := hcondition.resolve_left hne q m hbelow hm
        exact getattr_of_invalid fun m' hm' => Option.some.inj (hlookup.symm.trans hm') ▸ hinvalid

/-- A layer below whose files are listed by path, with a `rename` that moves a subtree. -/
def listedFiles : LowerLayer (List (PathName × Stat)) where
  getattr path files := ((files.lookup path).map fun stbuf => (0, stbuf)).getD (-2, default)
  fgetattr path _ files := ((files.lookup path).map fun stbuf => (0, stbuf)).getD (-9, default)
  call
    | .rename source dest, files => (⟨0, none⟩, files.map fun (path, stbuf) =>
        (if path = source ∨ (source ++ ['/']).isPrefixOf path then dest ++ path.drop source.length
          else path, stbuf))
    | _, files => (⟨-95, none⟩, files)

/-- A directory with one file in it. -/
def directoryWithFile : List (PathName × Stat) :=
  [("/d".toList, { (default : Stat) with ino := 1 }),
    ("/d/f".toList, { (default : Stat) with ino := 2 })]

/-- Moving that directory meets the documentation of `rename(2)`. -/
theorem directoryRenamed_listedFiles : DirectoryRenamed listedFiles "/d".toList "/e".toList
    directoryWithFile (listedFiles.call (.rename "/d".toList "/e".toList) directoryWithFile).2 where
  same h := absurd h (by decide)
  notInside _ := by
    rintro ⟨rest, _, h⟩
    simp at h
  targetEmpty _ q := by
    rintro ⟨rest, _, rfl⟩
    simp [listedFiles, directoryWithFile, List.lookup_cons]
  gone _ q := by
    rintro (rfl | ⟨rest, _, rfl⟩)
    · decide
    · simp [listedFiles, directoryWithFile, List.lookup_cons]
  moved rest _ := by
    simp [listedFiles, directoryWithFile, List.lookup_cons]

/-- With only the directory itself cached, its rename leaves the answer for it right. -/
theorem rename_getattr_directory_cached :
    (metadataCacheGetattr {} lruEviction listedFiles "/d".toList 0 0
      (layerCall lruEviction listedFiles (.rename "/d".toList "/e".toList)
        (getattrAll {} lruEviction listedFiles [("/d".toList, 0, 0)]
          ⟨⟨∅, LruState.empty⟩, directoryWithFile⟩)).2).1 =
      listedFiles.getattr "/d".toList
        (listedFiles.call (.rename "/d".toList "/e".toList) directoryWithFile).2 := by
  refine (rename_getattr_iff rfl rfl directoryRenamed_listedFiles 0 0).mpr ?_ "/d".toList
    (Or.inl (Or.inl rfl))
  right
  intro q m hbelow hm
  simp only [getattrAll, metadataCacheGetattr] at hm
  rcases lookup_of_fetchThrough hm with hm | ⟨rfl, _⟩
  · simp [Cache.lookup] at hm
  · exact absurd hbelow.length_lt (Nat.lt_irrefl _)

/-- With a file of the directory cached, its old path still answers after the rename. -/
theorem not_rename_getattr : ¬ ∀ (σ ρ : Type) (config : MetadataCacheConfig)
    (policy : EvictionPolicy PathName ρ) (lower : LowerLayer σ) (source dest : PathName) (w : σ)
    (policyState : ρ) (requests : List (PathName × ℤ × ℤ)) (s s' : LayerState σ ρ)
    (result : CallResult), getattrAll config policy lower requests ⟨⟨∅, policyState⟩, w⟩ = s →
    layerCall policy lower (.rename source dest) s = (result, s') → result.res = 0 →
    DirectoryRenamed lower source dest w s'.world → ∀ nowGet nowPut q,
      Under source q ∨ Under dest q →
      (metadataCacheGetattr config policy lower q nowGet nowPut s').1 =
        lower.getattr q s'.world := by
  intro hall
  have hanswer := hall _ _ {} lruEviction listedFiles "/d".toList "/e".toList directoryWithFile
    LruState.empty [("/d/f".toList, 0, 0)] _ _ _ rfl rfl rfl directoryRenamed_listedFiles 0 0
    "/d/f".toList (Or.inl (Or.inr ⟨['f'], by simp, rfl⟩))
  exact absurd hanswer (by decide)

end RSafeFS.MetadataCache
