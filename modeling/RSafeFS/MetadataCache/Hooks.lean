import RSafeFS.MetadataCache.Cache
import RSafeFS.PathName
import RSafeFS.Config.Stack

/-!
# The hooks of the metadata cache layer

`metadata_cache_getattr` and `metadata_cache_fgetattr` answer from the cache or
fill it. Every other hook removes the entries its operation may outdate and then
forwards to the layer below. The layer is taken as installed with exactly the hooks
that its `init_layer` names; all other operations reach the layer below directly.
-/

namespace RSafeFS.MetadataCache

/-- The requests other than `getattr` and `fgetattr` that a client sends, with the
arguments of the `fuse_operations` functions. -/
inductive FsCall where
  | mknod (path : PathName) (mode rdev : ℕ)
  | mkdir (path : PathName) (mode : ℕ)
  | symlink (source dest : PathName)
  | unlink (path : PathName)
  | rmdir (path : PathName)
  | rename (source dest : PathName)
  | link (source dest : PathName)
  | chmod (path : PathName) (mode : ℕ)
  | chown (path : PathName) (uid gid : ℕ)
  | truncate (path : PathName) (size : ℤ)
  | ftruncate (path : PathName) (size : ℤ) (fi : FuseFileInfo)
  | utimens (path : PathName) (atime mtime : Timespec)
  | create (path : PathName) (mode : ℕ) (fi : FuseFileInfo)
  | «open» (path : PathName) (fi : FuseFileInfo)
  | write (path : PathName) (buf : Bytes) (offset : ℤ) (fi : FuseFileInfo)
  | flush (path : PathName) (fi : FuseFileInfo)
  | release (path : PathName) (fi : FuseFileInfo)
  | fsync (path : PathName) (isdatasync : ℤ) (fi : FuseFileInfo)
  deriving DecidableEq, Repr

/-- The slot of `fuse_operations` that a request goes through. -/
def FsCall.slot : FsCall → Op
  | .mknod .. => .mknod
  | .mkdir .. => .mkdir
  | .symlink .. => .symlink
  | .unlink .. => .unlink
  | .rmdir .. => .rmdir
  | .rename .. => .rename
  | .link .. => .link
  | .chmod .. => .chmod
  | .chown .. => .chown
  | .truncate .. => .truncate
  | .ftruncate .. => .ftruncate
  | .utimens .. => .utimens
  | .create .. => .create
  | .open .. => .open
  | .write .. => .write
  | .flush .. => .flush
  | .release .. => .release
  | .fsync .. => .fsync

/-- What a request returns: the result and, for an operation with a handle, the
`fuse_file_info` it leaves. -/
structure CallResult where
  res : ℤ
  fi : Option FuseFileInfo := none
  deriving DecidableEq, Repr

/-- The layer below, acting on a state of its own. Reading attributes leaves that
state as it is. The pair of `getattr` is the result and the buffer it fills. -/
structure LowerLayer (σ : Type) where
  getattr : PathName → σ → ℤ × Stat
  fgetattr : PathName → FuseFileInfo → σ → ℤ × Stat
  call : FsCall → σ → CallResult × σ

/-- A hook that removes entries and forwards its request. -/
structure Hook where
  removed : List PathName
  forward : FsCall

/-- `if (p.has_parent_path()) cache->remove(p.parent_path())`. -/
def removeParent (p : PathName) : List PathName := if hasParentPath p then [parentPath p] else []

/-- `metadata_cache_mknod`. -/
def metadataCacheMknod (path : PathName) (mode rdev : ℕ) : Hook :=
  ⟨path :: removeParent path, .mknod path mode rdev⟩

/-- `metadata_cache_mkdir`. -/
def metadataCacheMkdir (path : PathName) (mode : ℕ) : Hook :=
  ⟨path :: removeParent path, .mkdir path mode⟩

/-- `metadata_cache_symlink`. -/
def metadataCacheSymlink (source dest : PathName) : Hook :=
  ⟨source :: dest :: removeParent dest, .symlink source dest⟩

/-- `metadata_cache_unlink`. -/
def metadataCacheUnlink (path : PathName) : Hook := ⟨path :: removeParent path, .unlink path⟩

/-- `metadata_cache_rmdir`. -/
def metadataCacheRmdir (path : PathName) : Hook := ⟨path :: removeParent path, .rmdir path⟩

/-- `metadata_cache_rename`. -/
def metadataCacheRename (source dest : PathName) : Hook :=
  ⟨source :: dest :: (removeParent source ++ removeParent dest), .rename source dest⟩

/-- `metadata_cache_link`. -/
def metadataCacheLink (source dest : PathName) : Hook :=
  ⟨source :: dest :: removeParent dest, .link source dest⟩

/-- `metadata_cache_chmod`. -/
def metadataCacheChmod (path : PathName) (mode : ℕ) : Hook := ⟨[path], .chmod path mode⟩

/-- `metadata_cache_chown`. -/
def metadataCacheChown (path : PathName) (uid gid : ℕ) : Hook := ⟨[path], .chown path uid gid⟩

/-- `metadata_cache_truncate`. -/
def metadataCacheTruncate (path : PathName) (size : ℤ) : Hook := ⟨[path], .truncate path size⟩

/-- `metadata_cache_ftruncate`. -/
def metadataCacheFtruncate (path : PathName) (size : ℤ) (fi : FuseFileInfo) : Hook :=
  ⟨[path], .ftruncate path size fi⟩

/-- `metadata_cache_utimens`, which the source defines and never stacks. -/
def metadataCacheUtimens (path : PathName) (atime mtime : Timespec) : Hook :=
  ⟨[path], .utimens path atime mtime⟩

/-- `metadata_cache_create`. -/
def metadataCacheCreate (path : PathName) (mode : ℕ) (fi : FuseFileInfo) : Hook :=
  ⟨path :: removeParent path, .create path mode fi⟩

/-- `metadata_cache_open`. -/
def metadataCacheOpen (path : PathName) (fi : FuseFileInfo) : Hook := ⟨[path], .open path fi⟩

/-- `metadata_cache_flush`. -/
def metadataCacheFlush (path : PathName) (fi : FuseFileInfo) : Hook := ⟨[path], .flush path fi⟩

/-- `metadata_cache_release`. -/
def metadataCacheRelease (path : PathName) (fi : FuseFileInfo) : Hook := ⟨[path], .release path fi⟩

/-- `metadata_cache_fsync`. -/
def metadataCacheFsync (path : PathName) (isdatasync : ℤ) (fi : FuseFileInfo) : Hook :=
  ⟨[path], .fsync path isdatasync fi⟩

/-- The hook the source defines for a request, stacked or not. There is none for `write`. -/
def FsCall.hook : FsCall → Option Hook
  | .mknod path mode rdev => some (metadataCacheMknod path mode rdev)
  | .mkdir path mode => some (metadataCacheMkdir path mode)
  | .symlink source dest => some (metadataCacheSymlink source dest)
  | .unlink path => some (metadataCacheUnlink path)
  | .rmdir path => some (metadataCacheRmdir path)
  | .rename source dest => some (metadataCacheRename source dest)
  | .link source dest => some (metadataCacheLink source dest)
  | .chmod path mode => some (metadataCacheChmod path mode)
  | .chown path uid gid => some (metadataCacheChown path uid gid)
  | .truncate path size => some (metadataCacheTruncate path size)
  | .ftruncate path size fi => some (metadataCacheFtruncate path size fi)
  | .utimens path atime mtime => some (metadataCacheUtimens path atime mtime)
  | .create path mode fi => some (metadataCacheCreate path mode fi)
  | .open path fi => some (metadataCacheOpen path fi)
  | .write .. => none
  | .flush path fi => some (metadataCacheFlush path fi)
  | .release path fi => some (metadataCacheRelease path fi)
  | .fsync path isdatasync fi => some (metadataCacheFsync path isdatasync fi)

/-- The request's slot is one that `init_layer` stacks. -/
def FsCall.Stacked (call : FsCall) : Prop := call.slot ∈ metadataCacheHooks.map Prod.fst

instance (call : FsCall) : Decidable call.Stacked := inferInstanceAs (Decidable (_ ∈ _))

/-- The entries that a request removes on its way through the layer. -/
def FsCall.removedPaths (call : FsCall) : List PathName :=
  if call.Stacked then (call.hook.map Hook.removed).getD [] else []

/-- The cache together with the state of the layer below. -/
structure LayerState (σ ρ : Type) where
  cache : Cache ρ
  world : σ

variable {σ ρ : Type} (config : MetadataCacheConfig) (policy : EvictionPolicy PathName ρ)
  (lower : LowerLayer σ)

/-- The `cache->remove` calls of a hook. -/
def removeAll (paths : List PathName) (c : Cache ρ) : Cache ρ :=
  paths.foldl (fun c path => c.remove policy path) c

/-- A request through the layer: its hook's removals, then the layer below. -/
def layerCall (call : FsCall) (s : LayerState σ ρ) : CallResult × LayerState σ ρ :=
  let cache := removeAll policy call.removedPaths s.cache
  let (result, world) := lower.call call s.world
  (result, ⟨cache, world⟩)

/-- The common body of `metadata_cache_getattr` and `metadata_cache_fgetattr`, given
what the layer below answers. The clock is read once by `get` and once by `put`. -/
def fetchThrough (fetched : ℤ × Stat) (path : PathName) (nowGet nowPut : ℤ) (c : Cache ρ) :
    (ℤ × Stat) × Cache ρ :=
  match c.get config policy path nowGet with
  | (some stbuf, c) => ((0, stbuf), c)
  | (none, c) =>
    if fetched.1 = 0 then (fetched, c.put config policy path fetched.2 nowPut) else (fetched, c)

/-- `metadata_cache_getattr`. -/
def metadataCacheGetattr (path : PathName) (nowGet nowPut : ℤ) (s : LayerState σ ρ) :
    (ℤ × Stat) × LayerState σ ρ :=
  let (result, cache) :=
    fetchThrough config policy (lower.getattr path s.world) path nowGet nowPut s.cache
  (result, { s with cache })

/-- `metadata_cache_fgetattr`. -/
def metadataCacheFgetattr (path : PathName) (fi : FuseFileInfo) (nowGet nowPut : ℤ)
    (s : LayerState σ ρ) : (ℤ × Stat) × LayerState σ ρ :=
  let (result, cache) :=
    fetchThrough config policy (lower.fgetattr path fi s.world) path nowGet nowPut s.cache
  (result, { s with cache })

variable {config policy lower}

/-- A run of removals loses the named paths and keeps the other entries. -/
theorem lookup_of_removeAll {paths : List PathName} {q : PathName} {c : Cache ρ} {m : Metadata}
    (h : (removeAll policy paths c).lookup q = some m) : q ∉ paths ∧ c.lookup q = some m := by
  induction paths generalizing c with
  | nil => exact ⟨List.not_mem_nil, h⟩
  | cons path paths ih =>
    obtain ⟨hpaths, hrest⟩ := ih h
    obtain ⟨hpath, hc⟩ := lookup_of_remove hrest
    exact ⟨by simp [hpath, hpaths], hc⟩

/-- A path that no removal names keeps its entry. -/
theorem lookup_removeAll {paths : List PathName} {q : PathName} (hq : q ∉ paths) (c : Cache ρ) :
    (removeAll policy paths c).lookup q = c.lookup q := by
  induction paths generalizing c with
  | nil => rfl
  | cons path paths ih =>
    simp only [List.mem_cons, not_or] at hq
    exact (ih hq.2 _).trans (lookup_remove_ne hq.1 c)

/-- The answer of a fetch is the cached one on a hit and the fetched one otherwise. -/
theorem fetchThrough_result (fetched : ℤ × Stat) (path : PathName) (nowGet nowPut : ℤ)
    (c : Cache ρ) :
    (fetchThrough config policy fetched path nowGet nowPut c).1 =
      ((c.get config policy path nowGet).1.map fun stbuf => (0, stbuf)).getD fetched := by
  unfold fetchThrough
  split
  · next h => simp [h]
  · next h => split <;> simp [h]

/-- An entry found after a fetch was there before, or is the one just fetched for a
path that had none left. -/
theorem lookup_of_fetchThrough {fetched : ℤ × Stat} {path q : PathName} {nowGet nowPut : ℤ}
    {c : Cache ρ} {m : Metadata}
    (h : (fetchThrough config policy fetched path nowGet nowPut c).2.lookup q = some m) :
    c.lookup q = some m ∨
      (q = path ∧ fetched.1 = 0 ∧ m = ⟨fetched.2, nowPut⟩ ∧
        (c.get config policy path nowGet).1 = none) := by
  unfold fetchThrough at h
  split at h
  · next stbuf c' hget =>
    have hc' : (c.get config policy path nowGet).2 = c' := by rw [hget]
    rw [← hc'] at h
    exact Or.inl (lookup_of_get h)
  · next c' hget =>
    have hc' : (c.get config policy path nowGet).2 = c' := by rw [hget]
    rw [← hc'] at h
    split at h
    · next hzero =>
      rcases lookup_of_put h with h | ⟨hq, hm⟩
      · exact Or.inl (lookup_of_get h)
      · exact Or.inr ⟨hq, hzero, hm, by rw [hget]⟩
    · exact Or.inl (lookup_of_get h)

end RSafeFS.MetadataCache
