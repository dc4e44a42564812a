import RSafeFS.DataCache.Transparency

/-!
# Files and their names under the data cache

The data cache knows files by their paths. `create`, `unlink` and `rename` pass it by, so that
the blocks of a file stay in the cache when another file takes its path. They are used for the
other file if the two have the same modification time, and for no other reason: a read on an
open path delivers the bytes of the file that was opened, unless a usable block of its range
was fetched from another file.
-/

namespace RSafeFS.DataCache

open ByteFile

/-- A request that changes which file is at which path. -/
inductive NamespaceChange where
  | create (path : PathName) (mode : ℕ) (fi : FuseFileInfo)
  | unlink (path : PathName)
  | rename («from» «to» : PathName)

/-- A layer below on which files can also be made, removed and renamed. -/
structure NamespaceLayer (σ : Type) extends ReadLayer σ where
  create : PathName → ℕ → FuseFileInfo → σ → (ℤ × FuseFileInfo) × σ
  unlink : PathName → σ → ℤ × σ
  rename : PathName → PathName → σ → ℤ × σ

variable {σ ρ F : Type}

/-- The state below after a change, which reaches the layer below directly. -/
def NamespaceLayer.change (lower : NamespaceLayer σ) : NamespaceChange → σ → σ
  | .create path mode fi, w => (lower.create path mode fi w).2
  | .unlink path, w => (lower.unlink path w).2
  | .rename «from» «to», w => (lower.rename «from» «to» w).2

/-- The files below: the one at a path, the one that a handle is open on, and the contents and
the modification time of each, which nothing modifies. -/
structure Files (σ F : Type) where
  fileAt : σ → PathName → Option F
  handle : σ → ℕ → Option F
  content : F → Bytes
  mtime : F → Timespec

/-- What is required of the layer below. A read goes to the file that the handle is open on, and
fails if there is none. A handle stays open on its file until it is released, whatever becomes
of the file's name. -/
structure Files.Governs (files : Files σ F) (lower : NamespaceLayer σ) : Prop where
  read : ∀ path size offset fi w f, files.handle w fi.fh = some f →
    lower.read path size offset fi w =
      (((pread (files.content f) size offset).length : ℤ), pread (files.content f) size offset)
  badHandle : ∀ path size offset fi w, files.handle w fi.fh = none →
    (lower.read path size offset fi w).1 < 0
  getattr : ∀ path w, 0 ≤ (lower.getattr path w).1 →
    ∃ f, files.fileAt w path = some f ∧ (lower.getattr path w).2.mtim = files.mtime f
  openNames : ∀ path fi w, files.fileAt (lower.open path fi w).2 = files.fileAt w
  opened : ∀ path fi w, 0 ≤ (lower.open path fi w).1.1 →
    files.handle (lower.open path fi w).2 (lower.open path fi w).1.2.fh = files.fileAt w path
  openHandle : ∀ path fi w fh f, files.handle w fh = some f →
    files.handle (lower.open path fi w).2 fh = some f
  releaseNames : ∀ path fi w, files.fileAt (lower.release path fi w).2 = files.fileAt w
  releaseHandle : ∀ path fi w fh f, fh ≠ fi.fh → files.handle w fh = some f →
    files.handle (lower.release path fi w).2 fh = some f
  changeHandle : ∀ change w fh f, files.handle w fh = some f →
    files.handle (lower.change change w) fh = some f

/-- An open handle: the path that was opened, its number, and the file that was reached. -/
structure Opened (F : Type) where
  path : PathName
  fh : ℕ
  file : F

/-- A read through the cache, with the modification time recorded for its path and the file
that its handle is open on. -/
structure Fetch (F : Type) where
  path : PathName
  mtime : Timespec
  file : F

/-- One client above the cache. It notes the handles that are open on the file that is still at
their path, and the reads that have been made. -/
structure FileClient (σ ρ F : Type) where
  cache : Cache ρ
  world : σ
  opened : List (Opened F)
  fetches : List (Fetch F)

/-- The start of a run. -/
def FileClient.start (w : σ) (policyState : ρ) : FileClient σ ρ F := ⟨.empty policyState, w, [], []⟩

/-- A request of the client. -/
inductive FileAction where
  | «open» (path : PathName) (fi : FuseFileInfo)
  | read (path : PathName) (size offset : ℕ) (fi : FuseFileInfo) (clock : ℕ → ℤ × ℤ)
  | release (path : PathName) (fi : FuseFileInfo)
  | change (change : NamespaceChange)

variable [DecidableEq F] (config : DataCacheConfig) (policy : EvictionPolicy Key ρ)
  (lower : NamespaceLayer σ) (files : Files σ F)

/-- What a read may fetch from, if the path is recorded and the handle open. -/
def FileClient.fetch (s : FileClient σ ρ F) (path : PathName) (fi : FuseFileInfo) :
    List (Fetch F) :=
  match s.cache.mtimes.lookup path, files.handle s.world fi.fh with
  | some mtime, some file => [⟨path, mtime, file⟩]
  | _, _ => []

/-- One request. A run does not go on after undefined behaviour. -/
def FileClient.step (s : FileClient σ ρ F) : FileAction → Option (FileClient σ ρ F)
  | .open path fi =>
    let ((res, fi), c, w) := s.cache.open lower.toReadLayer path fi s.world
    let opened := if res < 0 then none else (files.fileAt w path).map (⟨path, fi.fh, ·⟩)
    some { s with cache := c, world := w, opened := opened.toList ++ s.opened }
  | .read path size offset fi clock =>
    match s.cache.read config policy lower.toReadLayer path size offset fi clock s.world with
    | some (.ret _ _, c) =>
      some { s with cache := c, fetches := s.fetch files path fi ++ s.fetches }
    | _ => none
  | .release path fi =>
    let (_, c, w) := s.cache.release lower.toReadLayer path fi s.world
    some { s with cache := c, world := w, opened := s.opened.filter fun o => o.fh ≠ fi.fh }
  | .change change =>
    let w := lower.change change s.world
    -- A handle stays as long as the change does not affect its path.
    some { s with
      world := w
      opened := s.opened.filter fun o => files.fileAt w o.path = some o.file }

/-- The block was fetched from the file, when its label was recorded for its path. -/
def FileClient.From (s : FileClient σ ρ F) (key : Key) (b : Block) (f : F) : Prop :=
  ⟨key.1, b.mtime, f⟩ ∈ s.fetches ∧ b.Holds config.blockSize key.2 (files.content f)

/-- A block of the requested range that carries the modification time of the file was fetched
from another file, and not from this one. -/
def FileClient.Foreign (s : FileClient σ ρ F) (path : PathName) (f : F) (size offset : ℕ) : Prop :=
  ∃ id b g, id * config.blockSize < offset + size ∧ offset < (id + 1) * config.blockSize ∧
    s.cache.cache.lookup (path, id) = some b ∧ b.mtime = files.mtime f ∧
    s.From config files (path, id) b g ∧ ¬ s.From config files (path, id) b f

/-- The invariant of a run. -/
structure FileClient.Invariant (s : FileClient σ ρ F) : Prop where
  blocks : AllBlocks (fun key b => ∃ f, s.From config files key b f) s.cache
  live : ∀ o ∈ s.opened, files.fileAt s.world o.path = some o.file ∧
    files.handle s.world o.fh = some o.file
  recorded : ∀ o ∈ s.opened, ∀ mtime, s.cache.mtimes.lookup o.path = some mtime →
    mtime = files.mtime o.file

variable {config policy lower files} {s t : FileClient σ ρ F}

/-- The layer below as requests with one handle see it. -/
def through (lower : ReadLayer σ) (fi : FuseFileInfo) : ReadLayer σ :=
  { lower with read := fun path size offset _ w => lower.read path size offset fi w }

omit [DecidableEq F] in
/-- Through an open handle the contents of its file are read. -/
theorem Files.Governs.reads (hgoverns : files.Governs lower) {fi : FuseFileInfo} {w : σ} {f : F}
    (hhandle : files.handle w fi.fh = some f) (path : PathName) :
    ReadsExactly (through lower.toReadLayer fi) path (files.content f) w :=
  fun size offset _ => hgoverns.read path size offset fi w f hhandle

section Steps

omit [DecidableEq F]

/-- The invariant stays when only the state below changes, and the open handles stay with it. -/
theorem FileClient.Invariant.below (h : s.Invariant config files) {w : σ}
    (hnames : ∀ o ∈ s.opened, files.fileAt w o.path = files.fileAt s.world o.path)
    (hhandles : ∀ o ∈ s.opened, files.handle s.world o.fh = some o.file →
      files.handle w o.fh = some o.file) :
    FileClient.Invariant config files { s with world := w } where
  blocks := h.blocks
  live o ho := ⟨(hnames o ho).trans (h.live o ho).1, hhandles o ho (h.live o ho).2⟩
  recorded := h.recorded

/-- The invariant stays when some of the handles are given up. -/
theorem FileClient.Invariant.close (h : s.Invariant config files) (p : Opened F → Bool) :
    FileClient.Invariant config files { s with opened := s.opened.filter p } where
  blocks := h.blocks
  live o ho := h.live o (List.mem_of_mem_filter ho)
  recorded o ho := h.recorded o (List.mem_of_mem_filter ho)

/-- A successful open records the modification time of the file that all handles of the path
are open on. -/
theorem FileClient.Invariant.record (h : s.Invariant config files) {path : PathName} {fh : ℕ}
    {f : F} (hname : files.fileAt s.world path = some f)
    (hhandle : files.handle s.world fh = some f) :
    FileClient.Invariant config files
      { s with
        cache := { s.cache with mtimes := s.cache.mtimes.insert path (files.mtime f) }
        opened := ⟨path, fh, f⟩ :: s.opened } where
  blocks := h.blocks
  live o ho := by
    rcases List.mem_cons.mp ho with rfl | ho
    · exact ⟨hname, hhandle⟩
    · exact h.live o ho
  recorded o ho mtime hmtime := by
    dsimp only at hmtime
    have hlive : files.fileAt s.world o.path = some o.file := by
      rcases List.mem_cons.mp ho with rfl | ho
      · exact hname
      · exact (h.live o ho).1
    by_cases hpath : o.path = path
    · rw [hpath, AList.lookup_insert] at hmtime
      rw [hpath, hname] at hlive
      rw [← Option.some.inj hmtime, Option.some.inj hlive]
    · rw [AList.lookup_insert_ne hpath] at hmtime
      rcases List.mem_cons.mp ho with rfl | ho
      · exact absurd rfl hpath
      · exact h.recorded o ho mtime hmtime

/-- A release forgets what was recorded for the path. -/
theorem FileClient.Invariant.forget (h : s.Invariant config files) (path : PathName) :
    FileClient.Invariant config files
      { s with cache := { s.cache with mtimes := s.cache.mtimes.erase path } } where
  blocks := h.blocks
  live := h.live
  recorded o ho mtime hmtime := by
    dsimp only at hmtime
    by_cases hpath : o.path = path
    · rw [hpath, AList.lookup_erase] at hmtime
      cases hmtime
    · rw [AList.lookup_erase_ne hpath] at hmtime
      exact h.recorded o ho mtime hmtime

/-- The block that a read through an open handle has filled was fetched from its file. -/
theorem from_filled (hgoverns : files.Governs lower) {path : PathName} {fi : FuseFileInfo} {f : F}
    (hhandle : files.handle s.world fi.fh = some f) {mtime : Timespec}
    (hmtime : s.cache.mtimes.lookup path = some mtime) {id : ℕ} {buf : Bytes}
    (hbuf : buf.length = config.blockSize) (now : ℤ) :
    FileClient.From config files { s with fetches := s.fetch files path fi ++ s.fetches } (path, id)
      (.filled lower.toReadLayer config path fi s.world mtime now buf (id * config.blockSize)) f := by
  refine ⟨List.mem_append_left _ ?_, ?_⟩
  · simp [FileClient.fetch, hmtime, hhandle, Block.filled]
  · exact @holds_filled σ config (through lower.toReadLayer fi) path fi s.world mtime _
      (hgoverns.reads hhandle path) id buf hbuf now

/-- A read keeps the invariant: what it fetches, it fetches from the file of its handle. -/
theorem FileClient.Invariant.read (hgoverns : files.Governs lower) (h : s.Invariant config files)
    {path : PathName} {size offset : ℕ} {fi : FuseFileInfo} {clock : ℕ → ℤ × ℤ} {outcome : Outcome}
    {c : Cache ρ} (hread : s.cache.read config policy lower.toReadLayer path size offset fi clock
      s.world = some (outcome, c)) :
    FileClient.Invariant config files
      { s with cache := c, fetches := s.fetch files path fi ++ s.fetches } := by
  have hopen {size offset : ℕ} (hres : 0 ≤ (lower.read path size offset fi s.world).1) :
      ∃ f, files.handle s.world fi.fh = some f := by
    cases hhandle : files.handle s.world fi.fh with
    | some f => exact ⟨f, rfl⟩
    | none => exact absurd hres (Int.not_le.mpr (hgoverns.badHandle path _ _ fi s.world hhandle))
  have hold : AllBlocks (fun key b => ∃ f, FileClient.From config files
      { s with fetches := s.fetch files path fi ++ s.fetches } key b f) s.cache := by
    intro key b hb
    obtain ⟨f, hfetch, hholds⟩ := h.blocks key b hb
    exact ⟨f, List.mem_append_right _ hfetch, hholds⟩
  obtain ⟨hblocks, hmtimes⟩ := read_keeps
    (fun mtime hmtime id b now hb hres => by
      obtain ⟨f, hhandle⟩ := hopen hres
      obtain ⟨_, _, hholds⟩ := hb
      rw [hholds.offset]
      exact ⟨f, from_filled hgoverns hhandle hmtime hholds.length now⟩)
    (fun mtime hmtime id now hres => by
      obtain ⟨f, hhandle⟩ := hopen (le_of_lt hres)
      exact ⟨f, from_filled hgoverns hhandle hmtime List.length_replicate now⟩)
    hold hread
  exact ⟨hblocks, h.live, fun o ho mtime hmtime => h.recorded o ho mtime (hmtimes ▸ hmtime)⟩

end Steps

/-- Every request keeps the invariant. -/
theorem FileClient.Invariant.step (hgoverns : files.Governs lower) (h : s.Invariant config files)
    {a : FileAction} (hstep : s.step config policy lower files a = some t) :
    t.Invariant config files := by
  cases a with
  | «open» path fi =>
    have hbelow := h.below (fun o _ => congrFun (hgoverns.openNames path fi s.world) o.path)
      fun o _ => hgoverns.openHandle path fi s.world o.fh o.file
    simp only [FileClient.step, Cache.open] at hstep
    obtain rfl := Option.some.inj hstep
    split
    · exact hbelow
    · next hres =>
      split
      · exact hbelow
      · next hattr =>
        obtain ⟨f, hname, hmtime⟩ := hgoverns.getattr path _ (Int.not_lt.mp hattr)
        have hhandle := hgoverns.opened path fi s.world (Int.not_lt.mp hres)
        rw [← hgoverns.openNames path fi s.world, hname] at hhandle
        simpa [hname, hmtime] using hbelow.record hname hhandle
  | read path size offset fi clock =>
    simp only [FileClient.step] at hstep
    split at hstep
    · next res buf c hread =>
      obtain rfl := Option.some.inj hstep
      exact h.read hgoverns hread
    · cases hstep
  | release path fi =>
    obtain rfl := Option.some.inj hstep
    have hclosed := h.close fun o => decide (o.fh ≠ fi.fh)
    refine (hclosed.below (fun o _ => congrFun (hgoverns.releaseNames path fi s.world) o.path)
      fun o ho => ?_).forget path
    have hne : o.fh ≠ fi.fh := by simpa using (List.mem_filter.mp ho).2
    exact hgoverns.releaseHandle path fi s.world o.fh o.file hne
  | change change =>
    obtain rfl := Option.some.inj hstep
    have hclosed := h.close fun o =>
      decide (files.fileAt (lower.change change s.world) o.path = some o.file)
    refine hclosed.below (fun o ho => ?_) fun o _ =>
      hgoverns.changeHandle change s.world o.fh o.file
    have hkept : files.fileAt (lower.change change s.world) o.path = some o.file := by
      simpa using (List.mem_filter.mp ho).2
    exact hkept.trans (hclosed.live o ho).1.symm

/-- Every run keeps the invariant. -/
theorem FileClient.Invariant.run (hgoverns : files.Governs lower) {w : σ} {policyState : ρ}
    {actions : List FileAction}
    (hrun : Transition.run (FileClient.step config policy lower files)
      (FileClient.start w policyState) actions = some s) : s.Invariant config files := by
  refine Transition.invariant_of_forall (I := FileClient.Invariant config files)
    (fun _ _ _ hs hstep => hs.step hgoverns hstep) hrun ⟨?_, ?_, ?_⟩
  · intro key b hb
    simp [FileClient.start, Cache.empty] at hb
  · intro o ho
    cases ho
  · intro o ho
    cases ho

/-- With blocks of no bytes, nothing is read through the cache. -/
theorem read_of_blockSize_eq_zero {lower : ReadLayer σ} {path : PathName} {size offset : ℕ}
    {fi : FuseFileInfo} {clock : ℕ → ℤ × ℤ} {w : σ} {c : Cache ρ} {mtime : Timespec}
    (hzero : config.blockSize = 0) (hsize : size ≠ 0) (hmtime : c.mtimes.lookup path = some mtime) :
    c.read config policy lower path size offset fi clock w = some (.undefined, c) := by
  have hne : ¬ 0 = size := fun h => hsize h.symm
  simp [Cache.read, hmtime, readLoop, Loop.run, readBody, hzero, hne]

/-- **Identity of files.** In every run, a read through an open handle of a path that is still
that of its file returns the bytes of this file, unless a usable block of its range was fetched
from another file. Only with a block size of zero it may not return. -/
theorem read_identity (hgoverns : files.Governs lower) {w : σ} {policyState : ρ}
    {actions : List FileAction}
    (hrun : Transition.run (FileClient.step config policy lower files)
      (FileClient.start w policyState) actions = some s)
    {o : Opened F} (hopened : o ∈ s.opened) {fi : FuseFileInfo} (hfi : fi.fh = o.fh)
    {size offset : ℕ} (hoffset : offset ≤ (files.content o.file).length)
    (hforeign : ¬ s.Foreign config files o.path o.file size offset) (clock : ℕ → ℤ × ℤ) :
    ∃ outcome c, s.cache.read config policy lower.toReadLayer o.path size offset fi clock s.world =
        some (outcome, c) ∧
      ((∃ res, outcome = .ret res (pread (files.content o.file) size offset)) ∨
        (outcome = .undefined ∧ config.blockSize = 0)) := by
  have hinv := FileClient.Invariant.run hgoverns hrun
  have hhandle : files.handle s.world fi.fh = some o.file := hfi ▸ (hinv.live o hopened).2
  have hreads := hgoverns.reads hhandle o.path
  cases hmtime : s.cache.mtimes.lookup o.path with
  | none =>
    refine ⟨.ret (pread (files.content o.file) size offset).length
      (pread (files.content o.file) size offset), s.cache, ?_, Or.inl ⟨_, rfl⟩⟩
    simp only [Cache.read, hmtime, hgoverns.read o.path size offset fi s.world o.file hhandle]
  | some mtime =>
    obtain rfl := hinv.recorded o hopened mtime hmtime
    rcases Nat.eq_zero_or_pos config.blockSize with hzero | hbs
    · by_cases hsize : size = 0
      · subst hsize
        refine ⟨.ret (toInt 0) [], s.cache, ?_, Or.inl ⟨_, by rw [pread_zero]⟩⟩
        simp only [Cache.read, hmtime]
        rfl
      · exact ⟨_, _, read_of_blockSize_eq_zero hzero hsize hmtime, Or.inr ⟨rfl, hzero⟩⟩
    · -- What is fetched during the read comes from the file, and what was cached before too.
      have hblocks : AllBlocks (fun key b =>
          (b.offset = key.2 * config.blockSize ∧ b.buf.length = config.blockSize) ∧
          (key.1 = o.path → key.2 * config.blockSize < offset + size →
            offset < (key.2 + 1) * config.blockSize → b.mtime = files.mtime o.file →
            b.Holds config.blockSize key.2 (files.content o.file))) s.cache := by
        rintro ⟨path, id⟩ b hb
        obtain ⟨g, hfrom⟩ := hinv.blocks _ b hb
        refine ⟨⟨hfrom.2.offset, hfrom.2.length⟩, ?_⟩
        rintro rfl hbelow habove hlabel
        by_contra hnot
        exact hforeign ⟨id, b, g, hbelow, habove, hb, hlabel, hfrom, fun hown => hnot hown.2⟩
      obtain ⟨c, hread⟩ := read_snapshot policy size fi clock hreads (fun id b hb => hb.1)
        (fun id b hholds _ _ => ⟨⟨hholds.offset, hholds.length⟩, fun _ _ _ _ => hholds⟩)
        (fun id b hbelow habove hb hlabel => hb.2 rfl hbelow habove hlabel) hbs hoffset hblocks
        hmtime
      exact ⟨_, c, hread, Or.inl ⟨_, rfl⟩⟩

/-- Files by their numbers: the one at each path, those of the handles given out so far, and how
many files there have been. -/
structure Disk where
  names : PathName → Option ℕ
  handles : List (Option ℕ)
  made : ℕ

/-- The first two files have two bytes each, those made later are empty. -/
def diskFiles (mtime : ℕ → Timespec) : Files Disk ℕ where
  fileAt d := d.names
  handle d fh := (d.handles[fh]?).join
  content
    | 0 => [1, 2]
    | 1 => [7, 8]
    | _ => []
  mtime := mtime

/-- The layer below that keeps them. -/
def diskLayer (mtime : ℕ → Timespec) : NamespaceLayer Disk where
  «open» path fi d :=
    match d.names path with
    | none => ((-2, fi), d)
    | some f => ((0, { fi with fh := d.handles.length }), { d with handles := d.handles ++ [some f] })
  getattr path d :=
    match d.names path with
    | none => (-2, default)
    | some f => (0, { (default : Stat) with mtim := mtime f })
  read _ size offset fi d :=
    match (diskFiles mtime).handle d fi.fh with
    | none => (-9, [])
    | some f =>
      ((pread ((diskFiles mtime).content f) size offset).length,
        pread ((diskFiles mtime).content f) size offset)
  release _ fi d := (0, { d with handles := d.handles.set fi.fh none })
  create path _ fi d :=
    match d.names path with
    | some _ => ((-17, fi), d)
    | none => ((0, { fi with fh := d.handles.length }),
        ⟨Function.update d.names path (some d.made), d.handles ++ [some d.made], d.made + 1⟩)
  unlink path d :=
    match d.names path with
    | none => (-2, d)
    | some _ => (0, { d with names := Function.update d.names path none })
  rename «from» «to» d :=
    match d.names «from» with
    | none => (-2, d)
    | some f =>
      (0, { d with names := Function.update (Function.update d.names «from» none) «to» (some f) })

/-- A handle stays open when others are given out. -/
theorem handle_stays {mtime : ℕ → Timespec} {d d' : Disk} {fh f : ℕ}
    (h : (diskFiles mtime).handle d fh = some f) (hmore : d.handles <+: d'.handles) :
    (diskFiles mtime).handle d' fh = some f := by
  obtain ⟨new, hnew⟩ := hmore
  obtain ⟨hlt, -⟩ := List.getElem?_eq_some_iff.mp (Option.join_eq_some_iff.mp h)
  simpa [diskFiles, ← hnew, List.getElem?_append_left hlt] using h

theorem diskFiles_governs (mtime : ℕ → Timespec) :
    (diskFiles mtime).Governs (diskLayer mtime) where
  read path size offset fi d f hhandle := by simp [diskLayer, hhandle]
  badHandle path size offset fi d hhandle := by simp [diskLayer, hhandle]
  getattr path d hres := by
    cases hname : d.names path with
    | none => simp [diskLayer, hname] at hres
    | some f => exact ⟨f, hname, by simp [diskLayer, diskFiles, hname]⟩
  openNames path fi d := by
    cases hname : d.names path <;> simp [diskLayer, diskFiles, hname]
  opened path fi d hres := by
    cases hname : d.names path with
    | none => simp [diskLayer, hname] at hres
    | some f => simp [diskLayer, diskFiles, hname]
  openHandle path fi d fh f hhandle := by
    refine handle_stays hhandle ?_
    cases hname : d.names path <;> simp [diskLayer, hname]
  releaseNames path fi d := rfl
  releaseHandle path fi d fh f hne hhandle := by
    have hset : (d.handles.set fi.fh none)[fh]? = d.handles[fh]? := List.getElem?_set_ne hne.symm
    simpa [diskLayer, diskFiles, hset] using hhandle
  changeHandle change d fh f hhandle := by
    refine handle_stays hhandle ?_
    cases change with
    | create path mode fi =>
      cases hname : d.names path <;> simp [NamespaceLayer.change, diskLayer, hname]
    | unlink path =>
      cases hname : d.names path <;> simp [NamespaceLayer.change, diskLayer, hname]
    | rename «from» «to» =>
      cases hname : d.names «from» <;> simp [NamespaceLayer.change, diskLayer, hname]

/-- Files 0 and 1 at the paths `/a` and `/b`. -/
def twoNames : Disk where
  names := Function.update (Function.update (fun _ => none) "/a".toList (some 0)) "/b".toList (some 1)
  handles := []
  made := 2

/-- `/a` is read, and the file at `/b` takes its path and is opened. -/
def replaceAndOpen : List FileAction :=
  [.open "/a".toList default, .read "/a".toList 2 0 default fun _ => (0, 0),
    .release "/a".toList default, .change (.rename "/b".toList "/a".toList),
    .open "/a".toList default]

/-- A file that replaces another one with an earlier modification time is read itself. -/
theorem read_identity_replaced :
    ∃ s, Transition.run (FileClient.step { blockSize := 4 } lruEviction
        (diskLayer fun f => ⟨f, 0⟩) (diskFiles fun f => ⟨f, 0⟩))
        (FileClient.start twoNames LruState.empty) replaceAndOpen = some s ∧
      ∃ outcome c, s.cache.read { blockSize := 4 } lruEviction
          (diskLayer fun f => ⟨f, 0⟩).toReadLayer "/a".toList 2 0
          { (default : FuseFileInfo) with fh := 1 } (fun _ => (0, 0)) s.world = some (outcome, c) ∧
        ((∃ res, outcome = .ret res [7, 8]) ∨
          (outcome = .undefined ∧ ({ blockSize := 4 } : DataCacheConfig).blockSize = 0)) := by
  obtain ⟨s, hrun, hopened, hentries⟩ : ∃ s, Transition.run (FileClient.step { blockSize := 4 }
      lruEviction (diskLayer fun f => ⟨f, 0⟩) (diskFiles fun f => ⟨f, 0⟩))
      (FileClient.start twoNames LruState.empty) replaceAndOpen = some s ∧
      s.opened = [⟨"/a".toList, 1, 1⟩] ∧
      s.cache.cache.entries = [⟨("/a".toList, 0), ⟨[1, 2, 0, 0], 2, 0, 0, ⟨0, 0⟩⟩⟩] :=
    ⟨_, rfl, rfl, rfl⟩
  have hmem : (⟨"/a".toList, 1, 1⟩ : Opened ℕ) ∈ s.opened := hopened ▸ List.mem_cons_self
  have hfi : ({ (default : FuseFileInfo) with fh := 1 } : FuseFileInfo).fh = 1 := rfl
  refine ⟨s, hrun, read_identity (diskFiles_governs _) hrun hmem hfi (Nat.zero_le _) ?_ _⟩
  rintro ⟨id, b, g, -, -, hb, hlabel, -⟩
  have hmem := AList.mem_lookup_iff.mp hb
  rw [hentries, List.mem_singleton] at hmem
  cases hmem
  cases hlabel

/-- A file that replaces another one with the same modification time: the bytes of the other
one are read. -/
theorem not_read_identity : ¬ ∀ (σ ρ F : Type) [DecidableEq F] (config : DataCacheConfig)
    (policy : EvictionPolicy Key ρ) (lower : NamespaceLayer σ) (files : Files σ F) (w : σ)
    (policyState : ρ) (actions : List FileAction) (s : FileClient σ ρ F),
    files.Governs lower →
    Transition.run (FileClient.step config policy lower files) (FileClient.start w policyState)
      actions = some s →
    ∀ o ∈ s.opened, ∀ (fi : FuseFileInfo) (size offset : ℕ) (clock : ℕ → ℤ × ℤ) (res : ℤ)
      (buf : Bytes) (c : Cache ρ), fi.fh = o.fh → offset ≤ (files.content o.file).length →
      s.cache.read config policy lower.toReadLayer o.path size offset fi clock s.world =
        some (.ret res buf, c) →
      buf = pread (files.content o.file) size offset := by
  intro hall
  obtain ⟨s, res, c, hrun, hopened, hread⟩ : ∃ s res c, Transition.run
      (FileClient.step { blockSize := 4 } lruEviction (diskLayer fun _ => default)
        (diskFiles fun _ => default))
      (FileClient.start twoNames LruState.empty) replaceAndOpen = some s ∧
      s.opened = [⟨"/a".toList, 1, 1⟩] ∧
      s.cache.read { blockSize := 4 } lruEviction (diskLayer fun _ => default).toReadLayer
        "/a".toList 2 0 { (default : FuseFileInfo) with fh := 1 } (fun _ => (0, 0)) s.world =
          some (.ret res [1, 2], c) := ⟨_, _, _, rfl, rfl, rfl⟩
  have hmem : (⟨"/a".toList, 1, 1⟩ : Opened ℕ) ∈ s.opened := hopened ▸ List.mem_cons_self
  have hbytes := hall Disk _ ℕ { blockSize := 4 } lruEviction _ _ twoNames LruState.empty
    replaceAndOpen s (diskFiles_governs _) hrun _ hmem _ 2 0 _ res [1, 2] c rfl (Nat.zero_le _) hread
  cases hbytes

end RSafeFS.DataCache
