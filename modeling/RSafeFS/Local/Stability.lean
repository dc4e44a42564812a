import RSafeFS.Local.NfsOperations

/-!
# What the NFS-like operations leave behind

An operation that changes the namespace makes the change with its first call and then syncs
the directories that it has changed. On success these are on stable storage. When a sync
fails the change is not undone, but every descriptor that was opened for it is closed.
-/

namespace RSafeFS.Local

open Rpc Trace

variable {env : Env} {rootPath : CString}

/-- What `sync_path` records, with its result. -/
inductive SyncEvents (path : CString) : Int32 → List Event → Prop
  | openFailed (e : Errno) : SyncEvents path e.result [⟨.open path rdonly none, .error e⟩]
  | fsyncFailed (fd : Fd) (e : Errno) (closed : Except Errno Unit) :
      SyncEvents path e.result
        [⟨.open path rdonly none, .ok fd⟩, ⟨.fsync fd.val, .error e⟩, ⟨.close fd.val, closed⟩]
  | closeFailed (fd : Fd) (e : Errno) :
      SyncEvents path e.result
        [⟨.open path rdonly none, .ok fd⟩, ⟨.fsync fd.val, .ok ()⟩, ⟨.close fd.val, .error e⟩]
  | synced (fd : Fd) :
      SyncEvents path 0
        [⟨.open path rdonly none, .ok fd⟩, ⟨.fsync fd.val, .ok ()⟩, ⟨.close fd.val, .ok ()⟩]

theorem syncPath_yields (path : CString) : Yields (syncPath env path) (SyncEvents path) := by
  refine yields_call_bind fun opened => ?_
  cases opened with
  | error e => exact yields_pure (.openFailed e)
  | ok fd =>
    refine yields_call_bind fun synced => ?_
    cases synced with
    | error e =>
      exact yields_call_bind fun closed => yields_pure (.fsyncFailed fd e closed)
    | ok _ =>
      refine yields_call_bind fun closed => ?_
      cases closed with
      | error e => exact yields_pure (.closeFailed fd e)
      | ok _ => exact yields_pure (.synced fd)

/-- The call can change which names there are. -/
def Syscall.changesNames : Syscall → Bool
  | .mkfifo .. | .mknod .. | .mkdir .. | .unlink _ | .rmdir _ | .symlink .. | .rename ..
  | .link .. => true
  | .open _ flags _ => flags &&& creat != 0
  | _ => false

/-- The descriptor that a call has opened. -/
def openedBy : Event → Option Fd
  | ⟨.open .., .ok fd⟩ => some fd
  | _ => none

/-- On every descriptor that a call has opened `close` is called later. -/
def Closes : List Event → Prop
  | [] => True
  | event :: events =>
    (∀ fd, openedBy event = some fd → ∃ later ∈ events, later.call = .close fd.val) ∧
      Closes events

/-- Calls in a row close what each of them opens. -/
theorem Closes.append {first second : List Event} (h : Closes first) (h' : Closes second) :
    Closes (first ++ second) := by
  induction first with
  | nil => exact h'
  | cons event first ih =>
    refine ⟨fun fd hfd => ?_, ih h.2⟩
    obtain ⟨later, hmem, hclose⟩ := h.1 fd hfd
    exact ⟨later, List.mem_append_left _ hmem, hclose⟩

/-- The path was opened and synced through its descriptor. -/
def SyncedIn (path : CString) (events : List Event) : Prop :=
  ∃ before fd after, events =
    before ++ ⟨.open path rdonly none, .ok fd⟩ :: ⟨.fsync fd.val, .ok ()⟩ :: after

theorem SyncedIn.append_right {path : CString} {events : List Event} (h : SyncedIn path events)
    (rest : List Event) : SyncedIn path (events ++ rest) := by
  obtain ⟨before, fd, after, rfl⟩ := h
  exact ⟨before, fd, after ++ rest, by simp⟩

theorem SyncedIn.append_left {path : CString} {events : List Event} (h : SyncedIn path events)
    (first : List Event) : SyncedIn path (first ++ events) := by
  obtain ⟨before, fd, after, rfl⟩ := h
  exact ⟨first ++ before, fd, after, by simp⟩

/-- What a row of syncs leaves behind. -/
structure Syncs (paths : List CString) (res : Int32) (events : List Event) : Prop where
  closes : Closes events
  quiet : ∀ event ∈ events, event.call.changesNames = false
  synced : 0 ≤ res → res = 0 ∧ ∀ path ∈ paths, SyncedIn path events

theorem SyncEvents.syncs {path : CString} {res : Int32} {events : List Event}
    (h : SyncEvents path res events) : Syncs [path] res events := by
  have hopened (fd : Fd) (synced closed : Except Errno Unit) :
      Closes [⟨.open path rdonly none, .ok fd⟩, ⟨.fsync fd.val, synced⟩,
        ⟨.close fd.val, closed⟩] := by
    simp [Closes, openedBy]
  cases h with
  | openFailed e =>
    refine ⟨by simp [Closes, openedBy], by simp [Syscall.changesNames, rdonly], fun h => ?_⟩
    exact absurd h e.not_nonneg
  | fsyncFailed fd e closed =>
    refine ⟨hopened fd _ closed, by simp [Syscall.changesNames, rdonly], fun h => ?_⟩
    exact absurd h e.not_nonneg
  | closeFailed fd e =>
    refine ⟨hopened fd _ _, by simp [Syscall.changesNames, rdonly], fun h => ?_⟩
    exact absurd h e.not_nonneg
  | synced fd =>
    refine ⟨hopened fd _ _, by simp [Syscall.changesNames, rdonly], fun _ => ⟨rfl, ?_⟩⟩
    intro path' hpath
    rw [List.mem_singleton.mp hpath]
    exact ⟨[], fd, [⟨.close fd.val, .ok ()⟩], rfl⟩

/-- **A row of syncs.** Each path is synced, or the first that could not be ends the row. -/
theorem syncPaths_yields (paths : List CString) : Yields (syncPaths env paths) (Syncs paths) := by
  induction paths with
  | nil => exact yields_pure ⟨trivial, by simp, fun _ => ⟨rfl, by simp⟩⟩
  | cons path paths ih =>
    refine (syncPath_yields path).bind fun res first hfirst => ?_
    have hfirst := hfirst.syncs
    by_cases hneg : res < 0
    · rw [if_pos hneg]
      refine yields_pure ?_
      rw [List.append_nil]
      exact ⟨hfirst.closes, hfirst.quiet, fun h => absurd h (Int32.not_le.mpr hneg)⟩
    · rw [if_neg hneg]
      refine ih.mono fun res' second hsecond => ⟨?_, ?_, fun h => ?_⟩
      · exact hfirst.closes.append hsecond.closes
      · intro event hevent
        rcases List.mem_append.mp hevent with hevent | hevent
        · exact hfirst.quiet event hevent
        · exact hsecond.quiet event hevent
      · obtain ⟨hzero, hpaths⟩ := hsecond.synced h
        refine ⟨hzero, fun path' hpath' => ?_⟩
        rcases List.mem_cons.mp hpath' with rfl | hmem
        · have hsynced := (hfirst.synced (Int32.not_lt.mp hneg)).2 path' List.mem_cons_self
          exact hsynced.append_right second
        · exact (hpaths path' hmem).append_left first

/-- A part of a path between separators. -/
structure Component where
  bytes : Bytes
  ne_nil : bytes ≠ []
  slash_notMem : slash ∉ bytes
  nul_notMem : 0 ∉ bytes

/-- The normalised absolute path of an entry of a directory. The exported root itself is an
entry of none that is exported. -/
structure EntryPath where
  parent : List Component
  name : Component

/-- The bytes up to the last separator, which stand for the directory of the entry. -/
def EntryPath.directory (path : EntryPath) : Bytes :=
  path.parent.flatMap (fun c => slash :: c.bytes) ++ [slash]

/-- The path as an argument. -/
def EntryPath.path (path : EntryPath) : CString where
  bytes := path.directory ++ path.name.bytes
  nul_notMem h := by
    simp only [EntryPath.directory, List.mem_append, List.mem_flatMap, List.mem_cons,
      List.not_mem_nil, or_false] at h
    rcases h with (⟨c, -, h | h⟩ | h) | h
    · exact absurd h (by decide)
    · exact c.nul_notMem h
    · exact absurd h (by decide)
    · exact path.name.nul_notMem h

/-- Paths that differ in the number of separators they end in name the same directory. -/
def SamePlace (p q : Bytes) : Prop :=
  ∃ base i j, p = base ++ List.replicate i slash ∧ q = base ++ List.replicate j slash ∧
    (base = [] → 0 < i ∧ 0 < j)

/-- `parent_path` of an entry names its directory. -/
theorem parentBytes_samePlace (directory : Bytes) (name : Component) :
    SamePlace (parentBytes (directory ++ [slash] ++ name.bytes)) (directory ++ [slash]) := by
  -- The directory is a base and the separators behind it.
  let base := ((directory ++ [slash]).reverse.dropWhile (· == slash)).reverse
  let trailing := ((directory ++ [slash]).reverse.takeWhile (· == slash)).reverse
  have hsplit : directory ++ [slash] = base ++ trailing := by
    rw [← List.reverse_append, List.takeWhile_append_dropWhile, List.reverse_reverse]
  have hslash : ∀ b ∈ trailing, (b == slash) = true :=
    fun b hb => List.mem_takeWhile_imp (p := (· == slash)) (List.mem_reverse.mp hb)
  have htrailing : trailing = List.replicate trailing.length slash :=
    List.eq_replicate_iff.mpr ⟨rfl, fun b hb => by simpa using hslash b hb⟩
  have hpos : 0 < trailing.length := by simp [trailing]
  have hname : ∀ b ∈ name.bytes.reverse, (b != slash) = true := by
    intro b hb
    rw [bne_iff_ne]
    rintro rfl
    exact name.slash_notMem (List.mem_reverse.mp hb)
  have hbase : (((directory ++ [slash] ++ name.bytes).reverse.dropWhile (· != slash)).dropWhile
      (· == slash)).reverse = base := by
    rw [List.reverse_append, List.dropWhile_append_of_pos hname]
    simp [base]
  unfold parentBytes
  dsimp only
  rw [hbase]
  by_cases hempty : base = []
  · rw [if_pos hempty]
    refine ⟨[], trailing.length, trailing.length, ?_, ?_, fun _ => ⟨hpos, hpos⟩⟩
    · have hnone : name.bytes.takeWhile (· == slash) = [] := by
        cases hbytes : name.bytes with
        | nil => exact absurd hbytes name.ne_nil
        | cons b rest =>
          have hb : b ≠ slash := fun h => name.slash_notMem (by simp [hbytes, h])
          simp [hb]
      rw [hsplit, hempty, List.nil_append, List.nil_append, List.takeWhile_append_of_pos hslash,
        hnone, List.append_nil]
      exact htrailing
    · rw [List.nil_append, ← htrailing, hsplit, hempty, List.nil_append]
  · rw [if_neg hempty]
    refine ⟨base, 0, trailing.length, by simp, ?_, fun h => absurd h hempty⟩
    rw [← htrailing]
    exact hsplit

/-- An operation that changes the namespace, with its arguments. The path that a symbolic link
contains may be any string. -/
inductive NamespaceOp (Path : Type) where
  | mknod (path : Path) (mode : UInt32) (rdev : UInt64)
  | mkdir (path : Path) (mode : UInt32)
  | unlink (path : Path)
  | rmdir (path : Path)
  | symlink («from» : CString) («to» : Path)
  | rename («from» «to» : Path)
  | link («from» «to» : Path)
  | create (path : Path) (mode : UInt32) (fi : Rpc.FuseFileInfo)

namespace NamespaceOp

/-- The operation of the NFS-like table. -/
def run (env : Env) (rootPath : CString) : NamespaceOp CString → M Int32
  | .mknod path mode rdev => nfsMknod env rootPath path mode rdev
  | .mkdir path mode => nfsMkdir env rootPath path mode
  | .unlink path => nfsUnlink env rootPath path
  | .rmdir path => nfsRmdir env rootPath path
  | .symlink «from» «to» => nfsSymlink env rootPath «from» «to»
  | .rename «from» «to» => nfsRename env rootPath «from» «to»
  | .link «from» «to» => nfsLink env rootPath «from» «to»
  | .create path mode fi => Prod.fst <$> nfsCreate env rootPath path mode fi

/-- The call that changes the namespace. -/
def change (rootPath : CString) : NamespaceOp CString → Syscall
  | .mknod path mode rdev =>
    if isFifo mode then .mkfifo (newPath rootPath path) mode
    else .mknod (newPath rootPath path) mode rdev
  | .mkdir path mode => .mkdir (newPath rootPath path) mode
  | .unlink path => .unlink (newPath rootPath path)
  | .rmdir path => .rmdir (newPath rootPath path)
  | .symlink «from» «to» => .symlink (newPath rootPath «from») (newPath rootPath «to»)
  | .rename «from» «to» => .rename (newPath rootPath «from») (newPath rootPath «to»)
  | .link «from» «to» => .link (newPath rootPath «from») (newPath rootPath «to»)
  | .create path mode fi => .open (newPath rootPath path) (withoutDirect fi).flags (some mode)

/-- The paths that are synced after the change. -/
def synced (rootPath : CString) : NamespaceOp CString → List CString
  | .mknod path _ _ | .unlink path | .rmdir path | .create path _ _ =>
    [parentPath (newPath rootPath path)]
  | .mkdir path _ => [newPath rootPath path, parentPath (newPath rootPath path)]
  | .symlink _ «to» => [parentPath (newPath rootPath «to»)]
  | .rename «from» «to» =>
    [newPath rootPath «to», parentPath (newPath rootPath «from»),
      parentPath (newPath rootPath «to»)]
  | .link «from» «to» =>
    [newPath rootPath «from», newPath rootPath «to», parentPath (newPath rootPath «from»),
      parentPath (newPath rootPath «to»)]

end NamespaceOp

/-- A sync of a file before those of paths. -/
theorem Syncs.fsync_cons {paths : List CString} {res : Int32} {events : List Event}
    (h : Syncs paths res events) (fd : Int32) :
    Syncs paths res (⟨.fsync fd, .ok ()⟩ :: events) where
  closes := ⟨fun _ hopened => (by cases hopened), h.closes⟩
  quiet := List.forall_mem_cons.mpr ⟨rfl, h.quiet⟩
  synced hres := by
    obtain ⟨hzero, hpaths⟩ := h.synced hres
    exact ⟨hzero, fun path hpath => (hpaths path hpath).append_left [⟨.fsync fd, .ok ()⟩]⟩

/-- What an operation records: a change that fails and nothing else, or the change, calls that
make none, and on success the syncs. -/
inductive Changes (op : NamespaceOp CString) (rootPath : CString) : Int32 → List Event → Prop
  | failed (e : Errno) : Changes op rootPath e.result [⟨op.change rootPath, .error e⟩]
  | changed (r : (op.change rootPath).Result) (res : Int32) (rest : List Event)
      (hsyncs : Syncs (op.synced rootPath) res rest) :
      Changes op rootPath res (⟨op.change rootPath, .ok r⟩ :: rest)

/-- **Change, then sync.** -/
theorem namespaceOp_yields (op : NamespaceOp CString) :
    Yields (op.run env rootPath) (Changes op rootPath) := by
  have hattempt (op : NamespaceOp CString) :
      Yields (attemptSync env (op.change rootPath) (op.synced rootPath)) (Changes op rootPath) := by
    refine yields_call_bind fun changed => ?_
    cases changed with
    | error e => exact yields_pure (.failed e)
    | ok r => exact (syncPaths_yields _).mono fun res rest h => .changed r res rest h
  cases op with
  | create path mode fi =>
    refine Yields.map (yields_call_bind fun opened => ?_)
    cases opened with
    | error e => exact yields_pure (@Changes.failed (.create path mode fi) rootPath e)
    | ok fd =>
      refine yields_call_bind fun synced => ?_
      cases synced with
      | error e =>
        refine yields_pure (@Changes.changed (.create path mode fi) rootPath fd _ _
          ⟨?_, ?_, fun h => ?_⟩)
        · exact ⟨fun _ hopened => (by cases hopened), trivial⟩
        · simp [Syscall.changesNames]
        · exact absurd h e.not_nonneg
      | ok _ =>
        refine (syncPath_yields _).bind fun res events hsync => ?_
        have hsyncs := hsync.syncs.fsync_cons fd.val
        by_cases hneg : res < 0
        · rw [if_pos hneg]
          refine yields_pure ?_
          rw [List.append_nil]
          exact @Changes.changed (.create path mode fi) rootPath fd _ _ hsyncs
        · rw [if_neg hneg]
          obtain ⟨rfl, -⟩ := hsyncs.synced (Int32.not_lt.mp hneg)
          refine yields_pure ?_
          rw [List.append_nil]
          exact @Changes.changed (.create path mode fi) rootPath fd _ _ hsyncs
  | mknod path mode rdev => exact hattempt (.mknod path mode rdev)
  | mkdir path mode => exact hattempt (.mkdir path mode)
  | unlink path => exact hattempt (.unlink path)
  | rmdir path => exact hattempt (.rmdir path)
  | symlink «from» «to» => exact hattempt (.symlink «from» «to»)
  | rename «from» «to» => exact hattempt (.rename «from» «to»)
  | link «from» «to» => exact hattempt (.link «from» «to»)

/-- A view of which names there are. A call that fails leaves it as it is, and so does one that
cannot change it. -/
structure Namespace (N : Type) where
  after : Event → N → N
  after_failed : ∀ event n, errorOf event ≠ none → after event n = n
  after_quiet : ∀ event n, event.call.changesNames = false → after event n = n

/-- The names after some calls. -/
def Namespace.final {N : Type} (names : Namespace N) (n : N) (events : List Event) : N :=
  events.foldl (fun n event => names.after event n) n

theorem Namespace.final_quiet {N : Type} (names : Namespace N) (n : N) {events : List Event}
    (hquiet : ∀ event ∈ events, event.call.changesNames = false) : names.final n events = n := by
  induction events with
  | nil => rfl
  | cons event events ih =>
    rw [Namespace.final, List.foldl_cons, names.after_quiet event n (hquiet event (by simp))]
    exact ih fun other hother => hquiet other (List.mem_cons_of_mem event hother)

/-- **What an operation leaves behind on an error.** The namespace is as before if the call that
changes it failed. Otherwise it is as that call left it: a sync that fails later changes
nothing and undoes nothing. Every descriptor opened behind the change is closed. -/
theorem nfs_onError {N : Type} (names : Namespace N) (n : N) (env : Env) (rootPath : CString)
    (op : NamespaceOp CString) :
    Yields (op.run env rootPath) fun res events => res < 0 →
      ∃ outcome rest, events = ⟨op.change rootPath, outcome⟩ :: rest ∧
        names.final n events = names.after ⟨op.change rootPath, outcome⟩ n ∧
        (∀ e, outcome = .error e → names.final n events = n) ∧ Closes rest := by
  refine (namespaceOp_yields op).mono fun res events hchanges _ => ?_
  cases hchanges with
  | failed e =>
    refine ⟨.error e, [], rfl, rfl, fun _ _ => ?_, trivial⟩
    exact names.after_failed _ n (by simp [errorOf])
  | changed r _ rest hsyncs =>
    refine ⟨.ok r, rest, rfl, ?_, fun e he => ?_, hsyncs.closes⟩
    · rw [Namespace.final, List.foldl_cons]
      exact names.final_quiet _ hsyncs.quiet
    · cases he

/-- An operation that returns a negative value has changed nothing and has nothing open. -/
def AllOrNothing {N : Type} (names : Namespace N) : Prop :=
  ∀ (env : Env) (rootPath : CString) (op : NamespaceOp CString) (n : N),
    Yields (op.run env rootPath) fun res events => res < 0 →
      names.final n events = n ∧ Closes events

/-- The path is the directory or lies below it. -/
def isAt (directory path : Bytes) : Bool :=
  path == directory || (directory ++ [slash]).isPrefixOf path

/-- Which paths exist after a call that has succeeded. -/
def namesAfter (c : Syscall) (n : Bytes → Bool) : Bytes → Bool :=
  match c with
  | .mkfifo path _ | .mknod path _ _ | .mkdir path _ | .symlink _ path | .link _ path =>
    Function.update n path.bytes true
  | .unlink path | .rmdir path => Function.update n path.bytes false
  | .rename «from» «to» => fun path =>
    if isAt to.bytes path then n (from.bytes ++ path.drop to.bytes.length)
    else if isAt from.bytes path then false
    else n path
  | .open path flags _ => if flags &&& creat != 0 then Function.update n path.bytes true else n
  | _ => n

/-- The namespace as the paths that exist. -/
def pathNames : Namespace (Bytes → Bool) where
  after event n := if errorOf event = none then namesAfter event.call n else n
  after_failed event n h := if_neg h
  after_quiet event n h := by
    have hsame : namesAfter event.call n = n := by
      cases hcall : event.call <;> simp_all [Syscall.changesNames, namesAfter]
    rw [hsame, ite_self]

/-- A server on which directories can be made and files cannot be opened. -/
def unreadable : Env := fun _ c =>
  match c with
  | .mkdir .. => .ok ()
  | _ => .error ⟨13, by decide⟩

/-- A directory that cannot be synced is there although `nfs_mkdir` returns an error. -/
theorem not_allOrNothing : ¬ AllOrNothing pathNames := by
  intro hall
  let rootPath : CString := ⟨[47, 114], by decide⟩
  let path : CString := ⟨[47, 100], by decide⟩
  obtain ⟨events, hevents, h⟩ := hall unreadable rootPath (.mkdir path 0o755) (fun _ => false) []
  have hnames := (h (by decide)).1
  rw [← List.nil_append events, ← hevents] at hnames
  have hmade := congrFun hnames (newPath rootPath path).bytes
  revert hmade
  decide

/-- The arguments as strings. -/
def NamespaceOp.strings : NamespaceOp EntryPath → NamespaceOp CString
  | .mknod path mode rdev => .mknod path.path mode rdev
  | .mkdir path mode => .mkdir path.path mode
  | .unlink path => .unlink path.path
  | .rmdir path => .rmdir path.path
  | .symlink «from» «to» => .symlink «from» to.path
  | .rename «from» «to» => .rename from.path to.path
  | .link «from» «to» => .link from.path to.path
  | .create path mode fi => .create path.path mode fi

/-- The directories whose entries the operation changes, below the root. -/
def NamespaceOp.directories : NamespaceOp EntryPath → List Bytes
  | .mknod path _ _ | .mkdir path _ | .unlink path | .rmdir path | .create path _ _ =>
    [path.directory]
  | .symlink _ «to» => [to.directory]
  | .rename «from» «to» | .link «from» «to» => [from.directory, to.directory]

/-- The directory was synced, under one of its names. -/
def DirectorySynced (directory : Bytes) (events : List Event) : Prop :=
  ∃ path : CString, SamePlace path.bytes directory ∧ SyncedIn path events

/-- A sync of `parent_path` is one of the directory of the entry. -/
theorem directorySynced_of_parentPath {path : EntryPath} {events : List Event}
    (h : SyncedIn (parentPath (newPath rootPath path.path)) events) :
    DirectorySynced (rootPath.bytes ++ path.directory) events := by
  refine ⟨_, ?_, h⟩
  have hplace := parentBytes_samePlace
    (rootPath.bytes ++ path.parent.flatMap fun c => slash :: c.bytes) path.name
  simpa only [parentPath, newPath, EntryPath.path, EntryPath.directory, List.append_assoc]
    using hplace

/-- On success the change was made, and every directory that it changed was synced after it. -/
theorem namespaceOp_stable (op : NamespaceOp EntryPath) :
    Yields (op.strings.run env rootPath) fun res events => res = 0 →
      ∃ r rest, events = ⟨op.strings.change rootPath, .ok r⟩ :: rest ∧
        ∀ directory ∈ op.directories, DirectorySynced (rootPath.bytes ++ directory) rest := by
  refine (namespaceOp_yields op.strings).mono fun res events hchanges hres => ?_
  cases hchanges with
  | failed e => exact absurd (hres ▸ e.result_neg) Int32.lt_irrefl
  | changed r _ rest hsyncs =>
    refine ⟨r, rest, rfl, ?_⟩
    have hsynced := (hsyncs.synced (hres ▸ Int32.le_refl _)).2
    have hparent {path : EntryPath}
        (h : parentPath (newPath rootPath path.path) ∈ op.strings.synced rootPath) :
        DirectorySynced (rootPath.bytes ++ path.directory) rest :=
      directorySynced_of_parentPath (hsynced _ h)
    cases op with
    | rename «from» «to» | link «from» «to» =>
      simp only [NamespaceOp.directories, List.forall_mem_cons, List.not_mem_nil, false_imp_iff,
        implies_true, and_true]
      exact ⟨hparent (by simp [NamespaceOp.strings, NamespaceOp.synced]),
        hparent (by simp [NamespaceOp.strings, NamespaceOp.synced])⟩
    | _ =>
      intro directory hdirectory
      rw [List.mem_singleton.mp hdirectory]
      exact hparent (by simp [NamespaceOp.strings, NamespaceOp.synced])

/-- A table of the server with `nfs_write`. -/
def nfsTable (env : Env) (table : Operations (List Event)) : Operations (List Event) :=
  { table with
    write := fun _ size buf offset fi => do
      let res ← nfsWrite env size buf offset fi
      return (res, fi) }

/-- A write with the flush flag that returns no error is followed by a sync. -/
theorem nfsWrite_yields {size : UInt64} (buf : Buffer size) (offset : Int64)
    {fi : Rpc.FuseFileInfo} (hflush : fi.flush ≠ 0) :
    Yields (nfsWrite env size buf offset fi) fun res events => 0 ≤ res →
      ∃ written, events =
        [⟨.pwrite (fdOf fi) size buf offset, .ok written⟩, ⟨.fsync (fdOf fi), .ok ()⟩] := by
  refine yields_call_bind fun written => ?_
  cases written with
  | error e => exact yields_pure fun h => absurd h e.not_nonneg
  | ok written =>
    dsimp only
    rw [if_pos hflush]
    refine yields_call_bind fun synced => ?_
    cases synced with
    | error e => exact yields_pure fun h => absurd h e.not_nonneg
    | ok _ => exact yields_pure fun _ => ⟨written, rfl⟩

/-- **Stability.** An operation on the namespace that returns 0 has made its change, and after
it has synced every directory whose entries it changed. A write that a client sends, on its own
or on a stream, and that returns no error has written and then synced the descriptor. -/
theorem nfs_stable (env : Env) (rootPath : CString) :
    (∀ op : NamespaceOp EntryPath, Yields (op.strings.run env rootPath) fun res events =>
      res = 0 → ∃ r rest, events = ⟨op.strings.change rootPath, .ok r⟩ :: rest ∧
        ∀ directory ∈ op.directories, DirectorySynced (rootPath.bytes ++ directory) rest) ∧
    ∀ table reply path size (buf : Buffer size) offset fi history res fi' history',
      SyncClient.write (Server.serveWrite (nfsTable env table) reply) path size buf offset fi
          history = (some (res, fi'), history') →
      0 ≤ res → ∃ written, history' = history ++
        [⟨.pwrite (fdOf fi) size buf offset, .ok written⟩, ⟨.fsync (fdOf fi), .ok ()⟩] := by
  refine ⟨namespaceOp_stable, ?_⟩
  intro table reply path size buf offset fi history res fi' history' hwrite hres
  -- The flag that the client sets is the one with which the entry is called.
  have htransparent := writeTransparent_serveWrite (nfsTable env table) reply history path size buf
    offset fi
  obtain ⟨hvalue, hhistory⟩ := Prod.mk.inj (htransparent.symm.trans hwrite)
  have hresult : (nfsWrite env size buf offset { fi with flush := 1 } history).1 = res :=
    (Prod.mk.inj (Option.some.inj hvalue)).1
  have hflush : ({ fi with flush := 1 } : Rpc.FuseFileInfo).flush ≠ 0 := by simp
  obtain ⟨events, hevents, hsynced⟩ := @nfsWrite_yields env size buf offset _ hflush history
  obtain ⟨written, rfl⟩ := hsynced (by rw [hresult]; exact hres)
  exact ⟨written, hhistory.symm.trans hevents⟩

/-- A system on which the calls that an operation makes succeed. -/
def willing : Env := fun _ c =>
  match c with
  | .mkdir .. | .fsync _ | .close _ => .ok ()
  | .open .. => .ok ⟨3, by decide⟩
  | .pwrite .. => .ok ⟨0, Nat.zero_le _, Nat.zero_le _⟩
  | _ => .error ⟨1, by decide⟩

/-- A table without operations of its own. -/
def emptyTable {σ : Type} : Operations σ where
  access _ _ := pure 0
  readlink _ _ buf := pure (0, buf)
  opendir _ fi := pure (0, fi)
  releasedir _ fi := pure (0, fi)
  mknod _ _ _ := pure 0
  mkdir _ _ := pure 0
  symlink _ _ := pure 0
  unlink _ := pure 0
  rmdir _ := pure 0
  rename _ _ := pure 0
  link _ _ := pure 0
  chmod _ _ := pure 0
  chown _ _ _ := pure 0
  truncate _ _ := pure 0
  ftruncate _ _ fi := pure (0, fi)
  utimens _ _ _ := pure 0
  create _ _ fi := pure (0, fi)
  «open» _ fi := pure (0, fi)
  read _ _ buf _ fi := pure ⟨0, buf, fi, Int.natCast_nonneg _⟩
  write _ _ _ _ fi := pure (0, fi)
  flush _ fi := pure (0, fi)
  release _ fi := pure (0, fi)
  fsync _ _ fi := pure (0, fi)

/-- `/d`. -/
def entryD : EntryPath := ⟨[], ⟨[100], by decide, by decide, by decide⟩⟩

/-- A directory made in `/r` has this one synced, and a remote write of one byte its file. -/
theorem nfs_stable_willing :
    (∃ events, DirectorySynced [47, 114, 47] events ∧
      (NamespaceOp.mkdir entryD.path 0o755).run willing ⟨[47, 114], by decide⟩ [] =
        (0, ⟨.mkdir ⟨[47, 114, 47, 100], by decide⟩ 0o755, .ok ()⟩ :: events)) ∧
    ∃ written, (SyncClient.write (Server.serveWrite (nfsTable willing emptyTable) default)
        ⟨[47, 100], by decide⟩ 1 ⟨[7], by decide⟩ 0 default []).2 =
      [⟨.pwrite 0 1 ⟨[7], by decide⟩ 0, .ok written⟩, ⟨.fsync 0, .ok ()⟩] := by
  obtain ⟨hnamespace, hwrite⟩ := nfs_stable willing ⟨[47, 114], by decide⟩
  refine ⟨?_, ?_⟩
  · obtain ⟨events, hevents, h⟩ := hnamespace (.mkdir entryD 0o755) []
    obtain ⟨r, rest, rfl, hsynced⟩ := h (by decide)
    refine ⟨rest, hsynced _ List.mem_cons_self, ?_⟩
    exact Prod.ext rfl hevents
  · obtain ⟨written, h⟩ := hwrite emptyTable default ⟨[47, 100], by decide⟩ 1 ⟨[7], by decide⟩ 0
      default [] 0 _ _ rfl (by decide)
    exact ⟨written, h⟩

end RSafeFS.Local
