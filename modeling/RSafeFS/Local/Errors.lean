import RSafeFS.Local.LocalOperations
import RSafeFS.Local.Stability

/-!
# Errors of the storage layer

An operation answers honestly if it returns a value that is not negative only when all of its
calls have succeeded, and otherwise the error of one that failed. The operations of both tables
do so, apart from some that drop the outcome of a call; these are found out exactly.
-/

namespace RSafeFS.Local

open Rpc Trace

variable {env : Env} {rootPath : CString}

/-- The result tells the truth about the calls. -/
structure Honest (res : Int32) (events : List Event) : Prop where
  ok : 0 ≤ res → ∀ event ∈ events, errorOf event = none
  failed : res < 0 → ∃ event ∈ events, ∃ e, errorOf event = some e ∧ res = e.result

/-- The error of one of the calls. -/
theorem honest_error {event : Event} {events : List Event} {e : Errno} (hmem : event ∈ events)
    (herror : errorOf event = some e) : Honest e.result events where
  ok h := absurd h e.not_nonneg
  failed _ := ⟨event, hmem, e, herror, rfl⟩

/-- A value of calls that have succeeded. -/
theorem honest_ok {res : Int32} {events : List Event} (hres : 0 ≤ res)
    (hok : ∀ event ∈ events, errorOf event = none) : Honest res events where
  ok _ := hok
  failed h := absurd hres (Int32.not_le.mpr h)

/-- Calls that have succeeded before do not matter. -/
theorem Honest.append {res : Int32} {first second : List Event} (h : Honest res second)
    (hfirst : ∀ event ∈ first, errorOf event = none) : Honest res (first ++ second) where
  ok hres event hevent := by
    rcases List.mem_append.mp hevent with hevent | hevent
    · exact hfirst event hevent
    · exact h.ok hres event hevent
  failed hres := by
    obtain ⟨event, hevent, hfailed⟩ := h.failed hres
    exact ⟨event, List.mem_append_right _ hevent, hfailed⟩

theorem Honest.cons {res : Int32} {event : Event} {events : List Event} (h : Honest res events)
    (hevent : errorOf event = none) : Honest res (event :: events) :=
  @Honest.append res [event] events h (by simpa using hevent)

theorem attemptInto_honest {α : Type} (c : Syscall) (old : α) (store : c.Result → α) :
    Yields (attemptInto env c old store) fun r => Honest r.1 := by
  refine yields_call_bind fun outcome => ?_
  cases outcome with
  | error e => exact yields_pure (honest_error List.mem_cons_self rfl)
  | ok r => exact yields_pure (honest_ok (Int32.le_refl 0) (by simp [errorOf]))

theorem attempt_honest (c : Syscall) : Yields (attempt env c) Honest := by
  refine yields_call_bind fun outcome => ?_
  cases outcome with
  | error e => exact yields_pure (honest_error List.mem_cons_self rfl)
  | ok _ => exact yields_pure (honest_ok (Int32.le_refl 0) (by simp [errorOf]))

theorem preadResult_honest (fd : Int32) (size : UInt64) (offset : Int64) :
    Yields (preadResult env fd size offset) fun r => Honest r.1 := by
  refine yields_call_bind fun outcome => ?_
  cases outcome with
  | error e => exact yields_pure (honest_error List.mem_cons_self rfl)
  | ok r => exact yields_pure (honest_ok (countResult_nonneg r.length_le_max) (by simp [errorOf]))

/-- The syncs after a change, and those of a new file. -/
theorem SyncEvents.honest {path : CString} {res : Int32} {events : List Event}
    (h : SyncEvents path res events) : Honest res events := by
  cases h with
  | openFailed e => exact honest_error List.mem_cons_self rfl
  | fsyncFailed fd e closed =>
    exact honest_error (List.mem_cons_of_mem _ List.mem_cons_self) rfl
  | closeFailed fd e =>
    exact honest_error (List.mem_cons_of_mem _ (List.mem_cons_of_mem _ List.mem_cons_self)) rfl
  | synced fd => exact honest_ok (Int32.le_refl 0) (by simp [errorOf])

theorem syncPaths_honest (paths : List CString) : Yields (syncPaths env paths) Honest := by
  induction paths with
  | nil => exact yields_pure (honest_ok (Int32.le_refl 0) (by simp))
  | cons path paths ih =>
    refine (syncPath_yields path).bind fun res first hfirst => ?_
    have hfirst := hfirst.honest
    by_cases hneg : res < 0
    · rw [if_pos hneg]
      refine yields_pure ?_
      rw [List.append_nil]
      exact hfirst
    · rw [if_neg hneg]
      exact ih.mono fun res' second h => h.append (hfirst.ok (Int32.not_lt.mp hneg))

theorem attemptSync_honest (c : Syscall) (paths : List CString) :
    Yields (attemptSync env c paths) Honest := by
  refine yields_call_bind fun outcome => ?_
  cases outcome with
  | error e => exact yields_pure (honest_error List.mem_cons_self rfl)
  | ok _ => exact (syncPaths_honest paths).mono fun res events h => h.cons rfl

/-- The new file is synced before its directory. -/
theorem nfsCreate_honest (path : CString) (mode : UInt32) (fi : Rpc.FuseFileInfo) :
    Yields (nfsCreate env rootPath path mode fi) fun r => Honest r.1 := by
  refine yields_call_bind fun opened => ?_
  cases opened with
  | error e => exact yields_pure (honest_error List.mem_cons_self rfl)
  | ok fd =>
    refine yields_call_bind fun synced => ?_
    cases synced with
    | error e => exact yields_pure (honest_error (List.mem_cons_of_mem _ List.mem_cons_self) rfl)
    | ok _ =>
      refine (syncPath_yields _).bind fun res events hsync => ?_
      have hsync : Honest res (⟨.fsync fd.val, .ok ()⟩ :: events) := hsync.honest.cons rfl
      by_cases hneg : res < 0
      · rw [if_pos hneg]
        refine yields_pure ?_
        rw [List.append_nil]
        exact hsync.cons rfl
      · rw [if_neg hneg]
        refine yields_pure ?_
        rw [List.append_nil]
        exact (honest_ok (Int32.le_refl 0) (hsync.ok (Int32.not_lt.mp hneg))).cons rfl

theorem nfsWrite_honest (size : UInt64) (buf : Buffer size) (offset : Int64)
    (fi : Rpc.FuseFileInfo) : Yields (nfsWrite env size buf offset fi) Honest := by
  refine yields_call_bind fun written => ?_
  cases written with
  | error e => exact yields_pure (honest_error List.mem_cons_self rfl)
  | ok written =>
    have hres := countResult_nonneg written.count_le_max
    dsimp only
    split
    · refine yields_call_bind fun synced => ?_
      cases synced with
      | error e => exact yields_pure (honest_error (List.mem_cons_of_mem _ List.mem_cons_self) rfl)
      | ok _ => exact yields_pure (honest_ok hres (by simp [errorOf]))
    · exact yields_pure (honest_ok hres (by simp [errorOf]))

/-- A failed `fsync` hides the error of a failed write, but not that there was one. -/
theorem pwriteFsync_honest (fd : Int32) (size : UInt64) (buf : Buffer size) (offset : Int64) :
    Yields (pwriteFsync env fd size buf offset) Honest := by
  refine yields_call_bind fun written => yields_call_bind fun synced => ?_
  cases synced with
  | error e => exact yields_pure (honest_error (List.mem_cons_of_mem _ List.mem_cons_self) rfl)
  | ok _ =>
    cases written with
    | error e => exact yields_pure (honest_error List.mem_cons_self rfl)
    | ok written =>
      exact yields_pure (honest_ok (countResult_nonneg written.count_le_max) (by simp [errorOf]))

theorem localMknod_honest (path : CString) (mode : UInt32) (rdev : UInt64) :
    Yields (localMknod env rootPath path mode rdev) Honest := by
  unfold localMknod
  dsimp only
  split
  · refine yields_call_bind fun opened => ?_
    cases opened with
    | error e => exact yields_pure (honest_error List.mem_cons_self rfl)
    | ok fd => exact (attempt_honest (.close fd.val)).mono fun res events h => h.cons rfl
  · split
    · exact attempt_honest _
    · exact attempt_honest _

/-- An operation on a handle or a path, with its arguments. A directory is given by its `DIR`
and the rest of its handle. -/
inductive Operation (β : Type) where
  | getattr (path : CString) (stbuf : Rpc.Stat)
  | fgetattr (stbuf : Rpc.Stat) (fi : Rpc.FuseFileInfo)
  | access (path : CString) (mask : Int32)
  | readlink (path : CString) (size : UInt64)
  | opendir (path : CString)
  | readdir (dp : UInt64) (d : DirHandle Unit) (buf : β) (filler : FuseFillDir β) (offset : Int64)
  | releasedir (dp : UInt64)
  | change (op : NamespaceOp CString)
  | chmod (path : CString) (mode : UInt32)
  | chown (path : CString) (uid gid : UInt32)
  | truncate (path : CString) (size : Int64)
  | ftruncate (path : CString) (size : Int64) (fi : Option Rpc.FuseFileInfo)
  | utime (path : CString) (actime modtime : Int64)
  | utimens (path : CString) (ts0 ts1 : Rpc.Timespec)
  | «open» (path : CString) (fi : Rpc.FuseFileInfo)
  | read (path : CString) (size : UInt64) (offset : Int64) (fi : Option Rpc.FuseFileInfo)
  | write (path : CString) (size : UInt64) (buf : Buffer size) (offset : Int64)
      (fi : Option Rpc.FuseFileInfo)
  | statfs (path : CString) (stbuf : Rpc.Statvfs)
  | flush (fi : Rpc.FuseFileInfo)
  | release (fi : Rpc.FuseFileInfo)
  | fsync (isdatasync : Int32) (fi : Rpc.FuseFileInfo)

/-- The operation of the local table. -/
def NamespaceOp.runLocal (env : Env) (rootPath : CString) : NamespaceOp CString → M Int32
  | .mknod path mode rdev => localMknod env rootPath path mode rdev
  | .mkdir path mode => localMkdir env rootPath path mode
  | .unlink path => localUnlink env rootPath path
  | .rmdir path => localRmdir env rootPath path
  | .symlink «from» «to» => localSymlink env rootPath «from» «to»
  | .rename «from» «to» => localRename env rootPath «from» «to»
  | .link «from» «to» => localLink env rootPath «from» «to»
  | .create path mode fi => Prod.fst <$> localCreate env rootPath path mode fi

/-- The value of `errno` when an operation is entered: 0, or the last error. -/
def errnoValue : Option Errno → Int32
  | none => 0
  | some e => e.val

/-- The result of a program that is always defined. -/
def returns (p : M Int32) : StateT (List Event) Option Int32 := fun history => some (p history)

/-- What an operation returns, in a loop after at most `fuel` turns. A slot that the table does
not have and a null handle where one is needed have no result. -/
def perform (env : Env) (rootPath : CString) (errno : Option Errno) (fuel : ℕ) {β : Type} :
    Table → Operation β → StateT (List Event) Option Int32
  | .local, .getattr path stbuf => returns (Prod.fst <$> localGetattr env rootPath path stbuf)
  | .nfs, .getattr path stbuf => returns (Prod.fst <$> nfsGetattr env rootPath path stbuf)
  | .local, .fgetattr stbuf fi => returns (Prod.fst <$> localFgetattr env stbuf fi)
  | .nfs, .fgetattr stbuf fi => returns (Prod.fst <$> nfsFgetattr env stbuf fi)
  | .local, .access path mask => returns (localAccess env rootPath path mask)
  | .nfs, .access path mask => returns (nfsAccess env rootPath path mask)
  | .local, .readlink path size => returns (Prod.fst <$> localReadlink env rootPath path size)
  | .nfs, .readlink path size => returns (Prod.fst <$> nfsReadlink env rootPath path size)
  | .local, .opendir path => returns (Prod.fst <$> localOpendir env rootPath path)
  | .nfs, .opendir path => returns (Prod.fst <$> nfsOpendir env rootPath path)
  | .local, .readdir dp d buf filler offset | .nfs, .readdir dp d buf filler offset =>
    Prod.fst <$> readdirInto env fuel dp d buf filler offset
  | .local, .releasedir dp => returns (localReleasedir env dp)
  | .nfs, .releasedir dp => returns (nfsReleasedir env dp)
  | .local, .change op => returns (op.runLocal env rootPath)
  | .nfs, .change op => returns (op.run env rootPath)
  | .local, .chmod path mode => returns (localChmod env rootPath path mode)
  | .nfs, .chmod path mode => returns (nfsChmod env rootPath path mode)
  | .local, .chown path uid gid => returns (localChown env rootPath path uid gid)
  | .nfs, .chown path uid gid => returns (nfsChown env rootPath path uid gid)
  | .local, .truncate path size => returns (localTruncate env rootPath path size)
  | .nfs, .truncate path size => returns (nfsTruncate env rootPath path size)
  | .local, .ftruncate path size fi => returns (localFtruncate env rootPath path size fi)
  | .nfs, .ftruncate _ size (some fi) => returns (nfsFtruncate env size fi)
  | .local, .utime path actime modtime => returns (localUtime env rootPath path actime modtime)
  | .nfs, .utimens path ts0 ts1 => returns (nfsUtimens env rootPath path ts0 ts1)
  | .local, .open path fi => returns (Prod.fst <$> localOpen env rootPath path fi)
  | .nfs, .open path fi => returns (Prod.fst <$> nfsOpen env rootPath path fi)
  | .local, .read path size offset fi =>
    returns (Prod.fst <$> localRead env rootPath (errnoValue errno) path size offset fi)
  | .nfs, .read _ size offset (some fi) => returns (Prod.fst <$> nfsRead env size offset fi)
  | .local, .write path size buf offset fi =>
    returns (localWrite env rootPath (errnoValue errno) path size buf offset fi)
  | .nfs, .write _ size buf offset (some fi) => returns (nfsWrite env size buf offset fi)
  | .local, .statfs path stbuf => returns (Prod.fst <$> localStatfs env rootPath path stbuf)
  | .nfs, .statfs path stbuf => returns (Prod.fst <$> nfsStatfs env rootPath path stbuf)
  | .local, .flush fi => returns (localFlush env fi)
  | .nfs, .flush fi => returns (nfsFlush env fi)
  | .local, .release fi => returns (localRelease env fi)
  | .nfs, .release fi => returns (nfsRelease env fi)
  | .local, .fsync _ fi => returns (localFsync env fi)
  | .nfs, .fsync isdatasync fi => returns (nfsFsync env isdatasync fi)
  | .nfs, .ftruncate _ _ none | .nfs, .read _ _ _ none | .nfs, .write _ _ _ _ none
  | .nfs, .utime .. | .local, .utimens .. => fun _ => none

/-- The call fails when it comes next. -/
def Fails (env : Env) (history : List Event) (c : Syscall) : Prop :=
  ∃ e, env history c = .error e

/-- The history with one call more. -/
def andThen (env : Env) (history : List Event) (c : Syscall) : List Event :=
  history ++ [⟨c, env history c⟩]

/-- A call fails while the rest of a directory is listed, from an entry that has been read
already or from the stream: the entries come from the system and go to the filler until it is
full. -/
inductive ListingFails (env : Env) (dp : UInt64) {β : Type} (filler : FuseFillDir β) :
    List Event → Option Dirent → β → Prop
  | readdir {history : List Event} {buf : β} (hfails : Fails env history (.readdir dp)) :
    ListingFails env dp filler history none buf
  | entry {history : List Event} {buf : β} {entry : Dirent}
      (hentry : env history (.readdir dp) = .ok (some entry))
      (hrest : ListingFails env dp filler (andThen env history (.readdir dp)) (some entry) buf) :
    ListingFails env dp filler history none buf
  | telldir {history : List Event} {buf : β} {entry : Dirent}
      (hfails : Fails env history (.telldir dp)) :
    ListingFails env dp filler history (some entry) buf
  | next {history : List Event} {buf buf' : β} {entry : Dirent} {nextoff : Int64}
      (hoffset : env history (.telldir dp) = .ok nextoff)
      (hfiller : filler ⟨entry.name, entry.stat, nextoff⟩ buf = (false, buf'))
      (hrest : ListingFails env dp filler (andThen env history (.telldir dp)) none buf') :
    ListingFails env dp filler history (some entry) buf

/-- The outcome of a call gets lost: the operation does not look at it, or looks at an `errno`
that no call of it has set. `close(-1)` cannot succeed, and `malloc` fails with `ENOMEM`. -/
def Drops (env : Env) (rootPath : CString) (errno : Option Errno) (history : List Event)
    {β : Type} : Table → Operation β → Prop
  | .local, .release fi => Fails env history (.close (fdOf fi))
  | .local, .fsync _ fi => Fails env history (.fsync (fdOf fi))
  | .local, .releasedir dp => Fails env history (.closedir dp)
  | .local, .flush fi =>
    Fails env history (.dup (fdOf fi)) ∧
      ¬ Fails env (andThen env history (.dup (fdOf fi))) (.close (-1))
  | _, .opendir _ => ∃ e, env history .malloc = .error e ∧ e.result ≠ -12
  | _, .readdir dp d buf filler offset =>
    ListingFails env dp filler history (if offset = d.offset then d.entry else none) buf
  | .local, .read path size offset none =>
    ∃ fd, env history (.open (newPath rootPath path) rdonly none) = .ok fd ∧
      let opened := andThen env history (.open (newPath rootPath path) rdonly none)
      ¬ Fails env opened (.pread fd.val size offset) ∧
        Fails env (andThen env opened (.pread fd.val size offset)) (.close fd.val)
  | .local, .write path size buf offset none =>
    ∃ fd, env history (.open (newPath rootPath path) wronly none) = .ok fd ∧
      let opened := andThen env history (.open (newPath rootPath path) wronly none)
      let written := andThen env opened (.pwrite fd.val size buf offset)
      ¬ Fails env opened (.pwrite fd.val size buf offset) ∧ ¬ Fails env written (.fsync fd.val) ∧
        Fails env (andThen env written (.fsync fd.val)) (.close fd.val)
  | .local, .read _ _ _ (some fi) | .local, .write _ _ _ _ (some fi) =>
    fdOf fi = -1 ∧ errno ≠ none
  | _, _ => False

/-- The operation has answered honestly for its own calls. -/
def HonestAfter (history : List Event) (res : Int32) (history' : List Event) : Prop :=
  ∃ new, history' = history ++ new ∧ Honest res new

/-- The program answers honestly when it is run after the history. -/
def HonestRun (p : M Int32) (history : List Event) : Prop :=
  HonestAfter history (p history).1 (p history).2

variable {history : List Event} {res : Int32}

/-- The events of an operation are what it has added to the history. -/
theorem honestAfter_append {new : List Event} :
    HonestAfter history res (history ++ new) ↔ Honest res new := by
  constructor
  · rintro ⟨new', hnew, hhonest⟩
    rw [List.append_cancel_left hnew]
    exact hhonest
  · exact fun h => ⟨new, rfl, h⟩

/-- A result of 0 is honest if all calls have succeeded. -/
theorem honest_zero {events : List Event} :
    Honest 0 events ↔ ∀ event ∈ events, errorOf event = none :=
  ⟨fun h => h.ok (Int32.le_refl 0), honest_ok (Int32.le_refl 0)⟩

/-- A value is not honest where a call has failed. -/
theorem not_honest {events : List Event} {event : Event} {e : Errno} (hres : 0 ≤ res)
    (hmem : event ∈ events) (herror : errorOf event = some e) : ¬ Honest res events := by
  intro h
  rw [h.ok hres event hmem] at herror
  cases herror

/-- Whether a known run is honest. -/
theorem honestRun_iff {p : M Int32} {new : List Event} (h : Runs p history res new) :
    HonestRun p history ↔ Honest res new := by
  unfold HonestRun
  rw [show p history = (res, history ++ new) from h]
  exact honestAfter_append

/-- A program that is always honest is so here. -/
theorem honestRun_of_yields {p : M Int32} (h : Yields p Honest) (history : List Event) :
    HonestRun p history := h history

theorem fails_of_error {c : Syscall} {e : Errno} (h : env history c = .error e) :
    Fails env history c := ⟨e, h⟩

theorem not_fails_of_ok {c : Syscall} {r : c.Result} (h : env history c = .ok r) :
    ¬ Fails env history c := by
  rintro ⟨e, he⟩
  rw [h] at he
  cases he

/-- A dropped outcome makes the answer wrong exactly where it is an error. -/
theorem ignore_honest_iff {c : Syscall} :
    HonestRun (ignore env c) history ↔ ¬ Fails env history c := by
  have hrun : Runs (ignore env c) history 0 [⟨c, env history c⟩] :=
    runs_call_bind rfl (runs_pure 0)
  rw [honestRun_iff hrun]
  cases houtcome : env history c with
  | ok r => exact iff_of_true (honest_zero.mpr (by simp [errorOf])) (not_fails_of_ok houtcome)
  | error e =>
    exact iff_of_false (not_honest (Int32.le_refl 0) List.mem_cons_self rfl)
      (not_not_intro (fails_of_error houtcome))

/-- `close(dup(fd))` answers for the `dup` by the error of the `close`. -/
theorem localFlush_honest_iff {fi : Rpc.FuseFileInfo} :
    HonestRun (localFlush env fi) history ↔ ¬ (Fails env history (.dup (fdOf fi)) ∧
      ¬ Fails env (andThen env history (.dup (fdOf fi))) (.close (-1))) := by
  unfold andThen
  cases hdup : env history (.dup (fdOf fi)) with
  | ok fd =>
    refine iff_of_true ?_ fun h => not_fails_of_ok hdup h.1
    cases hclose : env (history ++ [⟨.dup (fdOf fi), .ok fd⟩]) (.close fd.val) with
    | ok _ =>
      have hrun : Runs (localFlush env fi) history 0
          [⟨.dup (fdOf fi), .ok fd⟩, ⟨.close fd.val, .ok ()⟩] :=
        runs_call_bind hdup (runs_call_bind hclose (runs_pure 0))
      exact (honestRun_iff hrun).mpr (honest_zero.mpr (by simp [errorOf]))
    | error e =>
      have hrun : Runs (localFlush env fi) history e.result
          [⟨.dup (fdOf fi), .ok fd⟩, ⟨.close fd.val, .error e⟩] :=
        runs_call_bind hdup (runs_call_bind hclose (runs_pure e.result))
      exact (honestRun_iff hrun).mpr (honest_error (List.mem_cons_of_mem _ List.mem_cons_self) rfl)
  | error e =>
    cases hclose : env (history ++ [⟨.dup (fdOf fi), .error e⟩]) (.close (-1)) with
    | ok _ =>
      have hrun : Runs (localFlush env fi) history 0
          [⟨.dup (fdOf fi), .error e⟩, ⟨.close (-1), .ok ()⟩] :=
        runs_call_bind hdup (runs_call_bind hclose (runs_pure 0))
      rw [honestRun_iff hrun]
      exact iff_of_false (not_honest (Int32.le_refl 0) List.mem_cons_self rfl)
        (not_not_intro ⟨fails_of_error hdup, not_fails_of_ok hclose⟩)
    | error e' =>
      have hrun : Runs (localFlush env fi) history e'.result
          [⟨.dup (fdOf fi), .error e⟩, ⟨.close (-1), .error e'⟩] :=
        runs_call_bind hdup (runs_call_bind hclose (runs_pure e'.result))
      rw [honestRun_iff hrun]
      exact iff_of_true (honest_error (List.mem_cons_of_mem _ List.mem_cons_self) rfl)
        fun h => h.2 (fails_of_error hclose)

/-- A handle that cannot be allocated is answered for as `malloc` would. -/
theorem opendirInto_honest_iff {path : CString} :
    HonestRun (Prod.fst <$> opendirInto env path) history ↔
      ¬ ∃ e, env history .malloc = .error e ∧ e.result ≠ -12 := by
  cases hmalloc : env history .malloc with
  | error e =>
    have hrun : Runs (opendirInto env path) history (-12, none) [⟨.malloc, .error e⟩] :=
      runs_call_bind hmalloc (runs_pure (-12, none))
    rw [honestRun_iff (hrun.map Prod.fst)]
    constructor
    · rintro h ⟨e', heq, hne⟩
      obtain rfl := Except.error.inj heq
      obtain ⟨event, hevent, e', herror, hres⟩ := h.failed (by decide)
      rw [List.mem_singleton.mp hevent] at herror
      obtain rfl := Option.some.inj herror
      exact hne hres.symm
    · intro h
      have heq : e.result = -12 := by
        by_contra hne
        exact h ⟨e, rfl, hne⟩
      rw [← heq]
      exact honest_error List.mem_cons_self rfl
  | ok d =>
    refine iff_of_true ?_ (by rintro ⟨e, he, -⟩; cases he)
    cases hopen : env (history ++ [⟨.malloc, .ok d⟩]) (.opendir path) with
    | error e =>
      have hrun : Runs (opendirInto env path) history (e.result, none)
          [⟨.malloc, .ok d⟩, ⟨.opendir path, .error e⟩] :=
        runs_call_bind hmalloc (runs_call_bind hopen (runs_pure (e.result, none)))
      rw [honestRun_iff (hrun.map Prod.fst)]
      exact honest_error (List.mem_cons_of_mem _ List.mem_cons_self) rfl
    | ok dp =>
      have hrun : Runs (opendirInto env path) history (0, some (d, dp))
          [⟨.malloc, .ok d⟩, ⟨.opendir path, .ok dp⟩] :=
        runs_call_bind hmalloc (runs_call_bind hopen (runs_pure (0, some (d, dp))))
      rw [honestRun_iff (hrun.map Prod.fst)]
      exact honest_zero.mpr (by simp [errorOf])

/-- A last call whose outcome is dropped hurts where the calls before have succeeded. -/
theorem honest_snoc_iff {events : List Event} (h : Honest res events) (c : Syscall)
    (outcome : c.Outcome) :
    Honest res (events ++ [⟨c, outcome⟩]) ↔ ¬ (0 ≤ res ∧ ∃ e, outcome = .error e) := by
  by_cases hres : 0 ≤ res
  · have hok := h.ok hres
    cases outcome with
    | ok r =>
      refine iff_of_true (honest_ok hres ?_) (by rintro ⟨-, e, he⟩; cases he)
      intro event hevent
      rcases List.mem_append.mp hevent with hevent | hevent
      · exact hok event hevent
      · rw [List.mem_singleton.mp hevent]
        rfl
    | error e =>
      exact iff_of_false (not_honest hres (List.mem_append_right _ List.mem_cons_self) rfl)
        (not_not_intro ⟨hres, e, rfl⟩)
  · refine iff_of_true ?_ fun h => hres h.1
    obtain ⟨event, hevent, e, herror, rfl⟩ := h.failed (Int32.not_le.mp hres)
    exact honest_error (List.mem_append_left _ hevent) herror

/-- The outcome of closing a file hurts where its opening and the program have succeeded. -/
theorem withOpened_honest_iff {α : Type} {result : α → Int32} {path : CString} {flags : Int32}
    {p : Fd → M α} {onError : Errno → α} (hresult : ∀ e, result (onError e) = e.result)
    (hp : ∀ fd, Yields (p fd) fun a => Honest (result a)) :
    HonestRun (result <$> withOpened env path flags onError p) history ↔
      ¬ ∃ fd, env history (.open path flags none) = .ok fd ∧
        0 ≤ result (p fd (andThen env history (.open path flags none))).1 ∧
          Fails env (p fd (andThen env history (.open path flags none))).2 (.close fd.val) := by
  unfold andThen
  cases hopen : env history (.open path flags none) with
  | error e =>
    have hrun : Runs (withOpened env path flags onError p) history (onError e)
        [⟨.open path flags none, .error e⟩] :=
      runs_call_bind hopen (runs_pure (onError e))
    rw [honestRun_iff (hrun.map result), hresult]
    exact iff_of_true (honest_error List.mem_cons_self rfl) (by rintro ⟨fd, hfd, -⟩; cases hfd)
  | ok fd =>
    let opened := history ++ [⟨.open path flags none, .ok fd⟩]
    obtain ⟨new, hnew, hhonest⟩ := hp fd opened
    have hrest : Runs (p fd) opened (p fd opened).1 new := Prod.ext rfl hnew
    have hrun : Runs (withOpened env path flags onError p) history (p fd opened).1
        (⟨.open path flags none, .ok fd⟩ :: (new ++ [⟨.close fd.val, env (opened ++ new)
          (.close fd.val)⟩])) :=
      runs_call_bind hopen (hrest.bind (runs_call_bind rfl (runs_pure _)))
    have hhonest' : Honest (result (p fd opened).1) (⟨.open path flags none, .ok fd⟩ :: new) :=
      hhonest.cons rfl
    rw [honestRun_iff (hrun.map result), ← List.cons_append, honest_snoc_iff hhonest', ← hnew]
    refine not_congr ⟨fun h => ⟨fd, rfl, h⟩, ?_⟩
    rintro ⟨fd', hfd', h⟩
    obtain rfl := Except.ok.inj hfd'
    exact h

/-- A handle of -1 is answered for by an error that was there before. -/
theorem stale_honest_iff {errno : Option Errno} {p : M Int32} {fd : Int32}
    (hp : Yields p Honest) :
    HonestRun (if fd = -1 then pure (-errnoValue errno) else p) history ↔
      ¬ (fd = -1 ∧ errno ≠ none) := by
  by_cases hfd : fd = -1
  · rw [if_pos hfd, honestRun_iff (runs_pure _)]
    cases errno with
    | none => exact iff_of_true (honest_zero.mpr (by simp)) (by simp)
    | some e =>
      refine iff_of_false (fun h => ?_) (by simp [hfd])
      obtain ⟨event, hevent, -⟩ := h.failed e.result_neg
      exact absurd hevent List.not_mem_nil
  · rw [if_neg hfd]
    exact iff_of_true (honestRun_of_yields hp history) fun h => hfd h.1

/-- What a listing adds to the history, and whether that holds an error. -/
def ListingTells (env : Env) (dp : UInt64) {β : Type} (filler : FuseFillDir β)
    (history : List Event) (entry : Option Dirent) (buf : β) (history' : List Event) : Prop :=
  ∃ new, history' = history ++ new ∧
    ((∀ event ∈ new, errorOf event = none) ↔ ¬ ListingFails env dp filler history entry buf)

section Listing

variable {β : Type} {dp : UInt64} {filler : FuseFillDir β} {entry : Option Dirent} {buf : β}
  {history' : List Event}

/-- A listing that goes on after a call that has succeeded. -/
theorem listingTells_of_ok {c : Syscall} {r : c.Result} {entry' : Option Dirent} {buf' : β}
    (hok : env history c = .ok r)
    (hfails : ListingFails env dp filler history entry buf ↔
      ListingFails env dp filler (andThen env history c) entry' buf')
    (h : ListingTells env dp filler (andThen env history c) entry' buf' history') :
    ListingTells env dp filler history entry buf history' := by
  obtain ⟨new, rfl, hnew⟩ := h
  refine ⟨⟨c, env history c⟩ :: new, by simp [andThen], ?_⟩
  rw [hfails, ← hnew, hok]
  simp [errorOf]

/-- A listing that ends with a call that has succeeded. -/
theorem listingTells_last {c : Syscall} {r : c.Result} (hok : env history c = .ok r)
    (hfails : ¬ ListingFails env dp filler history entry buf) :
    ListingTells env dp filler history entry buf (andThen env history c) := by
  refine ⟨[⟨c, env history c⟩], rfl, iff_of_true ?_ hfails⟩
  simp [hok, errorOf]

/-- A listing with a call that fails. -/
theorem listingTells_of_error {c : Syscall} {e : Errno} (herror : env history c = .error e)
    (hfails : ListingFails env dp filler history entry buf)
    (h : andThen env history c <+: history') :
    ListingTells env dp filler history entry buf history' := by
  obtain ⟨new, rfl⟩ := h
  refine ⟨⟨c, env history c⟩ :: new, by simp [andThen], iff_of_false ?_ (not_not_intro hfails)⟩
  intro hok
  have hevent := hok _ List.mem_cons_self
  rw [herror] at hevent
  cases hevent

end Listing

/-- An entry that has been read already is not read again. -/
theorem next_of_entry {δ : Type} {stream : DirStream δ} {d : DirHandle δ} {entry : Dirent}
    (hd : d.entry = some entry) : d.next stream = d := by
  simp [DirHandle.next, hd]

/-- One turn on the rest of a directory whose first entry has been read, given what the other
turns tell. -/
theorem listing_turn {β : Type} {dp : UInt64} {filler : FuseFillDir β} {fuel i : ℕ}
    {d d' : DirHandle (List Event)} {buf buf' : β} {entry : Dirent}
    (ih : ∀ (d : DirHandle (List Event)) (buf : β),
      Loop.run (fun _ => readdirBody (envStream env dp) filler) fuel (i + 1) (d, buf) =
        some (d', buf') → ListingTells env dp filler d.dirPtr d.entry buf d'.dirPtr)
    (hd : d.entry = some entry)
    (h : Loop.run (fun _ => readdirBody (envStream env dp) filler) (fuel + 1) i (d, buf) =
      some (d', buf')) :
    ListingTells env dp filler d.dirPtr (some entry) buf d'.dirPtr := by
  rw [Loop.run, readdirBody] at h
  simp only [next_of_entry hd, hd] at h
  cases htell : env d.dirPtr (.telldir dp) with
  | error e =>
    -- The listing goes on with an offset of -1.
    refine listingTells_of_error htell (.telldir ⟨e, htell⟩) ?_
    have hstream : (envStream env dp).telldir d.dirPtr =
        (-1, andThen env d.dirPtr (.telldir dp)) := by
      simp [envStream, Trace.call, andThen, htell]
    simp only [hstream] at h
    cases hfiller : filler ⟨entry.name, entry.stat, -1⟩ buf with
    | mk full buf'' =>
      simp only [hfiller] at h
      cases full with
      | true =>
        simp only [if_true, Option.some.injEq, Prod.mk.injEq] at h
        obtain ⟨rfl, -⟩ := h
        exact List.prefix_rfl
      | false =>
        obtain ⟨new, hnew, -⟩ := ih _ _ h
        exact ⟨new, hnew.symm⟩
  | ok nextoff =>
    have hstream : (envStream env dp).telldir d.dirPtr =
        (nextoff, andThen env d.dirPtr (.telldir dp)) := by
      simp [envStream, Trace.call, andThen, htell]
    simp only [hstream] at h
    cases hfiller : filler ⟨entry.name, entry.stat, nextoff⟩ buf with
    | mk full buf'' =>
      simp only [hfiller] at h
      cases full with
      | true =>
        simp only [if_true, Option.some.injEq, Prod.mk.injEq] at h
        rw [← h.1]
        refine listingTells_last htell ?_
        rintro (_ | _ | hfails | ⟨hoffset, htaken, -⟩)
        · exact not_fails_of_ok htell hfails
        · obtain rfl := Except.ok.inj (htell.symm.trans hoffset)
          rw [hfiller] at htaken
          cases htaken
      | false =>
        refine listingTells_of_ok htell ⟨?_, .next htell hfiller⟩ (ih _ _ h)
        rintro (_ | _ | hfails | ⟨hoffset, htaken, hrest⟩)
        · exact absurd hfails (not_fails_of_ok htell)
        · obtain rfl := Except.ok.inj (htell.symm.trans hoffset)
          obtain ⟨-, rfl⟩ := Prod.mk.inj (hfiller.symm.trans htaken)
          exact hrest

/-- The loop of `readdir` meets an error exactly where the environment has one for it. -/
theorem listing_tells {β : Type} {dp : UInt64} {filler : FuseFillDir β} {fuel i : ℕ}
    {d d' : DirHandle (List Event)} {buf buf' : β}
    (h : Loop.run (fun _ => readdirBody (envStream env dp) filler) fuel i (d, buf) =
      some (d', buf')) :
    ListingTells env dp filler d.dirPtr d.entry buf d'.dirPtr := by
  induction fuel generalizing i d buf with
  | zero => cases h
  | succ fuel ih =>
    have hturn {d : DirHandle (List Event)} {entry : Dirent} (hd : d.entry = some entry)
        (h : Loop.run (fun _ => readdirBody (envStream env dp) filler) (fuel + 1) i (d, buf) =
          some (d', buf')) : ListingTells env dp filler d.dirPtr (some entry) buf d'.dirPtr :=
      listing_turn (fun _ _ => ih) hd h
    cases hd : d.entry with
    | some entry => exact hturn hd h
    | none =>
      cases hread : env d.dirPtr (.readdir dp) with
      | error e =>
        refine listingTells_of_error hread (.readdir ⟨e, hread⟩) ?_
        have hstream : (envStream env dp).readdir d.dirPtr =
            (none, andThen env d.dirPtr (.readdir dp)) := by
          simp [envStream, Trace.call, andThen, hread]
        simp only [Loop.run, readdirBody, DirHandle.next, hd, hstream, Option.some.injEq,
          Prod.mk.injEq] at h
        obtain ⟨rfl, -⟩ := h
        exact List.prefix_rfl
      | ok entry =>
        have hstream : (envStream env dp).readdir d.dirPtr =
            (entry, andThen env d.dirPtr (.readdir dp)) := by
          simp [envStream, Trace.call, andThen, hread]
        cases entry with
        | none =>
          simp only [Loop.run, readdirBody, DirHandle.next, hd, hstream, Option.some.injEq,
            Prod.mk.injEq] at h
          rw [← h.1]
          refine listingTells_last hread ?_
          rintro (hfails | ⟨hentry, -⟩ | _ | _)
          · exact not_fails_of_ok hread hfails
          · cases hread.symm.trans hentry
        | some entry =>
          -- The turn is that on the handle with the entry.
          have hnext : Loop.run (fun _ => readdirBody (envStream env dp) filler) (fuel + 1) i
              ({ d with dirPtr := andThen env d.dirPtr (.readdir dp), entry := some entry }, buf) =
                some (d', buf') := by
            rw [← h]
            simp only [Loop.run, readdirBody, DirHandle.next, hd, hstream]
          refine listingTells_of_ok hread ⟨?_, .entry hread⟩ (hturn rfl hnext)
          rintro (hfails | ⟨hentry, hrest⟩ | _ | _)
          · exact absurd hfails (not_fails_of_ok hread)
          · obtain rfl := Option.some.inj (Except.ok.inj (hread.symm.trans hentry))
            exact hrest

/-- `readdir` returns 0 also where a call on the stream has failed. -/
theorem readdirInto_honest_iff {β : Type} {fuel : ℕ} {dp : UInt64} {d : DirHandle Unit} {buf : β}
    {filler : FuseFillDir β} {offset : Int64} {history' : List Event}
    (h : (Prod.fst <$> readdirInto env fuel dp d buf filler offset) history =
      some (res, history')) :
    HonestAfter history res history' ↔
      ¬ ListingFails env dp filler history (if offset = d.offset then d.entry else none) buf := by
  simp only [readdirInto, Functor.map, StateT.map, bind, Option.bind_eq_some_iff, pure,
    Option.some.injEq, Prod.mk.injEq] at h
  obtain ⟨-, ⟨⟨d', buf'⟩, hrun, rfl⟩, rfl, rfl⟩ := h
  obtain ⟨new, hnew, hfails⟩ := listing_tells hrun
  have hseek : (⟨history, d.entry, d.offset⟩ : DirHandle (List Event)).seek (envStream env dp)
      offset = ⟨history, if offset = d.offset then d.entry else none, offset⟩ := by
    by_cases hoffset : offset = d.offset
    · simp [DirHandle.seek, hoffset]
    · simp [DirHandle.seek, hoffset, envStream]
  rw [hseek] at hnew hfails
  dsimp only at hnew hfails ⊢
  rw [hnew, honestAfter_append, honest_zero, hfails]

theorem preadResult_run (fd : Int32) (size : UInt64) (offset : Int64) (history : List Event) :
    (preadResult env fd size offset history).2 = andThen env history (.pread fd size offset) ∧
      (0 ≤ (preadResult env fd size offset history).1.1 ↔
        ¬ Fails env history (.pread fd size offset)) := by
  unfold andThen
  cases hread : env history (.pread fd size offset) with
  | error e =>
    have hrun : Runs (preadResult env fd size offset) history (e.result, [])
        [⟨.pread fd size offset, .error e⟩] := runs_call_bind hread (runs_pure _)
    rw [hrun]
    exact ⟨rfl, iff_of_false e.not_nonneg (not_not_intro (fails_of_error hread))⟩
  | ok r =>
    have hrun : Runs (preadResult env fd size offset) history
        (countResult r.bytes.length, r.bytes) [⟨.pread fd size offset, .ok r⟩] :=
      runs_call_bind hread (runs_pure _)
    rw [hrun]
    exact ⟨rfl, iff_of_true (countResult_nonneg r.length_le_max) (not_fails_of_ok hread)⟩

theorem pwriteFsync_run (fd : Int32) (size : UInt64) (buf : Buffer size) (offset : Int64)
    (history : List Event) :
    (pwriteFsync env fd size buf offset history).2 =
        andThen env (andThen env history (.pwrite fd size buf offset)) (.fsync fd) ∧
      (0 ≤ (pwriteFsync env fd size buf offset history).1 ↔
        ¬ Fails env history (.pwrite fd size buf offset) ∧
          ¬ Fails env (andThen env history (.pwrite fd size buf offset)) (.fsync fd)) := by
  unfold andThen
  cases hwrite : env history (.pwrite fd size buf offset) with
  | error e =>
    have hfails := fails_of_error hwrite
    cases hsync : env (history ++ [⟨.pwrite fd size buf offset, .error e⟩]) (.fsync fd) with
    | error e' =>
      have hrun : Runs (pwriteFsync env fd size buf offset) history e'.result
          [⟨.pwrite fd size buf offset, .error e⟩, ⟨.fsync fd, .error e'⟩] :=
        runs_call_bind hwrite (runs_call_bind hsync (runs_pure _))
      rw [hrun]
      exact ⟨by simp, iff_of_false e'.not_nonneg fun h => h.1 hfails⟩
    | ok _ =>
      have hrun : Runs (pwriteFsync env fd size buf offset) history e.result
          [⟨.pwrite fd size buf offset, .error e⟩, ⟨.fsync fd, .ok ()⟩] :=
        runs_call_bind hwrite (runs_call_bind hsync (runs_pure _))
      rw [hrun]
      exact ⟨by simp, iff_of_false e.not_nonneg fun h => h.1 hfails⟩
  | ok r =>
    cases hsync : env (history ++ [⟨.pwrite fd size buf offset, .ok r⟩]) (.fsync fd) with
    | error e =>
      have hrun : Runs (pwriteFsync env fd size buf offset) history e.result
          [⟨.pwrite fd size buf offset, .ok r⟩, ⟨.fsync fd, .error e⟩] :=
        runs_call_bind hwrite (runs_call_bind hsync (runs_pure _))
      rw [hrun]
      exact ⟨by simp, iff_of_false e.not_nonneg fun h => h.2 (fails_of_error hsync)⟩
    | ok _ =>
      have hrun : Runs (pwriteFsync env fd size buf offset) history (countResult r.count)
          [⟨.pwrite fd size buf offset, .ok r⟩, ⟨.fsync fd, .ok ()⟩] :=
        runs_call_bind hwrite (runs_call_bind hsync (runs_pure _))
      rw [hrun]
      exact ⟨by simp, iff_of_true (countResult_nonneg r.count_le_max)
        ⟨not_fails_of_ok hwrite, not_fails_of_ok hsync⟩⟩

/-- `local_read` with and without a handle. -/
theorem localRead_honest_iff {errno : Option Errno} {path : CString} {size : UInt64}
    {offset : Int64} {fi : Option Rpc.FuseFileInfo} {β : Type} :
    HonestRun (Prod.fst <$> localRead env rootPath (errnoValue errno) path size offset fi) history ↔
      ¬ Drops env rootPath errno history Table.local
        (.read path size offset fi : Operation β) := by
  cases fi with
  | some fi =>
    have hif : Prod.fst <$> localRead env rootPath (errnoValue errno) path size offset (some fi) =
        if fdOf fi = -1 then pure (-errnoValue errno)
        else Prod.fst <$> preadResult env (fdOf fi) size offset := by
      unfold localRead
      dsimp only
      split <;> rfl
    rw [hif]
    exact stale_honest_iff (Yields.map (preadResult_honest _ _ _))
  | none =>
    have hopened := @withOpened_honest_iff env history (Int32 × Bytes) Prod.fst
      (newPath rootPath path) rdonly (fun fd => preadResult env fd.val size offset)
      (fun e => (e.result, [])) (fun _ => rfl) fun fd => preadResult_honest _ _ _
    refine hopened.trans ?_
    simp only [(preadResult_run _ _ _ _).1, (preadResult_run _ _ _ _).2]
    rfl

/-- `local_write` with and without a handle. -/
theorem localWrite_honest_iff {errno : Option Errno} {path : CString} {size : UInt64}
    {buf : Buffer size} {offset : Int64} {fi : Option Rpc.FuseFileInfo} {β : Type} :
    HonestRun (localWrite env rootPath (errnoValue errno) path size buf offset fi) history ↔
      ¬ Drops env rootPath errno history Table.local
        (.write path size buf offset fi : Operation β) := by
  cases fi with
  | some fi => exact stale_honest_iff (pwriteFsync_honest _ _ _ _)
  | none =>
    have hopened := @withOpened_honest_iff env history Int32 id (newPath rootPath path) wronly
      (fun fd => pwriteFsync env fd.val size buf offset) Errno.result (fun _ => rfl)
      fun fd => pwriteFsync_honest _ _ _ _
    rw [id_map] at hopened
    refine hopened.trans ?_
    simp only [id, (pwriteFsync_run _ _ _ _ _).1, (pwriteFsync_run _ _ _ _ _).2, and_assoc]
    rfl

/-- A program that is always defined leaves what it computes. -/
theorem honestAfter_returns {p : M Int32} {history' : List Event}
    (h : returns p history = some (res, history')) :
    HonestAfter history res history' ↔ HonestRun p history := by
  obtain ⟨rfl, rfl⟩ := Prod.mk.inj (Option.some.inj h)
  rfl

/-- Every operation of the NFS-like table but those on directories is honest. -/
theorem namespaceOp_honest (op : NamespaceOp CString) : Yields (op.run env rootPath) Honest := by
  cases op with
  | create path mode fi => exact Yields.map (nfsCreate_honest path mode fi)
  | _ => exact attemptSync_honest _ _

theorem namespaceOp_local_honest (op : NamespaceOp CString) :
    Yields (op.runLocal env rootPath) Honest := by
  cases op with
  | create path mode fi => exact Yields.map (attemptInto_honest _ _ _)
  | mknod path mode rdev => exact localMknod_honest path mode rdev
  | _ => exact attempt_honest _

/-- **Honesty.** An operation of either table returns a value only when all its calls have
succeeded, and else the error of one that failed, exactly where it drops no outcome. -/
theorem honest_iff_not_drops {errno : Option Errno} {fuel : ℕ} {β : Type} {table : Table}
    {op : Operation β} {history' : List Event}
    (h : perform env rootPath errno fuel table op history = some (res, history')) :
    HonestAfter history res history' ↔ ¬ Drops env rootPath errno history table op := by
  have hyields {p : M Int32} (hp : Yields p Honest)
      (hreturns : returns p history = some (res, history')) : HonestAfter history res history' :=
    (honestAfter_returns hreturns).mpr (honestRun_of_yields hp history)
  cases table with
  | «local» =>
    cases op with
    | getattr => exact iff_of_true (hyields (Yields.map (attemptInto_honest _ _ _)) h) not_false
    | fgetattr => exact iff_of_true (hyields (Yields.map (attemptInto_honest _ _ _)) h) not_false
    | access => exact iff_of_true (hyields (attempt_honest _) h) not_false
    | readlink => exact iff_of_true (hyields (Yields.map (attemptInto_honest _ _ _)) h) not_false
    | opendir => exact (honestAfter_returns h).trans opendirInto_honest_iff
    | readdir => exact readdirInto_honest_iff h
    | releasedir => exact (honestAfter_returns h).trans ignore_honest_iff
    | change op => exact iff_of_true (hyields (namespaceOp_local_honest op) h) not_false
    | chmod => exact iff_of_true (hyields (attempt_honest _) h) not_false
    | chown => exact iff_of_true (hyields (attempt_honest _) h) not_false
    | truncate => exact iff_of_true (hyields (attempt_honest _) h) not_false
    | ftruncate path size fi =>
      cases fi <;> exact iff_of_true (hyields (attempt_honest _) h) not_false
    | utime => exact iff_of_true (hyields (attempt_honest _) h) not_false
    | utimens => cases h
    | «open» => exact iff_of_true (hyields (Yields.map (attemptInto_honest _ _ _)) h) not_false
    | read => exact (honestAfter_returns h).trans localRead_honest_iff
    | write => exact (honestAfter_returns h).trans localWrite_honest_iff
    | statfs => exact iff_of_true (hyields (Yields.map (attemptInto_honest _ _ _)) h) not_false
    | flush => exact (honestAfter_returns h).trans localFlush_honest_iff
    | release => exact (honestAfter_returns h).trans ignore_honest_iff
    | fsync => exact (honestAfter_returns h).trans ignore_honest_iff
  | nfs =>
    cases op with
    | getattr => exact iff_of_true (hyields (Yields.map (attemptInto_honest _ _ _)) h) not_false
    | fgetattr => exact iff_of_true (hyields (Yields.map (attemptInto_honest _ _ _)) h) not_false
    | access => exact iff_of_true (hyields (attempt_honest _) h) not_false
    | readlink => exact iff_of_true (hyields (Yields.map (attemptInto_honest _ _ _)) h) not_false
    | opendir => exact (honestAfter_returns h).trans opendirInto_honest_iff
    | readdir => exact readdirInto_honest_iff h
    | releasedir => exact iff_of_true (hyields (attempt_honest _) h) not_false
    | change op => exact iff_of_true (hyields (namespaceOp_honest op) h) not_false
    | chmod => exact iff_of_true (hyields (attempt_honest _) h) not_false
    | chown => exact iff_of_true (hyields (attempt_honest _) h) not_false
    | truncate => exact iff_of_true (hyields (attempt_honest _) h) not_false
    | ftruncate path size fi =>
      cases fi with
      | none => cases h
      | some fi => exact iff_of_true (hyields (attempt_honest _) h) not_false
    | utime => cases h
    | utimens => exact iff_of_true (hyields (attempt_honest _) h) not_false
    | «open» => exact iff_of_true (hyields (Yields.map (attemptInto_honest _ _ _)) h) not_false
    | read path size offset fi =>
      cases fi with
      | none => cases h
      | some fi => exact iff_of_true (hyields (Yields.map (preadResult_honest _ _ _)) h) not_false
    | write path size buf offset fi =>
      cases fi with
      | none => cases h
      | some fi => exact iff_of_true (hyields (nfsWrite_honest _ _ _ _) h) not_false
    | statfs => exact iff_of_true (hyields (Yields.map (attemptInto_honest _ _ _)) h) not_false
    | flush => exact iff_of_true (hyields (attempt_honest _) h) not_false
    | release => exact iff_of_true (hyields (attempt_honest _) h) not_false
    | fsync => exact iff_of_true (hyields (attempt_honest _) h) not_false

/-- A system on which the calls of `willing` succeed, but nothing can be synced. -/
def failing : Env := fun history c =>
  match c with
  | .fsync _ => .error ⟨5, by decide⟩
  | c => willing history c

/-- The `fsync` of the NFS-like table answers for the call, whether it succeeds or fails. -/
theorem honest_iff_not_drops_fsync :
    HonestAfter [] 0 [⟨.fsync 0, .ok ()⟩] ∧
      HonestAfter [] (-5) [⟨.fsync 0, .error ⟨5, by decide⟩⟩] :=
  ⟨(@honest_iff_not_drops willing ⟨[], by decide⟩ [] 0 none 0 Unit .nfs
      (.fsync 0 default) [⟨.fsync 0, .ok ()⟩] rfl).mpr not_false,
    (@honest_iff_not_drops failing ⟨[], by decide⟩ [] (-5) none 0 Unit .nfs
      (.fsync 0 default) [⟨.fsync 0, .error ⟨5, by decide⟩⟩] rfl).mpr not_false⟩

/-- The `fsync` of the local table returns 0 where the call has failed with `EIO`. -/
theorem not_always_honest :
    ¬ ∀ (env : Env) (rootPath : CString) (errno : Option Errno) (fuel : ℕ) (table : Table)
      (op : Operation Unit) (history : List Event) (res : Int32) (history' : List Event),
      perform env rootPath errno fuel table op history = some (res, history') →
        HonestAfter history res history' := by
  intro h
  have hhonest := h failing ⟨[], by decide⟩ none 0 .local (.fsync 0 default) [] 0
    [⟨.fsync 0, .error ⟨5, by decide⟩⟩] rfl
  have hok := honestAfter_append.mp hhonest
  exact not_honest (Int32.le_refl 0) List.mem_cons_self rfl hok

end RSafeFS.Local
