import RSafeFS.AsyncClient.WriteBehind

/-!
# One caller on either client

The operations that one caller issues, one after the other, and what they do on the
synchronous client, where each is a request to the server, and on the asynchronous one,
which overrides `write`, `flush` and `fsync` and inherits the others. The server is one
with the local layer: its operations are those of POSIX files.
-/

namespace RSafeFS.AsyncClient

open ByteFile

/-- The files of the server: where path names and open handles lead to, and the contents. -/
structure FileTable where
  names : PathName → Option ℕ
  handles : ℕ → Option ℕ
  files : ℕ → Bytes

namespace FileTable

/-- The file of a request through a handle. The path plays no part. -/
def fileOf (w : FileTable) (_ : PathName) (fi : FuseFileInfo) : Option ℕ := w.handles fi.fh

/-- `local_write`. -/
def write (w : FileTable) (r : WriteRequest) : ℤ × FileTable :=
  match w.handles r.info.fh with
  | none => (-9, w)
  | some f =>
    (toInt r.buf.length,
      { w with files := Function.update w.files f (pwrite (w.files f) r.offset r.buf) })

/-- `local_read`. -/
def read (w : FileTable) (size offset : ℕ) (fi : FuseFileInfo) : ℤ × Bytes :=
  match w.handles fi.fh with
  | none => (-9, [])
  | some f => (toInt (pread (w.files f) size offset).length, pread (w.files f) size offset)

/-- Set the length of a file, or fail if it was not found. -/
def setSize (w : FileTable) (found : Option ℕ) (error : ℤ) (size : ℕ) : ℤ × FileTable :=
  match found with
  | none => (error, w)
  | some f =>
    (0, { w with files := Function.update w.files f (ByteFile.truncate (w.files f) size) })

/-- `local_truncate`. -/
def truncate (w : FileTable) (path : PathName) (size : ℕ) : ℤ × FileTable :=
  w.setSize (w.names path) (-2) size

/-- `local_ftruncate`. -/
def ftruncate (w : FileTable) (size : ℕ) (fi : FuseFileInfo) : ℤ × FileTable :=
  w.setSize (w.handles fi.fh) (-9) size

/-- `local_getattr`, for attributes that the file and its contents determine. -/
def getattr (w : FileTable) (stat : ℕ → Bytes → Stat) (path : PathName) : ℤ × Option Stat :=
  match w.names path with
  | none => (-2, none)
  | some f => (0, some (stat f (w.files f)))

/-- `local_fgetattr`. -/
def fgetattr (w : FileTable) (stat : ℕ → Bytes → Stat) (fi : FuseFileInfo) : ℤ × Option Stat :=
  match w.handles fi.fh with
  | none => (-9, none)
  | some f => (0, some { stat f (w.files f) with blksize := 0 })

/-- `local_flush`, which closes a duplicate of the handle. -/
def flush (w : FileTable) (fi : FuseFileInfo) : ℤ :=
  if w.handles fi.fh = none then -9 else 0

/-- `local_release`. -/
def release (w : FileTable) (fi : FuseFileInfo) : FileTable :=
  { w with handles := Function.update w.handles fi.fh none }

end FileTable

/-- The server with the local layer, for the asynchronous client's own requests. -/
def fileServer : Server FileTable where
  write r w := w.write r
  flush _ fi w := (w.flush fi, w)
  fsync _ _ _ w := (0, w)

/-- The operations that a caller issues. -/
inductive Request where
  | write (b : Block)
  | read (path : PathName) (size offset : ℕ) (fi : FuseFileInfo)
  | truncate (path : PathName) (size : ℕ)
  | ftruncate (path : PathName) (size : ℕ) (fi : FuseFileInfo)
  | getattr (path : PathName)
  | fgetattr (path : PathName) (fi : FuseFileInfo)
  | flush (path : PathName) (fi : FuseFileInfo)
  | fsync (path : PathName) (isdatasync : ℤ) (fi : FuseFileInfo)
  | release (path : PathName) (fi : FuseFileInfo)
  deriving DecidableEq, Repr

/-- What an operation gives back to its caller. -/
inductive Reply where
  | status (res : ℤ)
  | data (res : ℤ) (buf : Bytes)
  | attr (res : ℤ) (stbuf : Option Stat)
  deriving DecidableEq, Repr

/-- The operation on the synchronous client: one request to the server. A `write` marks
itself as synchronous in its `fuse_file_info`. -/
def Request.exec (stat : ℕ → Bytes → Stat) (w : FileTable) : Request → Reply × FileTable
  | .write b =>
    let (res, w) := w.write { b.request with info := { b.fi with flush := 1 } }
    (.status res, w)
  | .read _ size offset fi =>
    let (res, buf) := w.read size offset fi
    (.data res buf, w)
  | .truncate path size =>
    let (res, w) := w.truncate path size
    (.status res, w)
  | .ftruncate _ size fi =>
    let (res, w) := w.ftruncate size fi
    (.status res, w)
  | .getattr path =>
    let (res, stbuf) := w.getattr stat path
    (.attr res stbuf, w)
  | .fgetattr _ fi =>
    let (res, stbuf) := w.fgetattr stat fi
    (.attr res stbuf, w)
  | .flush _ fi => (.status (w.flush fi), w)
  | .fsync _ _ _ => (.status 0, w)
  | .release _ fi => (.status 0, w.release fi)

/-- The server after a sequence of operations on the synchronous client. -/
def syncRun (stat : ℕ → Bytes → Stat) (w : FileTable) (requests : List Request) : FileTable :=
  requests.foldl (fun w r => (r.exec stat w).2) w

/-- A caller of the asynchronous client: the client and the server, the operations still to
issue, and those issued with the replies of the inherited ones. The caller's thread is 0. -/
structure Session where
  core : State FileTable
  todo : List Request
  history : List (Request × Option Reply)

/-- The operations issued so far. -/
def Session.issued (s : Session) : List Request := s.history.map Prod.fst

/-- The step of the pipeline that an overridden operation begins with. -/
def Request.firstStep : Request → Option Action
  | .write b => some (.writeLock 0 b)
  | .flush path fi => some (.flushSchedule 0 (.flush path fi))
  | .fsync path isdatasync fi => some (.flushSchedule 0 (.fsync path isdatasync fi))
  | _ => none

/-- Issue an operation. An inherited one goes to the server at once. -/
def Session.issue (config : ClientConfig) (stat : ℕ → Bytes → Stat) (s : Session) (r : Request)
    (todo : List Request) : Option Session :=
  match r.firstStep with
  | some a => (s.core.step config fileServer a).map fun core =>
      ⟨core, todo, s.history ++ [(r, none)]⟩
  | none =>
    let (reply, server) := r.exec stat s.core.server
    some ⟨{ s.core with server }, todo, s.history ++ [(r, some reply)]⟩

/-- A step that begins no operation and is not another caller's. -/
def Action.continues : Action → Bool
  | .writeLock _ _ | .flushSchedule _ _ => false
  | .writeCheck thread | .writeGet thread | .writeAppend thread | .flushGet thread
  | .flushReturn thread _ => thread == 0
  | _ => true

/-- The steps of a session: the caller issues its next operation, or the pipeline moves. -/
inductive SessionAction where
  | issue
  | pipeline (a : Action)
  deriving DecidableEq, Repr

/-- One step of a session. The caller issues an operation when the last one has returned. -/
def Session.step (config : ClientConfig) (stat : ℕ → Bytes → Stat) (s : Session) :
    SessionAction → Option Session
  | .issue =>
    match s.todo with
    | r :: todo => if s.core.pcs 0 = .idle then s.issue config stat r todo else none
    | [] => none
  | .pipeline a =>
    if a.continues then (s.core.step config fileServer a).map fun core => { s with core } else none

/-- The start of a session. -/
def Session.initial (w : FileTable) (requests : List Request) : Session :=
  ⟨State.initial w, requests, []⟩

/-- No transport fails in the step. -/
def SessionAction.Intact : SessionAction → Prop
  | .issue => True
  | .pipeline a => a.Intact

end RSafeFS.AsyncClient
