import RSafeFS.Rpc.Calls
import RSafeFS.Lib.Transition

/-!
# Transparency of remote calls

A method of `sync_client` does what the entry of the server's table does: the entry is
called with the arguments of the method, and its results come back unchanged. Reads and
writes may also travel on a stream, whose handler answers one message after the other with
the same `reply_`.
-/

namespace RSafeFS.Rpc

variable {σ : Type} {ops : Operations σ}

/-- What happens while a stream is open: a message arrives on it, or another call changes
the state that the operations act on. -/
inductive StreamEvent (Request σ : Type) where
  | message (request : Request)
  | elsewhere (w : σ)

namespace Server

/-- One event of a stream. The state holds `reply_` of the handler. -/
def streamStep {Request Reply : Type} (serve : Reply → Request → StateM σ (Option Reply))
    (s : Reply × σ) : StreamEvent Request σ → Option (Reply × σ)
  | .message request =>
    match serve s.1 request s.2 with
    | (none, _) => none
    | (some reply, w) => some (reply, w)
  | .elsewhere w => some (s.1, w)

/-- `stream_read_data`. -/
def streamReadData (ops : Operations σ) :
    ReadReply × σ → StreamEvent ReadRequest σ → Option (ReadReply × σ) :=
  streamStep fun reply request => some <$> serveRead ops reply request

/-- `stream_write_data`. -/
def streamWriteData (ops : Operations σ) :
    InfoReply × σ → StreamEvent WriteRequest σ → Option (InfoReply × σ) :=
  streamStep (serveWrite ops)

end Server

/-- A read that is sent by `send` calls the entry once, with the arguments of the client,
returns its result and leaves its `fuse_file_info`. On success the buffer of the client
starts with the bytes that the entry stored; the rest of it is left as it was. -/
def ReadTransparent (ops : Operations σ) (send : ReadRequest → StateM σ ReadReply) (w : σ) :
    Prop :=
  ∀ path size (buf : Buffer size) offset fi, ∃ given after : Buffer size,
    let served := ops.read path size given offset fi w
    let count := served.1.res.toInt.toNat
    SyncClient.read send path size buf offset fi w =
        (some (served.1.res, after, served.1.fi), served.2) ∧
      after.bytes.take count = served.1.buf.bytes.take count ∧
      after.bytes.drop count = buf.bytes.drop count

/-- A write that is sent by `send` calls the entry once, with the arguments of the client
and the flush flag set, returns its result and leaves its `fuse_file_info`. -/
def WriteTransparent (ops : Operations σ) (send : WriteRequest → StateM σ (Option InfoReply))
    (w : σ) : Prop :=
  ∀ path size (buf : Buffer size) offset fi,
    let served := ops.write path size buf offset { fi with flush := 1 } w
    SyncClient.write send path size buf offset fi w = (some served.1, served.2)

/-- Every method does what the entry of the server does. -/
structure Transparent (ops : Operations σ) : Prop where
  access : ∀ path mask, SyncClient.access ops path mask = ops.access path mask
  readlink : ∀ path size buf, ∃ given,
    SyncClient.readlink ops path size buf = some <$> ops.readlink path size given
  opendir : ∀ path fi, SyncClient.opendir ops path fi = ops.opendir path fi
  releasedir : ∀ path fi, SyncClient.releasedir ops path fi = ops.releasedir path fi
  mknod : ∀ path mode rdev, SyncClient.mknod ops path mode rdev = ops.mknod path mode rdev
  mkdir : ∀ path mode, SyncClient.mkdir ops path mode = ops.mkdir path mode
  symlink : ∀ «from» «to», SyncClient.symlink ops «from» «to» = ops.symlink «from» «to»
  unlink : ∀ path, SyncClient.unlink ops path = ops.unlink path
  rmdir : ∀ path, SyncClient.rmdir ops path = ops.rmdir path
  rename : ∀ «from» «to», SyncClient.rename ops «from» «to» = ops.rename «from» «to»
  link : ∀ «from» «to», SyncClient.link ops «from» «to» = ops.link «from» «to»
  chmod : ∀ path mode, SyncClient.chmod ops path mode = ops.chmod path mode
  chown : ∀ path uid gid, SyncClient.chown ops path uid gid = ops.chown path uid gid
  truncate : ∀ path size, SyncClient.truncate ops path size = ops.truncate path size
  ftruncate : ∀ path size fi, SyncClient.ftruncate ops path size fi = ops.ftruncate path size fi
  utimens : ∀ path ts0 ts1, SyncClient.utimens ops path ts0 ts1 = ops.utimens path ts0 ts1
  create : ∀ path mode fi, SyncClient.create ops path mode fi = ops.create path mode fi
  «open» : ∀ path fi, SyncClient.open ops path fi = ops.open path fi
  flush : ∀ path fi, SyncClient.flush ops path fi = ops.flush path fi
  release : ∀ path fi, SyncClient.release ops path fi = ops.release path fi
  fsync : ∀ path isdatasync fi,
    SyncClient.fsync ops path isdatasync fi = ops.fsync path isdatasync fi
  read : ∀ w, ReadTransparent ops (Server.readData ops) w
  write : ∀ w, WriteTransparent ops (Server.writeData ops) w
  streamRead : ∀ w₀ earlier reply w,
    Transition.run (Server.streamReadData ops) (default, w₀) earlier = some (reply, w) →
    ReadTransparent ops (Server.serveRead ops reply) w
  streamWrite : ∀ w₀ earlier reply w,
    Transition.run (Server.streamWriteData ops) (default, w₀) earlier = some (reply, w) →
    WriteTransparent ops (Server.serveWrite ops reply) w

/-- The path that a handler takes from a request is the one that the client put there. -/
@[simp] theorem Server.path_bytes (path : CString) : Server.path path.bytes = path :=
  path.ofMemory_cStr

/-- A result comes back unchanged. -/
@[simp] theorem SyncClient.result_resultReply (entry : StateM σ Int32) :
    SyncClient.result (Server.resultReply entry) = entry := by
  simp [SyncClient.result, Server.resultReply]

/-- A `fuse_file_info` reaches the entry unchanged, and comes back as the entry left it. -/
@[simp] theorem SyncClient.withInfo_infoReply
    (entry : FuseFileInfo → StateM σ (Int32 × FuseFileInfo)) (fi : FuseFileInfo) :
    SyncClient.withInfo (Server.infoReply entry) fi = entry fi := by
  simp [SyncClient.withInfo, Server.infoReply]

/-- A copy of the whole buffer of another side replaces the buffer. -/
theorem Buffer.memcpy_all {size : UInt64} (dest src : Buffer size) :
    dest.memcpy (cStr src.bytes) size.toNat = some src := by
  obtain ⟨copied, hcopied, hbytes⟩ := dest.memcpy_cStr src le_rfl
  have htake : src.bytes.take size.toNat = src.bytes := by simp [← src.length_bytes]
  have hdrop : dest.bytes.drop size.toNat = [] := by simp [← dest.length_bytes]
  rw [htake, hdrop, List.append_nil] at hbytes
  rw [hcopied, Buffer.ext hbytes]

/-- The buffer that `readlink` leaves is the one of the entry, its string included. -/
theorem readlink_transparent (path : CString) (size : UInt64) (buf : Buffer size) :
    SyncClient.readlink ops path size buf =
      some <$> ops.readlink path size (.resize [] size) := by
  simp [SyncClient.readlink, Server.readlinkData, Buffer.memcpy_all, default]

/-- What `sync_client::read` copies is within both buffers, and is what the entry stored. -/
theorem ReadResult.copied {size : UInt64} (r : ReadResult size) (buf : Buffer size) :
    ∃ after : Buffer size,
      (if 0 < r.res then buf.memcpy (cStr r.buf.bytes) r.res.toInt.toNat else some buf) =
        some after ∧
      after.bytes = r.buf.bytes.take r.res.toInt.toNat ++ buf.bytes.drop r.res.toInt.toNat := by
  have hle := r.res_le
  have hcount : r.res.toInt.toNat ≤ size.toNat := by omega
  split
  · next hpos => exact buf.memcpy_cStr r.buf hcount
  · next hpos =>
    rw [Int32.lt_iff_toInt_lt] at hpos
    have hzero : r.res.toInt.toNat = 0 := by
      simp at hpos
      omega
    exact ⟨buf, rfl, by simp [hzero]⟩

/-- A read calls the entry with the arguments of the client and a buffer that may hold bytes
of an earlier reply. -/
theorem SyncClient.read_serveRead (reply : ReadReply) (path : CString) (size : UInt64)
    (buf : Buffer size) (offset : Int64) (fi : FuseFileInfo) (w : σ) :
    SyncClient.read (Server.serveRead ops reply) path size buf offset fi w =
      let served := ops.read path size (.resize reply.buf size) offset fi w
      ((if 0 < served.1.res then
          buf.memcpy (cStr served.1.buf.bytes) served.1.res.toInt.toNat
        else some buf).map fun after => (served.1.res, after, served.1.fi), served.2) := by
  simp only [SyncClient.read, Server.serveRead, Server.path_bytes,
    fillFuseFileInfo_fillStructFuseFileInfo, bind_assoc, pure_bind]
  rfl

/-- Whatever is left in `reply_`, a read is answered as the entry answers it. -/
theorem readTransparent_serveRead (ops : Operations σ) (reply : ReadReply) (w : σ) :
    ReadTransparent ops (Server.serveRead ops reply) w := by
  intro path size buf offset fi
  let served := ops.read path size (.resize reply.buf size) offset fi w
  obtain ⟨after, hafter, hbytes⟩ := served.1.copied buf
  have hlength : (served.1.buf.bytes.take served.1.res.toInt.toNat).length =
      served.1.res.toInt.toNat := by
    have hle := served.1.res_le
    rw [List.length_take, served.1.buf.length_bytes]
    omega
  refine ⟨.resize reply.buf size, after, ?_, ?_, ?_⟩
  · rw [SyncClient.read_serveRead]
    exact Prod.ext (congrArg (Option.map _) hafter) rfl
  · rw [hbytes]
    exact List.take_left' hlength
  · rw [hbytes]
    exact List.drop_left' hlength

/-- Whatever is left in `reply_`, a write is answered as the entry answers it. -/
theorem writeTransparent_serveWrite (ops : Operations σ) (reply : InfoReply) (w : σ) :
    WriteTransparent ops (Server.serveWrite ops reply) w := by
  intro path size buf offset fi
  simp [SyncClient.write, Server.serveWrite]
  rfl

/-- **Transparency.** Every method of `sync_client` returns what the entry of the server
returned, called with the arguments of the method; reads and writes also on a stream, after
any earlier messages. -/
theorem rpc_transparent (ops : Operations σ) : Transparent ops where
  access path mask := by simp [SyncClient.access, Server.accessData]
  readlink path size buf := ⟨_, readlink_transparent path size buf⟩
  opendir path fi := by simp [SyncClient.opendir, Server.opendirData]
  releasedir path fi := by simp [SyncClient.releasedir, Server.releasedirData]
  mknod path mode rdev := by simp [SyncClient.mknod, Server.mknodData]
  mkdir path mode := by simp [SyncClient.mkdir, Server.mkdirData]
  symlink «from» «to» := by simp [SyncClient.symlink, Server.symlinkData]
  unlink path := by simp [SyncClient.unlink, Server.unlinkData]
  rmdir path := by simp [SyncClient.rmdir, Server.rmdirData]
  rename «from» «to» := by simp [SyncClient.rename, Server.renameData]
  link «from» «to» := by simp [SyncClient.link, Server.linkData]
  chmod path mode := by simp [SyncClient.chmod, Server.chmodData]
  chown path uid gid := by simp [SyncClient.chown, Server.chownData]
  truncate path size := by simp [SyncClient.truncate, Server.truncateData]
  ftruncate path size fi := by simp [SyncClient.ftruncate, Server.ftruncateData]
  utimens path ts0 ts1 := by simp [SyncClient.utimens, Server.utimensData]
  create path mode fi := by simp [SyncClient.create, Server.createData]
  «open» path fi := by simp [SyncClient.open, Server.openData]
  flush path fi := by simp [SyncClient.flush, Server.flushData]
  release path fi := by simp [SyncClient.release, Server.releaseData]
  fsync path isdatasync fi := by simp [SyncClient.fsync, Server.fsyncData]
  read w := readTransparent_serveRead ops default w
  write w := writeTransparent_serveWrite ops default w
  streamRead _ _ reply w _ := readTransparent_serveRead ops reply w
  streamWrite _ _ reply w _ := writeTransparent_serveWrite ops reply w

end RSafeFS.Rpc
