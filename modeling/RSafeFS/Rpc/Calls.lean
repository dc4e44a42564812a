import RSafeFS.Rpc.Messages

/-!
# Server handlers and client methods

What a handler of the server does with a request message once it is in `request_`, and
what a method of `sync_client` does before it sends its request and after it has the reply.
The transport hands every message over unchanged, so a call of a stub is a call of the
handler. Undefined behaviour is `none`.
-/

namespace RSafeFS.Rpc

variable {σ : Type}

namespace Server

variable (ops : Operations σ)

/-- `request_.path().c_str()`. -/
def path (s : Bytes) : CString := .ofMemory (cStr s)

/-- A handler whose reply holds the result alone. -/
def resultReply (entry : StateM σ Int32) : StateM σ ResultReply := do
  let res ← entry
  return { result := res }

/-- A handler that passes a `fuse_file_info` on, and back in its reply. -/
def infoReply (entry : FuseFileInfo → StateM σ (Int32 × FuseFileInfo))
    (info : StructFuseFileInfo) : StateM σ InfoReply := do
  let (res, fi) ← entry (fillFuseFileInfo default info)
  return { result := res, info := fillStructFuseFileInfo default fi }

/-- `access_data`. -/
def accessData (request : AccessRequest) : StateM σ ResultReply :=
  resultReply (ops.access (path request.path) request.mask)

/-- `readlink_data`. The whole buffer is sent back, also what lies behind the string. -/
def readlinkData (request : ReadlinkRequest) : StateM σ ReadlinkReply := do
  let reply : ReadlinkReply := default
  let (res, buf) ← ops.readlink (path request.path) request.size (.resize reply.buf request.size)
  return { reply with result := res, buf := buf.bytes }

/-- `opendir_data`. -/
def opendirData (request : InfoRequest) : StateM σ InfoReply :=
  infoReply (ops.opendir (path request.path)) request.info

/-- `releasedir_data`. -/
def releasedirData (request : InfoRequest) : StateM σ InfoReply :=
  infoReply (ops.releasedir (path request.path)) request.info

/-- `mknod_data`. -/
def mknodData (request : MknodRequest) : StateM σ ResultReply :=
  resultReply (ops.mknod (path request.path) request.mode request.rdev.toUInt64)

/-- `mkdir_data`. -/
def mkdirData (request : ModeRequest) : StateM σ ResultReply :=
  resultReply (ops.mkdir (path request.path) request.mode)

/-- `symlink_data`. -/
def symlinkData (request : FromToRequest) : StateM σ ResultReply :=
  resultReply (ops.symlink (path request.from) (path request.to))

/-- `unlink_data`. -/
def unlinkData (request : PathRequest) : StateM σ ResultReply :=
  resultReply (ops.unlink (path request.path))

/-- `rmdir_data`. -/
def rmdirData (request : PathRequest) : StateM σ ResultReply :=
  resultReply (ops.rmdir (path request.path))

/-- `rename_data`. -/
def renameData (request : FromToRequest) : StateM σ ResultReply :=
  resultReply (ops.rename (path request.from) (path request.to))

/-- `link_data`. -/
def linkData (request : FromToRequest) : StateM σ ResultReply :=
  resultReply (ops.link (path request.from) (path request.to))

/-- `chmod_data`. -/
def chmodData (request : ModeRequest) : StateM σ ResultReply :=
  resultReply (ops.chmod (path request.path) request.mode)

/-- `chown_data`. -/
def chownData (request : ChownRequest) : StateM σ ResultReply :=
  resultReply (ops.chown (path request.path) request.uid request.gid)

/-- `truncate_data`. The size passes through a `size_t`. -/
def truncateData (request : TruncateRequest) : StateM σ ResultReply :=
  let size : UInt64 := request.size.toUInt64
  resultReply (ops.truncate (path request.path) size.toInt64)

/-- `ftruncate_data`. The size passes through a `size_t`. -/
def ftruncateData (request : FtruncateRequest) : StateM σ InfoReply :=
  let size : UInt64 := request.size.toUInt64
  infoReply (ops.ftruncate (path request.path) size.toInt64) request.info

/-- `utimens_data`. -/
def utimensData (request : UtimensRequest) : StateM σ ResultReply :=
  resultReply (ops.utimens (path request.path) (fillTimespec default request.tim0)
    (fillTimespec default request.tim1))

/-- `create_data`. -/
def createData (request : CreateRequest) : StateM σ InfoReply :=
  infoReply (ops.create (path request.path) request.mode) request.info

/-- `open_data`. -/
def openData (request : InfoRequest) : StateM σ InfoReply :=
  infoReply (ops.open (path request.path)) request.info

/-- `flush_data`. -/
def flushData (request : InfoRequest) : StateM σ InfoReply :=
  infoReply (ops.flush (path request.path)) request.info

/-- `release_data`. -/
def releaseData (request : InfoRequest) : StateM σ InfoReply :=
  infoReply (ops.release (path request.path)) request.info

/-- `fsync_data`. -/
def fsyncData (request : FsyncRequest) : StateM σ InfoReply :=
  infoReply (ops.fsync (path request.path) request.isdatasync) request.info

/-- What `read_data` and `stream_read_data` do with a request. The stream handler keeps its
`reply_` from one message to the next, so that the buffer it resizes may hold the bytes of
an earlier read. -/
def serveRead (reply : ReadReply) (request : ReadRequest) : StateM σ ReadReply := do
  let fi := fillFuseFileInfo default request.info
  let r ← ops.read (path request.path) request.size (.resize reply.buf request.size)
    request.offset fi
  return { reply with
    buf := r.buf.bytes
    info := fillStructFuseFileInfo reply.info r.fi
    result := r.res }

/-- What `write_data` and `stream_write_data` do with a request. The entry reads `size` bytes
from the string in the message, however long that is. -/
def serveWrite (reply : InfoReply) (request : WriteRequest) : StateM σ (Option InfoReply) := do
  let fi := fillFuseFileInfo default request.info
  match Buffer.at? (cStr request.buf) request.size with
  | none => return none
  | some buf =>
    let (res, fi) ← ops.write (path request.path) request.size buf request.offset fi
    return some { reply with info := fillStructFuseFileInfo reply.info fi, result := res }

/-- `read_data`: every call has a handler of its own. -/
def readData (request : ReadRequest) : StateM σ ReadReply := serveRead ops default request

/-- `write_data`. -/
def writeData (request : WriteRequest) : StateM σ (Option InfoReply) :=
  serveWrite ops default request

end Server

namespace SyncClient

variable (ops : Operations σ)

/-- A method that returns the result of the reply. -/
def result (send : StateM σ ResultReply) : StateM σ Int32 := do
  let reply ← send
  return reply.result

/-- A method that sends a `fuse_file_info` and fills it from the reply. -/
def withInfo (send : StructFuseFileInfo → StateM σ InfoReply) (fi : FuseFileInfo) :
    StateM σ (Int32 × FuseFileInfo) := do
  let reply ← send (fillStructFuseFileInfo default fi)
  return (reply.result, fillFuseFileInfo fi reply.info)

def access (path : CString) (mask : Int32) : StateM σ Int32 :=
  result (Server.accessData ops { path := path.bytes, mask })

/-- `sync_client::readlink`, which copies `size` bytes whatever the result. -/
def readlink (path : CString) (size : UInt64) (buf : Buffer size) :
    StateM σ (Option (Int32 × Buffer size)) := do
  let reply ← Server.readlinkData ops { path := path.bytes, size }
  return (buf.memcpy (cStr reply.buf) size.toNat).map fun buf => (reply.result, buf)

def opendir (path : CString) (fi : FuseFileInfo) : StateM σ (Int32 × FuseFileInfo) :=
  withInfo (fun info => Server.opendirData ops { path := path.bytes, info }) fi

def releasedir (path : CString) (fi : FuseFileInfo) : StateM σ (Int32 × FuseFileInfo) :=
  withInfo (fun info => Server.releasedirData ops { path := path.bytes, info }) fi

def mknod (path : CString) (mode : UInt32) (rdev : UInt64) : StateM σ Int32 :=
  result (Server.mknodData ops { path := path.bytes, mode, rdev := rdev.toInt64 })

def mkdir (path : CString) (mode : UInt32) : StateM σ Int32 :=
  result (Server.mkdirData ops { path := path.bytes, mode })

def symlink («from» «to» : CString) : StateM σ Int32 :=
  result (Server.symlinkData ops { «from» := from.bytes, «to» := to.bytes })

def unlink (path : CString) : StateM σ Int32 :=
  result (Server.unlinkData ops { path := path.bytes })

def rmdir (path : CString) : StateM σ Int32 :=
  result (Server.rmdirData ops { path := path.bytes })

def rename («from» «to» : CString) : StateM σ Int32 :=
  result (Server.renameData ops { «from» := from.bytes, «to» := to.bytes })

def link («from» «to» : CString) : StateM σ Int32 :=
  result (Server.linkData ops { «from» := from.bytes, «to» := to.bytes })

def chmod (path : CString) (mode : UInt32) : StateM σ Int32 :=
  result (Server.chmodData ops { path := path.bytes, mode })

def chown (path : CString) (uid gid : UInt32) : StateM σ Int32 :=
  result (Server.chownData ops { path := path.bytes, uid, gid })

def truncate (path : CString) (size : Int64) : StateM σ Int32 :=
  result (Server.truncateData ops { path := path.bytes, size })

def ftruncate (path : CString) (size : Int64) (fi : FuseFileInfo) :
    StateM σ (Int32 × FuseFileInfo) :=
  withInfo (fun info => Server.ftruncateData ops { path := path.bytes, size, info }) fi

def utimens (path : CString) (ts0 ts1 : Timespec) : StateM σ Int32 :=
  result (Server.utimensData ops {
    path := path.bytes
    tim0 := fillStructTimespec default ts0
    tim1 := fillStructTimespec default ts1 })

/-- `sync_client::create`. The streams that it creates are left to the model of streams. -/
def create (path : CString) (mode : UInt32) (fi : FuseFileInfo) :
    StateM σ (Int32 × FuseFileInfo) :=
  withInfo (fun info => Server.createData ops { path := path.bytes, mode, info }) fi

/-- `sync_client::open`. The streams that it creates are left to the model of streams. -/
def «open» (path : CString) (fi : FuseFileInfo) : StateM σ (Int32 × FuseFileInfo) :=
  withInfo (fun info => Server.openData ops { path := path.bytes, info }) fi

def flush (path : CString) (fi : FuseFileInfo) : StateM σ (Int32 × FuseFileInfo) :=
  withInfo (fun info => Server.flushData ops { path := path.bytes, info }) fi

/-- `sync_client::release`. The streams that it removes are left to the model of streams. -/
def release (path : CString) (fi : FuseFileInfo) : StateM σ (Int32 × FuseFileInfo) :=
  withInfo (fun info => Server.releaseData ops { path := path.bytes, info }) fi

def fsync (path : CString) (isdatasync : Int32) (fi : FuseFileInfo) :
    StateM σ (Int32 × FuseFileInfo) :=
  withInfo (fun info => Server.fsyncData ops { path := path.bytes, isdatasync, info }) fi

/-- `sync_client::read`. The request is sent by `send`, as a call of its own or on a stream;
what it does with the reply is the same. -/
def read (send : ReadRequest → StateM σ ReadReply) (path : CString) (size : UInt64)
    (buf : Buffer size) (offset : Int64) (fi : FuseFileInfo) :
    StateM σ (Option (Int32 × Buffer size × FuseFileInfo)) := do
  let reply ← send { path := path.bytes, size, offset, info := fillStructFuseFileInfo default fi }
  let res := reply.result
  let copied := if 0 < res then buf.memcpy (cStr reply.buf) res.toInt.toNat else some buf
  return copied.map fun buf => (res, buf, fillFuseFileInfo fi reply.info)

/-- `sync_client::write`. The flush flag marks a synchronous request. -/
def write (send : WriteRequest → StateM σ (Option InfoReply)) (path : CString) (size : UInt64)
    (buf : Buffer size) (offset : Int64) (fi : FuseFileInfo) :
    StateM σ (Option (Int32 × FuseFileInfo)) := do
  let fi := { fi with flush := 1 }
  let reply ← send {
    path := path.bytes
    buf := buf.bytes
    size
    offset
    info := fillStructFuseFileInfo default fi }
  return reply.map fun reply => (reply.result, fillFuseFileInfo fi reply.info)

end SyncClient

end RSafeFS.Rpc
