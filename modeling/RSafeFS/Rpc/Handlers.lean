import RSafeFS.Fuse
import RSafeFS.Lib.Transition

/-!
# Handlers of the server

The server answers calls with objects of 35 `call_data` classes. An object asks a completion
queue for one thing at a time: for a call, for the next message of its stream, or that a
reply be sent. When the queue reports that this is done, a polling thread runs `proceed` on
the object, which asks for the next thing or deletes the object. Objects share nothing, so
that threads may be taken to run `proceed` one after the other, in any order.
-/

namespace RSafeFS.Rpc

/-- The RPCs with a single request and a single reply, in the order of `server::run`. -/
inductive UnaryMethod where
  | getattr | fgetattr | access | readlink | opendir | readdir | releasedir | mknod | mkdir
  | symlink | unlink | rmdir | rename | link | chmod | chown | truncate | ftruncate | utimens
  | create | «open» | read | write | statfs | flush | release | fsync | fallocate | setxattr
  | getxattr | listxattr | removexattr
  deriving DecidableEq, Repr

/-- The RPCs whose requests and replies are streams. -/
inductive BidiMethod where
  | streamRead | streamWrite
  deriving DecidableEq, Repr

/-- An RPC of the service, which names the class of its handlers. -/
inductive Method where
  | unary (method : UnaryMethod)
  | bidiStream (method : BidiMethod)
  | acStreamWrite
  deriving DecidableEq, Repr

/-- The entry of `operations_` that the handlers of a unary RPC call. -/
def UnaryMethod.op : UnaryMethod → Op
  | .getattr => .getattr
  | .fgetattr => .fgetattr
  | .access => .access
  | .readlink => .readlink
  | .opendir => .opendir
  | .readdir => .readdir
  | .releasedir => .releasedir
  | .mknod => .mknod
  | .mkdir => .mkdir
  | .symlink => .symlink
  | .unlink => .unlink
  | .rmdir => .rmdir
  | .rename => .rename
  | .link => .link
  | .chmod => .chmod
  | .chown => .chown
  | .truncate => .truncate
  | .ftruncate => .ftruncate
  | .utimens => .utimens
  | .create => .create
  | .open => .open
  | .read => .read
  | .write => .write
  | .statfs => .statfs
  | .flush => .flush
  | .release => .release
  | .fsync => .fsync
  | .fallocate => .fallocate
  | .setxattr => .setxattr
  | .getxattr => .getxattr
  | .listxattr => .listxattr
  | .removexattr => .removexattr

/-- The entry that the handlers of a stream call for each message. -/
def BidiMethod.op : BidiMethod → Op
  | .streamRead => .read
  | .streamWrite => .write

/-- The entry that the handlers of an RPC call. -/
def Method.op : Method → Op
  | .unary method => method.op
  | .bidiStream method => method.op
  | .acStreamWrite => .write

/-- `unary_call_data::call_status`. -/
inductive UnaryStatus where
  | process | finished
  deriving DecidableEq, Repr

/-- `bidi_stream_call_data::call_status`. -/
inductive BidiStatus where
  | create | read | write | finished
  deriving DecidableEq, Repr

/-- `ac_stream_write_data::call_status`. -/
inductive AcStatus where
  | create | read | finished
  deriving DecidableEq, Repr

/-- An object of a `call_data` class: its class and its `call_status_`. -/
inductive CallData where
  | unary (method : UnaryMethod) (status : UnaryStatus)
  | bidiStream (method : BidiMethod) (status : BidiStatus)
  | acStreamWrite (status : AcStatus)
  deriving DecidableEq, Repr

/-- The class of an object. -/
def CallData.method : CallData → Method
  | .unary method _ => .unary method
  | .bidiStream method _ => .bidiStream method
  | .acStreamWrite _ => .acStreamWrite

/-- Whether the object belongs to a `unary_call_data` class. -/
def CallData.isUnary : CallData → Bool
  | .unary _ _ => true
  | _ => false

/-- An object as its constructor leaves it. -/
def CallData.new : Method → CallData
  | .unary method => .unary method .process
  | .bidiStream method => .bidiStream method .create
  | .acStreamWrite => .acStreamWrite .create

/-- What an object can wait for: a call (`Request…`, as its constructor asks), a message
(`Read`), or that a message or the end of the call is sent (`Write`, `Finish`). -/
inductive Pending where
  | request | read | write | finish
  deriving DecidableEq, Repr

/-- What a run of `proceed` does: the class of the handler that it makes, the entry of
`operations_` that it calls with the contents of `request_`, and its new status with what
it asks for, unless it deletes the object. -/
structure Proceeded where
  armed : Option Method
  invoked : Option Op
  next : Option (CallData × Pending)

/-- `proceed`. The unary handlers do not look at `ok`. -/
def CallData.proceed : CallData → Bool → Proceeded
  | .unary method .process, _ =>
    ⟨some (.unary method), some method.op, some (.unary method .finished, .finish)⟩
  | .unary _ .finished, _ => ⟨none, none, none⟩
  | .bidiStream method .create, _ =>
    ⟨some (.bidiStream method), none, some (.bidiStream method .read, .read)⟩
  | .bidiStream method .read, true =>
    ⟨none, some method.op, some (.bidiStream method .write, .write)⟩
  | .bidiStream method .read, false => ⟨none, none, some (.bidiStream method .finished, .finish)⟩
  | .bidiStream method .write, _ => ⟨none, none, some (.bidiStream method .read, .read)⟩
  | .bidiStream _ .finished, _ => ⟨none, none, none⟩
  | .acStreamWrite .create, _ =>
    ⟨some .acStreamWrite, none, some (.acStreamWrite .read, .read)⟩
  | .acStreamWrite .read, true => ⟨none, some .write, some (.acStreamWrite .read, .read)⟩
  | .acStreamWrite .read, false => ⟨none, none, some (.acStreamWrite .finished, .finish)⟩
  | .acStreamWrite .finished, _ => ⟨none, none, none⟩

/-- A handler on its queue, with the message in `request_` and what it waits for. -/
structure Handler (M : Type) where
  data : CallData
  queue : ℕ
  request : M
  pending : Pending

/-- A completion brings a message where a message was asked for, which the request for a
unary call does as well. -/
def Handler.awaitsMessage {M : Type} (h : Handler M) : Bool :=
  h.pending = .read || h.pending = .request && h.data.isUnary

/-- A call that a handler accepted. -/
structure Call where
  handler : ℕ
  method : Method
  queue : ℕ
  deriving DecidableEq, Repr

/-- A message that a handler received. -/
structure Receipt (M : Type) where
  handler : ℕ
  method : Method
  message : M

/-- A call of an entry of `operations_`, with the message that its arguments are taken from. -/
structure Invocation (M : Type) where
  handler : ℕ
  op : Op
  message : M

/-- The handlers in the order in which they were made, deleted ones as `none`. The other
fields are records for the statements: the calls accepted, the messages received, the
entries called, the handlers made by `proceed` (as the call of the handler that made it) and
the handlers whose call was finished, the latest first. -/
structure Server (M : Type) where
  handlers : List (Option (Handler M))
  accepted : List Call
  received : List (Receipt M)
  invoked : List (Invocation M)
  rearmed : List Call
  finished : List ℕ

/-- An event of a completion queue: what a handler waits for is done, with `ok` or without.
The message counts only where one is received. -/
structure Completion (M : Type) where
  handler : ℕ
  ok : Bool
  message : M

variable {M : Type} [Inhabited M]

/-- The constructor of a class: the object asks for a call, with an empty `request_`. -/
def Handler.new (method : Method) (queue : ℕ) : Handler M := ⟨.new method, queue, default, .request⟩

/-- The classes in the order of `server::run`. -/
def Method.all : List Method :=
  [.unary .getattr, .unary .fgetattr, .unary .access, .unary .readlink, .unary .opendir,
    .unary .readdir, .unary .releasedir, .unary .mknod, .unary .mkdir, .unary .symlink,
    .unary .unlink, .unary .rmdir, .unary .rename, .unary .link, .unary .chmod, .unary .chown,
    .unary .truncate, .unary .ftruncate, .unary .utimens, .unary .create, .unary .open,
    .unary .read, .unary .write, .unary .statfs, .unary .flush, .unary .release, .unary .fsync,
    .unary .fallocate, .unary .setxattr, .unary .getxattr, .unary .listxattr,
    .unary .removexattr, .bidiStream .streamRead, .bidiStream .streamWrite, .acStreamWrite]

/-- `server::run`: 20 handlers of every class on each queue. There is at least one queue. -/
def Server.run (nQueues : ℕ) : Server M where
  handlers := (List.range (max 1 nQueues)).flatMap fun queue =>
    (List.range 20).flatMap fun _ => Method.all.map fun method => some (.new method queue)
  accepted := []
  received := []
  invoked := []
  rearmed := []
  finished := []

/-- A polling thread takes an event of the queue and runs `proceed` on its handler. -/
def Server.complete (s : Server M) (id : ℕ) (h : Handler M) (ok : Bool) (message : M) :
    Server M :=
  let done := h.data.proceed ok
  let request := if ok && h.awaitsMessage then message else h.request
  { handlers :=
      s.handlers.set id (done.next.map fun next => ⟨next.1, h.queue, request, next.2⟩) ++
        (done.armed.map fun method => some (.new method h.queue)).toList
    accepted :=
      if ok && h.pending = .request then ⟨id, h.data.method, h.queue⟩ :: s.accepted else s.accepted
    received :=
      if ok && h.awaitsMessage then ⟨id, h.data.method, message⟩ :: s.received else s.received
    invoked := (done.invoked.map fun op => ⟨id, op, request⟩).toList ++ s.invoked
    rearmed := (done.armed.map fun method => ⟨id, method, h.queue⟩).toList ++ s.rearmed
    finished := if done.next.map Prod.snd = some .finish then id :: s.finished else s.finished }

/-- An event is for a handler that exists. -/
def Server.step (s : Server M) (event : Completion M) : Option (Server M) :=
  match s.handlers[event.handler]? with
  | some (some h) => some (s.complete event.handler h event.ok event.message)
  | _ => none

/-- Whether a handler of the class waits for a call on the queue. -/
def Handler.isArmed {M : Type} (h : Handler M) (method : Method) (queue : ℕ) : Bool :=
  h.pending = .request && h.data.method = method && h.queue = queue

/-- The number of armed handlers of a class on a queue. -/
def Server.armed {M : Type} (s : Server M) (method : Method) (queue : ℕ) : ℕ :=
  s.handlers.countP fun h => h.any fun h => h.isArmed method queue

end RSafeFS.Rpc
