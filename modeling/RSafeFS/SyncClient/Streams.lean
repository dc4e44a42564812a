import RSafeFS.Fuse
import RSafeFS.Lib.Transition
import Mathlib.Logic.Function.Basic

/-!
# The streams of the synchronous client

`sync_client` keeps one bidirectional stream for the reads and one for the writes of each
path. A call looks its stream up under the lock of the table, releases that lock, writes
its request under `mtx_write_`, passes to `mtx_read_` hand over hand and reads the reply.
Where the stream fails it is removed, and the call is made again as a unary one. Any
number of calls run at once; what a call does between two operations on a lock or a stream
is one step, and so is every critical section on a table.
-/

namespace RSafeFS.SyncClient

/-- `read_streams_` or `write_streams_`. -/
inductive Kind where
  | read
  | write
  deriving DecidableEq, Repr

/-- A `ReadRequest`, with no bytes, or a `WriteRequest`. -/
structure Request where
  path : PathName
  buf : Bytes
  size : ℕ
  offset : ℕ
  info : FuseFileInfo
  deriving DecidableEq, Repr

/-- A `ReadReply`, or a `WriteReply`, with no bytes. -/
structure Reply where
  result : ℤ
  buf : Bytes
  info : FuseFileInfo
  deriving DecidableEq, Repr

/-- A call of `read` or `write`, of `open` or `create`, or of `release`. -/
inductive Call where
  | transfer (kind : Kind) (request : Request)
  | «open» (path : PathName) (flags : ℤ)
  | release (path : PathName)
  deriving DecidableEq, Repr

/-- The path that a call is about. -/
def Call.path : Call → PathName
  | .transfer _ request => request.path
  | .open path _ => path
  | .release path => path

/-- Where a call is. The places with the number of a stream entry are those at which the
call has a reference to it. A call that read its reply from a stream ends at `streamed`,
the others at `returned`, with the reply of a unary `read` or `write` that succeeded. -/
inductive Pc where
  | unstarted
  | looking
  | found (id : ℕ)
  | writing (id : ℕ)
  | writeFailed (id : ℕ)
  | written (id : ℕ)
  | handing (id : ℕ)
  | reading (id : ℕ)
  | readFailed (id : ℕ)
  | replied (id : ℕ) (reply : Reply)
  | streamed (reply : Reply)
  | removing (todo : List Kind) (retry : Bool)
  | calling
  | served (reply : Reply)
  | creating (todo : List Kind) (reply : Option Reply)
  | returned (reply : Option Reply)
  deriving DecidableEq, Repr

/-- The server's handler of a stream, `stream_read_data` or `stream_write_data`. Once it
has executed a request it waits for its reply to be sent. -/
inductive Handler where
  | creating
  | reading
  | writing (call : ℕ) (reply : Reply)
  | finished
  deriving DecidableEq, Repr

/-- A `read_stream` or `write_stream`: the holders of its two locks, the messages under way
in both directions with the calls they belong to, and its handler. `written` and `awaited`
are records for the statements: the call whose request the holder of `mtx_write_` has
written, and the call whose reply the holder of `mtx_read_` waits for. -/
structure Entry where
  kind : Kind
  path : PathName
  mtxWrite : Option ℕ
  mtxRead : Option ℕ
  written : Option ℕ
  awaited : Option ℕ
  toServer : List (ℕ × Request)
  toClient : List (ℕ × Reply)
  handler : Handler
  broken : Bool
  erased : Bool
  deriving DecidableEq, Repr

/-- The constructor of a stream. -/
def Entry.new (kind : Kind) (path : PathName) : Entry :=
  ⟨kind, path, none, none, none, none, [], [], .creating, false, false⟩

/-- An execution of the server's operation for a request, on the stream entry `via` or, for
a unary request, on none. -/
structure Execution where
  call : ℕ
  via : Option ℕ
  request : Request
  reply : Reply
  deriving DecidableEq, Repr

/-- The client with its streams, and the server. The tables hold numbers of entries. The
last fields are records for the statements: the entry that a call has written its request
to, the executions, the replies read from streams, and whether an erased entry was used. -/
structure Streams where
  table : Kind → PathName → Option ℕ
  entries : ℕ → Entry
  next : ℕ
  calls : ℕ → Call
  pcs : ℕ → Pc
  sentOn : ℕ → Option ℕ
  executed : List Execution
  received : List (ℕ × ℕ × Reply)
  misused : Bool

/-- The client as constructed, with no stream and no call made. -/
def Streams.initial : Streams :=
  ⟨fun _ _ => none, fun _ => .new .read [], 0, fun _ => .release [], fun _ => .unstarted,
    fun _ => none, [], [], false⟩

/-- The tables that `create_streams` adds to. `O_ACCMODE` is 3, and the modes are 0, 1 and 2. -/
def streamKinds (flags : ℤ) : List Kind :=
  let mode := flags % 4
  if mode = 0 ∨ flags = 0 then [.read]
  else if mode = 1 ∨ flags = 1 then [.write]
  else if mode = 2 ∨ flags = 2 then [.read, .write]
  else []

/-- The flags with which a unary `read` or `write` calls `create_streams`. -/
def Kind.flags : Kind → ℤ
  | .read => 0
  | .write => 1

/-- A step of the system. A client's step carries what its stream or unary call reports:
whether it succeeded, and the result of an `open`. A step of the server carries the reply of
its operation. The transport of a stream may break, and then the messages under way are
lost from some point on. -/
inductive Action where
  | start (c : ℕ) (call : Call)
  | advance (c : ℕ) (ok : Bool) (res : ℤ)
  | serve (c : ℕ) (reply : Reply)
  | accept (id : ℕ)
  | receive (id : ℕ) (reply : Reply)
  | sent (id : ℕ)
  | close (id : ℕ)
  | «break» (id : ℕ) (keepServer keepClient : ℕ)

/-- Move a call to another place. -/
def Streams.goto (s : Streams) (c : ℕ) (pc : Pc) : Streams :=
  { s with pcs := Function.update s.pcs c pc }

/-- Change an entry. -/
def Streams.set (s : Streams) (id : ℕ) (e : Entry) : Streams :=
  { s with entries := Function.update s.entries id e }

/-- Add an entry to a table, or erase it. -/
def Streams.link (s : Streams) (kind : Kind) (path : PathName) (id : Option ℕ) : Streams :=
  { s with table := Function.update s.table kind (Function.update (s.table kind) path id) }

/-- A use of an entry. After the use of an erased entry the behaviour is undefined. -/
def Streams.use (s : Streams) (id : ℕ) (k : Entry → Option Streams) : Option Streams :=
  if (s.entries id).erased then some { s with misused := true } else k (s.entries id)

/-- `stream_->Write(request)`. A broken stream may report success, and loses the message. -/
def Streams.write (s : Streams) (c id : ℕ) (ok : Bool) (e : Entry) : Option Streams :=
  match s.calls c with
  | .transfer _ request =>
    if ok then
      let toServer := if e.broken then e.toServer else e.toServer ++ [(c, request)]
      some ({ s with sentOn := Function.update s.sentOn c (some id) }.set id
        { e with toServer, written := some c } |>.goto c (.written id))
    else if e.broken then some (s.goto c (.writeFailed id))
    else none
  | _ => none

/-- `stream_->Read(&reply)`, which waits for a reply or for the stream to break. -/
def Streams.read (s : Streams) (c id : ℕ) (e : Entry) : Option Streams :=
  match e.toClient with
  | (_, reply) :: toClient =>
    some ({ s with received := (c, id, reply) :: s.received }.set id
      { e with toClient, awaited := none } |>.goto c (.replied id reply))
  | [] =>
    if e.broken then some (s.set id { e with awaited := none } |>.goto c (.readFailed id))
    else none

/-- One critical section of `remove_streams`. It waits for both locks of the entry. -/
def Streams.remove (s : Streams) (c : ℕ) (kind : Kind) (path : PathName) (pc : Pc) :
    Option Streams :=
  match s.table kind path with
  | none => some (s.goto c pc)
  | some id =>
    let e := s.entries id
    if e.mtxWrite = none ∧ e.mtxRead = none then
      some ((s.link kind path none).set id { e with erased := true } |>.goto c pc)
    else none

/-- One critical section of `create_streams`. -/
def Streams.tryEmplace (s : Streams) (c : ℕ) (kind : Kind) (path : PathName) (pc : Pc) : Streams :=
  match s.table kind path with
  | some _ => s.goto c pc
  | none =>
    { s.link kind path (some s.next) with next := s.next + 1 }.set s.next (.new kind path) |>.goto c
      pc

/-- What follows a unary call, by its status and, for an `open`, its result. -/
def Streams.answer (s : Streams) (c : ℕ) (ok : Bool) (res : ℤ) : Option Streams :=
  match s.calls c with
  | .transfer _ _ => if ok then none else some (s.goto c (.returned none))
  | .open _ flags =>
    some (s.goto c (if ok ∧ res ≠ -1 then .creating (streamKinds flags) none else .returned none))
  | .release _ =>
    some (s.goto c (if ok then .removing [.read, .write] false else .returned none))

/-- The next step of a call. -/
def Streams.advance (s : Streams) (c : ℕ) (ok : Bool) (res : ℤ) : Pc → Option Streams
  | .looking =>
    match s.calls c with
    | .transfer kind request =>
      some (s.goto c (match s.table kind request.path with
        | some id => .found id
        | none => .calling))
    | _ => none
  | .found id => s.use id fun e =>
    if e.mtxWrite = none then some (s.set id { e with mtxWrite := some c } |>.goto c (.writing id))
    else none
  | .writing id => s.use id fun e => s.write c id ok e
  | .writeFailed id =>
    some (s.set id { s.entries id with mtxWrite := none } |>.goto c
      (.removing [.read, .write] true))
  | .written id => s.use id fun e =>
    if e.mtxRead = none then
      some (s.set id { e with mtxRead := some c, written := none, awaited := some c } |>.goto c
        (.handing id))
    else none
  | .handing id => some (s.set id { s.entries id with mtxWrite := none } |>.goto c (.reading id))
  | .reading id => s.use id fun e => s.read c id e
  | .readFailed id =>
    some (s.set id { s.entries id with mtxRead := none } |>.goto c (.removing [.read, .write] true))
  | .replied id reply =>
    some (s.set id { s.entries id with mtxRead := none } |>.goto c (.streamed reply))
  | .removing (kind :: todo) retry => s.remove c kind (s.calls c).path (.removing todo retry)
  | .removing [] retry => some (s.goto c (if retry then .calling else .returned none))
  | .calling => s.answer c ok res
  | .served reply =>
    match s.calls c with
    | .transfer kind _ =>
      some (s.goto c (if ok then .creating (streamKinds kind.flags) (some reply)
        else .returned none))
    | _ => none
  | .creating (kind :: todo) reply => some (s.tryEmplace c kind (s.calls c).path (.creating todo reply))
  | .creating [] reply => some (s.goto c (.returned reply))
  | .unstarted | .streamed _ | .returned _ => none

/-- The handler of a stream receives a request and executes its operation. -/
def Streams.receive (s : Streams) (id : ℕ) (reply : Reply) : Option Streams :=
  let e := s.entries id
  match e.handler, e.toServer with
  | .reading, (c, request) :: toServer =>
    some ({ s with executed := ⟨c, some id, request, reply⟩ :: s.executed }.set id
      { e with toServer, handler := .writing c reply })
  | _, _ => none

/-- The handler's reply has been sent. Over a broken stream it is lost. -/
def Streams.sent (s : Streams) (id : ℕ) : Option Streams :=
  let e := s.entries id
  match e.handler with
  | .writing c reply =>
    some (s.set id { e with
      toClient := if e.broken then e.toClient else e.toClient ++ [(c, reply)]
      handler := .reading })
  | _ => none

/-- One step of a call, of the server, or of the transport. -/
def Streams.step (s : Streams) (a : Action) : Option Streams :=
  if s.misused then none
  else match a with
  | .start c call =>
    if s.pcs c = .unstarted then
      some ({ s with calls := Function.update s.calls c call }.goto c
        (match call with
          | .transfer _ _ => .looking
          | _ => .calling))
    else none
  | .advance c ok res => s.advance c ok res (s.pcs c)
  | .serve c reply =>
    match s.pcs c, s.calls c with
    | .calling, .transfer _ request =>
      some ({ s with executed := ⟨c, none, request, reply⟩ :: s.executed }.goto c (.served reply))
    | _, _ => none
  | .accept id =>
    if (s.entries id).handler = .creating then some (s.set id { s.entries id with handler := .reading })
    else none
  | .receive id reply => s.receive id reply
  | .sent id => s.sent id
  | .close id =>
    let e := s.entries id
    if e.handler = .reading ∧ e.toServer = [] ∧ (e.erased ∨ e.broken) then
      some (s.set id { e with handler := .finished })
    else none
  | .break id keepServer keepClient =>
    let e := s.entries id
    some (s.set id { e with
      toServer := e.toServer.take keepServer
      toClient := e.toClient.take keepClient
      broken := true })

/-- The steps of a call that change nothing but its place. -/
inductive Move (s : Streams) (c : ℕ) : Pc → Pc → Prop
  | found {kind : Kind} {request : Request} {id : ℕ} (hcall : s.calls c = .transfer kind request)
      (hid : s.table kind request.path = some id) : Move s c .looking (.found id)
  | missed : Move s c .looking .calling
  | writeFailed {id : ℕ} (hbroken : (s.entries id).broken = true) :
      Move s c (.writing id) (.writeFailed id)
  | skip {kind : Kind} {todo : List Kind} {retry : Bool} :
      Move s c (.removing (kind :: todo) retry) (.removing todo retry)
  | retry : Move s c (.removing [] true) .calling
  | released : Move s c (.removing [] false) (.returned none)
  | failed : Move s c .calling (.returned none)
  | opened {todo : List Kind} : Move s c .calling (.creating todo none)
  | release : Move s c .calling (.removing [.read, .write] false)
  | lost {reply : Reply} : Move s c (.served reply) (.returned none)
  | answered {reply : Reply} {todo : List Kind} :
      Move s c (.served reply) (.creating todo (some reply))
  | present {kind : Kind} {todo : List Kind} {reply : Option Reply} :
      Move s c (.creating (kind :: todo) reply) (.creating todo reply)
  | created {reply : Option Reply} : Move s c (.creating [] reply) (.returned reply)

/-- The entry that a call uses in its next step. -/
def Pc.uses : Pc → Option ℕ
  | .found id | .writing id | .written id | .reading id => some id
  | _ => none

/-- What a step can do, with the conditions under which it does it. -/
inductive Steps (s : Streams) : Action → Streams → Prop
  | started {c : ℕ} {call : Call} {pc : Pc} (hpc : s.pcs c = .unstarted)
      (hplace : pc = .looking ∨ pc = .calling) :
      Steps s (.start c call) ({ s with calls := Function.update s.calls c call }.goto c pc)
  | move {c : ℕ} {ok : Bool} {res : ℤ} {pc pc' : Pc} (hpc : s.pcs c = pc) (hmove : Move s c pc pc') :
      Steps s (.advance c ok res) (s.goto c pc')
  | misuse {c id : ℕ} {ok : Bool} {res : ℤ} (huses : (s.pcs c).uses = some id)
      (herased : (s.entries id).erased = true) :
      Steps s (.advance c ok res) { s with misused := true }
  | lockWrite {c id : ℕ} {ok : Bool} {res : ℤ} (hpc : s.pcs c = .found id)
      (hfree : (s.entries id).mtxWrite = none) :
      Steps s (.advance c ok res)
        (s.set id { s.entries id with mtxWrite := some c } |>.goto c (.writing id))
  | write {c id : ℕ} {ok : Bool} {res : ℤ} {kind : Kind} {request : Request}
      (hpc : s.pcs c = .writing id) (hcall : s.calls c = .transfer kind request) :
      Steps s (.advance c ok res)
        ({ s with sentOn := Function.update s.sentOn c (some id) }.set id
          { s.entries id with
            toServer := if (s.entries id).broken then (s.entries id).toServer
              else (s.entries id).toServer ++ [(c, request)]
            written := some c } |>.goto c (.written id))
  | unlockWriteFailed {c id : ℕ} {ok : Bool} {res : ℤ} (hpc : s.pcs c = .writeFailed id) :
      Steps s (.advance c ok res)
        (s.set id { s.entries id with mtxWrite := none } |>.goto c (.removing [.read, .write] true))
  | lockRead {c id : ℕ} {ok : Bool} {res : ℤ} (hpc : s.pcs c = .written id)
      (hfree : (s.entries id).mtxRead = none) :
      Steps s (.advance c ok res)
        (s.set id { s.entries id with mtxRead := some c, written := none, awaited := some c } |>.goto
          c (.handing id))
  | unlockWrite {c id : ℕ} {ok : Bool} {res : ℤ} (hpc : s.pcs c = .handing id) :
      Steps s (.advance c ok res)
        (s.set id { s.entries id with mtxWrite := none } |>.goto c (.reading id))
  | read {c c' id : ℕ} {ok : Bool} {res : ℤ} {reply : Reply} {toClient : List (ℕ × Reply)}
      (hpc : s.pcs c = .reading id) (hclient : (s.entries id).toClient = (c', reply) :: toClient) :
      Steps s (.advance c ok res)
        ({ s with received := (c, id, reply) :: s.received }.set id
          { s.entries id with toClient, awaited := none } |>.goto c (.replied id reply))
  | readFailed {c id : ℕ} {ok : Bool} {res : ℤ} (hpc : s.pcs c = .reading id)
      (hclient : (s.entries id).toClient = []) (hbroken : (s.entries id).broken = true) :
      Steps s (.advance c ok res)
        (s.set id { s.entries id with awaited := none } |>.goto c (.readFailed id))
  | unlockReadFailed {c id : ℕ} {ok : Bool} {res : ℤ} (hpc : s.pcs c = .readFailed id) :
      Steps s (.advance c ok res)
        (s.set id { s.entries id with mtxRead := none } |>.goto c (.removing [.read, .write] true))
  | unlockReplied {c id : ℕ} {ok : Bool} {res : ℤ} {reply : Reply}
      (hpc : s.pcs c = .replied id reply) :
      Steps s (.advance c ok res)
        (s.set id { s.entries id with mtxRead := none } |>.goto c (.streamed reply))
  | erase {c id : ℕ} {ok : Bool} {res : ℤ} {kind : Kind} {todo : List Kind} {retry : Bool}
      (hpc : s.pcs c = .removing (kind :: todo) retry)
      (hid : s.table kind (s.calls c).path = some id)
      (hwrite : (s.entries id).mtxWrite = none) (hread : (s.entries id).mtxRead = none) :
      Steps s (.advance c ok res)
        ((s.link kind (s.calls c).path none).set id { s.entries id with erased := true } |>.goto c
          (.removing todo retry))
  | emplace {c : ℕ} {ok : Bool} {res : ℤ} {kind : Kind} {todo : List Kind} {reply : Option Reply}
      (hpc : s.pcs c = .creating (kind :: todo) reply) :
      Steps s (.advance c ok res)
        ({ s.link kind (s.calls c).path (some s.next) with next := s.next + 1 }.set s.next
          (.new kind (s.calls c).path) |>.goto c (.creating todo reply))
  | serve {c : ℕ} {reply : Reply} {kind : Kind} {request : Request} (hpc : s.pcs c = .calling)
      (hcall : s.calls c = .transfer kind request) :
      Steps s (.serve c reply)
        ({ s with executed := ⟨c, none, request, reply⟩ :: s.executed }.goto c (.served reply))
  | accept {id : ℕ} (hhandler : (s.entries id).handler = .creating) :
      Steps s (.accept id) (s.set id { s.entries id with handler := .reading })
  | receive {id c : ℕ} {reply : Reply} {request : Request} {toServer : List (ℕ × Request)}
      (hhandler : (s.entries id).handler = .reading)
      (hserver : (s.entries id).toServer = (c, request) :: toServer) :
      Steps s (.receive id reply)
        ({ s with executed := ⟨c, some id, request, reply⟩ :: s.executed }.set id
          { s.entries id with toServer, handler := .writing c reply })
  | sent {id c : ℕ} {reply : Reply} (hhandler : (s.entries id).handler = .writing c reply) :
      Steps s (.sent id) (s.set id { s.entries id with
        toClient := if (s.entries id).broken then (s.entries id).toClient
          else (s.entries id).toClient ++ [(c, reply)]
        handler := .reading })
  | close {id : ℕ} (hhandler : (s.entries id).handler = .reading) :
      Steps s (.close id) (s.set id { s.entries id with handler := .finished })
  | broke {id keepServer keepClient : ℕ} :
      Steps s (.break id keepServer keepClient) (s.set id { s.entries id with
        toServer := (s.entries id).toServer.take keepServer
        toClient := (s.entries id).toClient.take keepClient
        broken := true })

variable {s t : Streams}

/-- The tables after an entry has been added or erased. -/
theorem link_table {kind kind' : Kind} {path path' : PathName} {id : Option ℕ} :
    (s.link kind path id).table kind' path' =
      if kind' = kind ∧ path' = path then id else s.table kind' path' := by
  by_cases hkind : kind' = kind
  · subst hkind
    by_cases hpath : path' = path
    · subst hpath
      simp [Streams.link]
    · simp [Streams.link, hpath]
  · simp [Streams.link, hkind]

/-- The steps of a call that use its entry. -/
theorem steps_of_use {c id : ℕ} {ok : Bool} {res : ℤ} {k : Entry → Option Streams}
    (huses : (s.pcs c).uses = some id) (hstep : s.use id k = some t)
    (hk : k (s.entries id) = some t → Steps s (.advance c ok res) t) :
    Steps s (.advance c ok res) t := by
  unfold Streams.use at hstep
  split at hstep
  · next herased =>
    obtain rfl := Option.some.inj hstep
    exact .misuse huses herased
  · exact hk hstep

theorem steps_of_advance {c : ℕ} {ok : Bool} {res : ℤ}
    (hstep : s.advance c ok res (s.pcs c) = some t) : Steps s (.advance c ok res) t := by
  cases hpc : s.pcs c with
  | unstarted => simp [hpc, Streams.advance] at hstep
  | streamed reply => simp [hpc, Streams.advance] at hstep
  | returned reply => simp [hpc, Streams.advance] at hstep
  | looking =>
    simp only [hpc, Streams.advance] at hstep
    split at hstep
    · next kind request hcall =>
      obtain rfl := Option.some.inj hstep
      split
      · next id hid => exact .move hpc (.found hcall hid)
      · exact .move hpc .missed
    · cases hstep
  | found id =>
    simp only [hpc, Streams.advance] at hstep
    refine steps_of_use (by rw [hpc]; rfl) hstep fun hk => ?_
    split at hk
    · next hfree =>
      obtain rfl := Option.some.inj hk
      exact .lockWrite hpc hfree
    · cases hk
  | writing id =>
    simp only [hpc, Streams.advance] at hstep
    refine steps_of_use (by rw [hpc]; rfl) hstep fun hk => ?_
    unfold Streams.write at hk
    split at hk
    · next kind request hcall =>
      split at hk
      · obtain rfl := Option.some.inj hk
        exact .write hpc hcall
      · split at hk
        · next hbroken =>
          obtain rfl := Option.some.inj hk
          exact .move hpc (.writeFailed hbroken)
        · cases hk
    · cases hk
  | writeFailed id =>
    simp only [hpc, Streams.advance] at hstep
    obtain rfl := Option.some.inj hstep
    exact .unlockWriteFailed hpc
  | written id =>
    simp only [hpc, Streams.advance] at hstep
    refine steps_of_use (by rw [hpc]; rfl) hstep fun hk => ?_
    split at hk
    · next hfree =>
      obtain rfl := Option.some.inj hk
      exact .lockRead hpc hfree
    · cases hk
  | handing id =>
    simp only [hpc, Streams.advance] at hstep
    obtain rfl := Option.some.inj hstep
    exact .unlockWrite hpc
  | reading id =>
    simp only [hpc, Streams.advance] at hstep
    refine steps_of_use (by rw [hpc]; rfl) hstep fun hk => ?_
    unfold Streams.read at hk
    split at hk
    · next c' reply toClient hclient =>
      obtain rfl := Option.some.inj hk
      exact .read hpc hclient
    · next hclient =>
      split at hk
      · next hbroken =>
        obtain rfl := Option.some.inj hk
        exact .readFailed hpc hclient hbroken
      · cases hk
  | readFailed id =>
    simp only [hpc, Streams.advance] at hstep
    obtain rfl := Option.some.inj hstep
    exact .unlockReadFailed hpc
  | replied id reply =>
    simp only [hpc, Streams.advance] at hstep
    obtain rfl := Option.some.inj hstep
    exact .unlockReplied hpc
  | removing todo retry =>
    cases todo with
    | nil =>
      simp only [hpc, Streams.advance] at hstep
      obtain rfl := Option.some.inj hstep
      cases retry with
      | true => exact .move hpc .retry
      | false => exact .move hpc .released
    | cons kind todo =>
      simp only [hpc, Streams.advance, Streams.remove] at hstep
      split at hstep
      · obtain rfl := Option.some.inj hstep
        exact .move hpc .skip
      · next id hid =>
        split at hstep
        · next hfree =>
          obtain rfl := Option.some.inj hstep
          exact .erase hpc hid hfree.1 hfree.2
        · cases hstep
  | calling =>
    simp only [hpc, Streams.advance, Streams.answer] at hstep
    split at hstep
    · split at hstep
      · cases hstep
      · obtain rfl := Option.some.inj hstep
        exact .move hpc .failed
    · obtain rfl := Option.some.inj hstep
      split
      · exact .move hpc .opened
      · exact .move hpc .failed
    · obtain rfl := Option.some.inj hstep
      split
      · exact .move hpc .release
      · exact .move hpc .failed
  | served reply =>
    simp only [hpc, Streams.advance] at hstep
    split at hstep
    · obtain rfl := Option.some.inj hstep
      split
      · exact .move hpc .answered
      · exact .move hpc .lost
    · cases hstep
  | creating todo reply =>
    cases todo with
    | nil =>
      simp only [hpc, Streams.advance] at hstep
      obtain rfl := Option.some.inj hstep
      exact .move hpc .created
    | cons kind todo =>
      simp only [hpc, Streams.advance, Streams.tryEmplace] at hstep
      obtain rfl := Option.some.inj hstep
      split
      · exact .move hpc .present
      · exact .emplace hpc

/-- **Inversion.** Every step is one of those listed. -/
theorem steps_of_step {a : Action} (hstep : s.step a = some t) : Steps s a t := by
  unfold Streams.step at hstep
  split at hstep
  · cases hstep
  · cases a with
    | start c call =>
      dsimp only at hstep
      split at hstep
      · next hpc =>
        obtain rfl := Option.some.inj hstep
        refine .started hpc ?_
        cases call with
        | transfer kind request => exact Or.inl rfl
        | «open» path flags => exact Or.inr rfl
        | release path => exact Or.inr rfl
      · cases hstep
    | advance c ok res => exact steps_of_advance hstep
    | serve c reply =>
      dsimp only at hstep
      split at hstep
      · next kind request hpc hcall =>
        obtain rfl := Option.some.inj hstep
        exact .serve hpc hcall
      · cases hstep
    | accept id =>
      dsimp only at hstep
      split at hstep
      · next hhandler =>
        obtain rfl := Option.some.inj hstep
        exact .accept hhandler
      · cases hstep
    | receive id reply =>
      simp only [Streams.receive] at hstep
      split at hstep
      · next c request toServer hhandler hserver =>
        obtain rfl := Option.some.inj hstep
        exact .receive hhandler hserver
      · cases hstep
    | sent id =>
      simp only [Streams.sent] at hstep
      split at hstep
      · next c reply hhandler =>
        obtain rfl := Option.some.inj hstep
        exact .sent hhandler
      · cases hstep
    | close id =>
      dsimp only at hstep
      split at hstep
      · next hready =>
        obtain rfl := Option.some.inj hstep
        exact .close hready.1
      · cases hstep
    | «break» id keepServer keepClient =>
      obtain rfl := Option.some.inj hstep
      exact .broke

/-- A request of one byte to write, at a given offset. -/
def oneByte (offset : ℕ) : Call := .transfer .write ⟨['/', 'f'], [7], 1, offset, default⟩

/-- A reply that one byte was written, with a mark in its `fh`. -/
def marked (fh : ℕ) : Reply := ⟨1, [], { (default : FuseFileInfo) with fh }⟩

/-- A client's step in which nothing fails. -/
def onward (c : ℕ) : Action := .advance c true 0

/-- The path is opened for writing, as call 0. -/
def openForWriting : List Action := [.start 0 (.open ['/', 'f'] 1), onward 0, onward 0, onward 0]

end RSafeFS.SyncClient
