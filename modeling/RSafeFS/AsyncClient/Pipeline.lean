import RSafeFS.AsyncClient.Blocks
import RSafeFS.Lib.Transition

/-!
# The write-behind pipeline

The asynchronous client as a transition system. Any number of threads run `write`,
`flush`, `fsync` and the destructor; the timer, the scheduler thread, the completion
threads and the server's stream handlers run beside them. A step is what one of them
does between two points at which another one can interfere. The lock `mtx_blocks_` is
held over several steps of a write and has its owner in the state; what is done under
`mtx_calls_` is one step.
-/

namespace RSafeFS.AsyncClient

/-- A request on a stream, with the blocks that it was made of. -/
structure Message where
  request : WriteRequest
  parts : List Block
  deriving DecidableEq, Repr

/-- The stream of one call: what the client has written and the server not yet read,
whether the client has called `WritesDone`, whether the transport has failed, and
whether the server's handler has finished the call. -/
structure Stream where
  wire : List Message := []
  halfClosed : Bool := false
  broken : Bool := false
  serverDone : Bool := false
  deriving DecidableEq, Repr

/-- `Write` on the stream. A failed transport loses the message. -/
def Stream.write (m : Message) (stream : Stream) : Stream :=
  if stream.broken then stream else { stream with wire := stream.wire ++ [m] }

/-- `call_data::call_status`. -/
inductive CallStatus where
  | create | write | writesDone | finished
  deriving DecidableEq, Repr

/-- `async_client::call_data`. -/
structure CallData where
  id : ℕ
  blocks : List Block
  callStatus : CallStatus := .create
  nBlocksSent : ℕ := 0
  stream : Stream := {}
  deriving DecidableEq, Repr

/-- `call_data::send_block`. -/
def CallData.sendBlock (maxBlockSize : ℕ) (c : CallData) : CallData :=
  match c.blocks with
  | [] => c
  | firstBlock :: rest =>
    let n := nBlocksToSend maxBlockSize firstBlock rest
    { c with
      nBlocksSent := n
      stream := c.stream.write
        ⟨sendRequest maxBlockSize firstBlock rest, (firstBlock :: rest).take n⟩ }

/-- `call_data::proceed` before the last event. The `ok` of the event is not looked at. -/
def CallData.proceed (maxBlockSize : ℕ) (c : CallData) : CallData :=
  match c.callStatus with
  | .create =>
    if c.blocks = [] then { c with callStatus := .finished }
    else { c with callStatus := .write }.sendBlock maxBlockSize
  | .write =>
    let c := { c with blocks := c.blocks.drop c.nBlocksSent, nBlocksSent := 0 }
    if c.blocks = [] then
      { c with callStatus := .writesDone, stream := { c.stream with halfClosed := true } }
    else c.sendBlock maxBlockSize
  | .writesDone => { c with callStatus := .finished }
  | .finished => c

/-- The blocks that `proceed` drops and takes off `cache_size_`. -/
def CallData.popped (c : CallData) : List Block :=
  if c.callStatus = .write then c.blocks.take c.nBlocksSent else []

/-- `async_client::event`. -/
inductive Event where
  | terminated | callEnded | flushRequest
  deriving DecidableEq, Repr

/-- Why a thread flushes: `flush` and `fsync` with their arguments, or the destructor. -/
inductive FlushKind where
  | flush (path : PathName) (fi : FuseFileInfo)
  | fsync (path : PathName) (isdatasync : ℤ) (fi : FuseFileInfo)
  | destroy
  deriving DecidableEq, Repr

/-- Where a thread of the client is. A write has the lock, waits for its own flush, or is
about to append its block. A flush waits for its call, or has got its result; `mark` is
the number of writes appended when it was scheduled. -/
inductive Pc where
  | idle
  | locked (b : Block)
  | waiting (call : ℕ) (b : Block)
  | ready (b : Block)
  | flushing (call : ℕ) (kind : FlushKind) (mark : ℕ)
  | flushed (kind : FlushKind) (mark : ℕ)
  deriving DecidableEq, Repr

/-- The parameters of the client. The comparison of `blocks_queue_size_` with the
floating-point `flush_threshold_` is left open. -/
structure ClientConfig where
  cacheSize : ℕ
  blockSize : ℕ
  overThreshold : ℕ → Bool

/-- The operations of the server that the client's requests end in. -/
structure Server (σ : Type) where
  write : WriteRequest → σ → ℤ × σ
  flush : PathName → FuseFileInfo → σ → ℤ × σ
  fsync : PathName → ℤ → FuseFileInfo → σ → ℤ × σ

/-- The state of the client and the server. The last four fields are records for the
statements: the writes in the order of their appending, the requests that the server
has executed with their results, the number of writes appended when each call was
made, and the flushes that have returned. -/
structure State (σ : Type) where
  blocks : List Block := []
  lock : Option ℕ := none
  blocksQueueSize : ℕ := 0
  cacheSize : ℕ := 0
  calls : List CallData := []
  channel : List Event := []
  received : Option Event := none
  flushing : Bool := false
  terminated : Bool := false
  active : List CallData := []
  ending : List (ℕ × Bool) := []
  promises : List (ℕ × Bool) := []
  orphans : List Stream := []
  nextCall : ℕ := 0
  pcs : ℕ → Pc := fun _ => .idle
  server : σ
  appended : List Block := []
  executed : List (Message × ℤ) := []
  markOf : ℕ → ℕ := fun _ => 0
  returned : List (FlushKind × ℕ × ℤ) := []

variable {σ : Type}

/-- Move a thread. -/
def State.goto (s : State σ) (thread : ℕ) (pc : Pc) : State σ :=
  { s with pcs := Function.update s.pcs thread pc }

@[simp] theorem goto_pcs_self (s : State σ) (thread : ℕ) (pc : Pc) :
    (s.goto thread pc).pcs thread = pc := by
  simp [State.goto]

/-- `schedule_flush`: the constructor of `call_data` takes all blocks. -/
def State.scheduleFlush (s : State σ) : State σ :=
  { s with
    blocks := []
    blocksQueueSize := 0
    calls := s.calls ++ [⟨s.nextCall, s.blocks, .create, 0, {}⟩]
    channel := s.channel ++ [.flushRequest]
    nextCall := s.nextCall + 1
    markOf := Function.update s.markOf s.nextCall s.appended.length }

/-- The part of `write` between taking the lock and appending the block. -/
def State.writeCheck (config : ClientConfig) (s : State σ) (thread : ℕ) (b : Block) : State σ :=
  if s.cacheSize > config.cacheSize then s.scheduleFlush.goto thread (.waiting s.nextCall b)
  else if config.overThreshold s.blocksQueueSize then s.scheduleFlush.goto thread (.ready b)
  else s.goto thread (.ready b)

/-- The end of `write`: the block is appended and the lock released. -/
def State.writeAppend (s : State σ) (thread : ℕ) (b : Block) : State σ :=
  { s with
    blocks := s.blocks ++ [b]
    blocksQueueSize := (s.blocksQueueSize + b.size) % 2 ^ 64
    cacheSize := (s.cacheSize + b.size) % 2 ^ 64
    lock := none
    appended := s.appended ++ [b] }.goto thread .idle

/-- `call_data::start`, called by the scheduler. A call without blocks ends at once. -/
def State.start (s : State σ) (c : CallData) : State σ :=
  if c.blocks = [] then
    { s with channel := s.channel ++ [.callEnded], promises := s.promises ++ [(c.id, true)] }
  else { s with active := s.active ++ [c] }

/-- One turn of the loop of `scheduler`, for the event it has received. -/
def State.handle (s : State σ) : Event → State σ
  | .callEnded =>
    match s.calls with
    | [] => { s with flushing := false }
    | c :: calls => { s with calls, flushing := true }.start c
  | .flushRequest =>
    match s.calls with
    | [] => s
    | c :: calls => if s.flushing then s else { s with calls, flushing := true }.start c
  | .terminated =>
    if s.channel = [] then { s with terminated := true }
    else { s with channel := s.channel ++ [.terminated] }

/-- `call_data::end` up to the setting of the promise. A stream that the server has not
finished stays with it. -/
def State.endCall (s : State σ) (i : ℕ) (c : CallData) (status : Bool) : State σ :=
  { s with
    active := s.active.eraseIdx i
    channel := s.channel ++ [.callEnded]
    ending := s.ending ++ [(c.id, status)]
    orphans := if c.stream.serverDone then s.orphans else s.orphans ++ [c.stream] }

/-- `proceed` for the `i`-th call in flight. `Finish` completes when the server has
finished the call, or when the transport has failed; its status is then not ok. -/
def State.proceed (config : ClientConfig) (s : State σ) (i : ℕ) (ok : Bool) (c : CallData) :
    Option (State σ) :=
  if c.callStatus = .finished then
    if c.stream.broken ∨ c.stream.serverDone then some (s.endCall i c !c.stream.broken) else none
  else if ok ∨ c.stream.broken then
    some { s with
      active := s.active.set i (c.proceed config.blockSize)
      cacheSize := c.popped.foldl (fun n b => sizeSub n b.size) s.cacheSize }
  else none

/-- `ac_stream_write_data::proceed`: read a message and execute it, or finish the call
when there are no more. The result of the write is not looked at. -/
def Stream.serve (server : Server σ) (stream : Stream) (w : σ) :
    Option (Stream × List (Message × ℤ) × σ) :=
  if stream.serverDone then none
  else match stream.wire with
    | m :: wire =>
      let (res, w) := server.write m.request w
      some ({ stream with wire }, [(m, res)], w)
    | [] =>
      if stream.halfClosed ∨ stream.broken then some ({ stream with serverDone := true }, [], w)
      else none

/-- What a thread does once its flush has completed: the synchronous operation, which
fails when the transport does, or the end of the client. -/
def State.finishFlush (server : Server σ) (s : State σ) (ok : Bool) : FlushKind → ℤ × State σ
  | .flush path fi =>
    if ok then
      let (res, w) := server.flush path fi s.server
      (res, { s with server := w })
    else (-1, s)
  | .fsync path isdatasync fi =>
    if ok then
      let (res, w) := server.fsync path isdatasync fi s.server
      (res, { s with server := w })
    else (-1, s)
  | .destroy => (0, { s with channel := s.channel ++ [.terminated] })

/-- The steps of the client's threads, its timer, scheduler and completion threads, of
the server and of the transport. -/
inductive Action where
  | writeLock (thread : ℕ) (b : Block)
  | writeCheck (thread : ℕ)
  | writeGet (thread : ℕ)
  | writeAppend (thread : ℕ)
  | flushSchedule (thread : ℕ) (kind : FlushKind)
  | flushGet (thread : ℕ)
  | flushReturn (thread : ℕ) (ok : Bool)
  | timer
  | receive
  | handle
  | proceed (i : ℕ) (ok : Bool)
  | resolve (i : ℕ)
  | serve (i : ℕ)
  | serveOrphan (i : ℕ)
  | fail (i : ℕ)
  | lose (i : ℕ)
  deriving DecidableEq, Repr

/-- The future of the call is ready. -/
def State.isResolved (s : State σ) (call : ℕ) : Bool := s.promises.any fun p => p.1 == call

/-- One step of the system. -/
def State.step (config : ClientConfig) (server : Server σ) (s : State σ) :
    Action → Option (State σ)
  | .writeLock thread b =>
    if s.pcs thread = .idle ∧ s.lock = none then
      some ({ s with lock := some thread }.goto thread (.locked b))
    else none
  | .writeCheck thread =>
    match s.pcs thread with
    | .locked b => some (s.writeCheck config thread b)
    | _ => none
  | .writeGet thread =>
    match s.pcs thread with
    | .waiting call b => if s.isResolved call then some (s.goto thread (.ready b)) else none
    | _ => none
  | .writeAppend thread =>
    match s.pcs thread with
    | .ready b => some (s.writeAppend thread b)
    | _ => none
  | .flushSchedule thread kind =>
    if s.pcs thread = .idle ∧ s.lock = none then
      some (s.scheduleFlush.goto thread (.flushing s.nextCall kind s.appended.length))
    else none
  | .flushGet thread =>
    match s.pcs thread with
    | .flushing call kind mark =>
      if s.isResolved call then some (s.goto thread (.flushed kind mark)) else none
    | _ => none
  | .flushReturn thread ok =>
    match s.pcs thread with
    | .flushed kind mark =>
      let (res, s) := s.finishFlush server ok kind
      some ({ s with returned := (kind, mark, res) :: s.returned }.goto thread .idle)
    | _ => none
  | .timer => if s.lock = none then some s.scheduleFlush else none
  | .receive =>
    match s.received, s.channel with
    | none, event :: channel =>
      if s.terminated then none else some { s with channel, received := some event }
    | _, _ => none
  | .handle => s.received.map fun event => { s with received := none }.handle event
  | .proceed i ok => s.active[i]?.bind fun c => s.proceed config i ok c
  | .resolve i => s.ending[i]?.map fun p =>
      { s with ending := s.ending.eraseIdx i, promises := s.promises ++ [p] }
  | .serve i => s.active[i]?.bind fun c =>
      (c.stream.serve server s.server).map fun (stream, done, w) =>
        { s with
          active := s.active.set i { c with stream }
          executed := s.executed ++ done
          server := w }
  | .serveOrphan i => s.orphans[i]?.bind fun stream =>
      (stream.serve server s.server).map fun (stream, done, w) =>
        { s with orphans := s.orphans.set i stream, executed := s.executed ++ done, server := w }
  | .fail i => s.active[i]?.map fun c =>
      { s with active := s.active.set i { c with stream := { c.stream with broken := true } } }
  | .lose i => s.active[i]?.bind fun c =>
      if c.stream.broken then
        some { s with active := s.active.set i { c with stream := { c.stream with wire := [] } } }
      else none

/-- The start of a run. -/
def State.initial (w : σ) : State σ := { server := w }

/-- What a step can do, with the conditions under which it does it. -/
inductive Steps (config : ClientConfig) (server : Server σ) (s : State σ) : Action → State σ → Prop
  | writeLock {thread : ℕ} {b : Block} (hpc : s.pcs thread = .idle) (hlock : s.lock = none) :
      Steps config server s (.writeLock thread b)
        ({ s with lock := some thread }.goto thread (.locked b))
  | writeWait {thread : ℕ} {b : Block} (hpc : s.pcs thread = .locked b)
      (hfull : s.cacheSize > config.cacheSize) :
      Steps config server s (.writeCheck thread)
        (s.scheduleFlush.goto thread (.waiting s.nextCall b))
  | writeFlush {thread : ℕ} {b : Block} (hpc : s.pcs thread = .locked b)
      (hroom : s.cacheSize ≤ config.cacheSize)
      (hover : config.overThreshold s.blocksQueueSize = true) :
      Steps config server s (.writeCheck thread) (s.scheduleFlush.goto thread (.ready b))
  | writeReady {thread : ℕ} {b : Block} (hpc : s.pcs thread = .locked b)
      (hroom : s.cacheSize ≤ config.cacheSize)
      (hunder : config.overThreshold s.blocksQueueSize = false) :
      Steps config server s (.writeCheck thread) (s.goto thread (.ready b))
  | writeGet {thread call : ℕ} {b : Block} (hpc : s.pcs thread = .waiting call b)
      (hresolved : s.isResolved call = true) :
      Steps config server s (.writeGet thread) (s.goto thread (.ready b))
  | writeAppend {thread : ℕ} {b : Block} (hpc : s.pcs thread = .ready b) :
      Steps config server s (.writeAppend thread) (s.writeAppend thread b)
  | flushSchedule {thread : ℕ} {kind : FlushKind} (hpc : s.pcs thread = .idle)
      (hlock : s.lock = none) :
      Steps config server s (.flushSchedule thread kind)
        (s.scheduleFlush.goto thread (.flushing s.nextCall kind s.appended.length))
  | flushGet {thread call mark : ℕ} {kind : FlushKind}
      (hpc : s.pcs thread = .flushing call kind mark) (hresolved : s.isResolved call = true) :
      Steps config server s (.flushGet thread) (s.goto thread (.flushed kind mark))
  | flushReturn {thread mark : ℕ} {ok : Bool} {kind : FlushKind}
      (hpc : s.pcs thread = .flushed kind mark) :
      Steps config server s (.flushReturn thread ok)
        ({ (s.finishFlush server ok kind).2 with
          returned := (kind, mark, (s.finishFlush server ok kind).1) ::
            (s.finishFlush server ok kind).2.returned }.goto thread .idle)
  | timer (hlock : s.lock = none) : Steps config server s .timer s.scheduleFlush
  | receive {event : Event} {channel : List Event} (hreceived : s.received = none)
      (hchannel : s.channel = event :: channel) (hrunning : s.terminated = false) :
      Steps config server s .receive { s with channel, received := some event }
  | handle {event : Event} (hreceived : s.received = some event) :
      Steps config server s .handle ({ s with received := none }.handle event)
  | proceed {i : ℕ} {ok : Bool} {c : CallData} (hc : s.active[i]? = some c)
      (hunfinished : c.callStatus ≠ .finished) (hok : ok = true ∨ c.stream.broken = true) :
      Steps config server s (.proceed i ok)
        { s with
          active := s.active.set i (c.proceed config.blockSize)
          cacheSize := c.popped.foldl (fun n b => sizeSub n b.size) s.cacheSize }
  | endCall {i : ℕ} {ok : Bool} {c : CallData} (hc : s.active[i]? = some c)
      (hfinished : c.callStatus = .finished)
      (hdone : c.stream.broken = true ∨ c.stream.serverDone = true) :
      Steps config server s (.proceed i ok) (s.endCall i c !c.stream.broken)
  | resolve {i : ℕ} {p : ℕ × Bool} (hp : s.ending[i]? = some p) :
      Steps config server s (.resolve i)
        { s with ending := s.ending.eraseIdx i, promises := s.promises ++ [p] }
  | execute {i : ℕ} {c : CallData} {m : Message} {wire : List Message}
      (hc : s.active[i]? = some c) (hwire : c.stream.wire = m :: wire)
      (hdone : c.stream.serverDone = false) :
      Steps config server s (.serve i)
        { s with
          active := s.active.set i { c with stream := { c.stream with wire } }
          executed := s.executed ++ [(m, (server.write m.request s.server).1)]
          server := (server.write m.request s.server).2 }
  | finish {i : ℕ} {c : CallData} (hc : s.active[i]? = some c) (hwire : c.stream.wire = [])
      (hclosed : c.stream.halfClosed = true ∨ c.stream.broken = true)
      (hdone : c.stream.serverDone = false) :
      Steps config server s (.serve i)
        { s with
          active := s.active.set i { c with stream := { c.stream with serverDone := true } } }
  | executeOrphan {i : ℕ} {stream : Stream} {m : Message} {wire : List Message}
      (hstream : s.orphans[i]? = some stream) (hwire : stream.wire = m :: wire)
      (hdone : stream.serverDone = false) :
      Steps config server s (.serveOrphan i)
        { s with
          orphans := s.orphans.set i { stream with wire }
          executed := s.executed ++ [(m, (server.write m.request s.server).1)]
          server := (server.write m.request s.server).2 }
  | finishOrphan {i : ℕ} {stream : Stream} (hstream : s.orphans[i]? = some stream)
      (hwire : stream.wire = []) (hclosed : stream.halfClosed = true ∨ stream.broken = true)
      (hdone : stream.serverDone = false) :
      Steps config server s (.serveOrphan i)
        { s with orphans := s.orphans.set i { stream with serverDone := true } }
  | fail {i : ℕ} {c : CallData} (hc : s.active[i]? = some c) :
      Steps config server s (.fail i)
        { s with active := s.active.set i { c with stream := { c.stream with broken := true } } }
  | lose {i : ℕ} {c : CallData} (hc : s.active[i]? = some c) (hbroken : c.stream.broken = true) :
      Steps config server s (.lose i)
        { s with active := s.active.set i { c with stream := { c.stream with wire := [] } } }

variable {config : ClientConfig} {server : Server σ} {s t : State σ} {a : Action}

/-- The two things that a handler can do on its stream: execute the next message, or
finish the call because nothing more will come. -/
theorem serve_cases {stream stream' : Stream} {w w' : σ} {done : List (Message × ℤ)}
    (h : stream.serve server w = some (stream', done, w')) :
    stream.serverDone = false ∧
      ((∃ m wire, stream.wire = m :: wire ∧ stream' = { stream with wire } ∧
        done = [(m, (server.write m.request w).1)] ∧ w' = (server.write m.request w).2) ∨
      (stream.wire = [] ∧ (stream.halfClosed = true ∨ stream.broken = true) ∧
        stream' = { stream with serverDone := true } ∧ done = [] ∧ w' = w)) := by
  unfold Stream.serve at h
  split at h
  · cases h
  · next hdone =>
    refine ⟨by simpa using hdone, ?_⟩
    split at h
    · next m wire hwire =>
      simp only [Option.some.injEq, Prod.mk.injEq] at h
      obtain ⟨rfl, rfl, rfl⟩ := h
      exact Or.inl ⟨m, wire, hwire, rfl, rfl, rfl⟩
    · next hwire =>
      split at h
      · next hclosed =>
        simp only [Option.some.injEq, Prod.mk.injEq] at h
        obtain ⟨rfl, rfl, rfl⟩ := h
        exact Or.inr ⟨hwire, hclosed, rfl, rfl, rfl⟩
      · cases h

/-- **Inversion.** Every step is one of those listed. -/
theorem steps_of_step (hstep : s.step config server a = some t) : Steps config server s a t := by
  cases a with
  | writeLock thread b =>
    simp only [State.step] at hstep
    split at hstep
    · next hidle =>
      obtain rfl := Option.some.inj hstep
      exact .writeLock hidle.1 hidle.2
    · cases hstep
  | writeCheck thread =>
    simp only [State.step] at hstep
    split at hstep
    · next b hpc =>
      obtain rfl := Option.some.inj hstep
      unfold State.writeCheck
      split
      · next hfull => exact .writeWait hpc hfull
      · next hroom =>
        split
        · next hover => exact .writeFlush hpc (Nat.not_lt.mp hroom) hover
        · next hunder => exact .writeReady hpc (Nat.not_lt.mp hroom) (by simpa using hunder)
    · cases hstep
  | writeGet thread =>
    simp only [State.step] at hstep
    split at hstep
    · next call b hpc =>
      split at hstep
      · next hresolved =>
        obtain rfl := Option.some.inj hstep
        exact .writeGet hpc hresolved
      · cases hstep
    · cases hstep
  | writeAppend thread =>
    simp only [State.step] at hstep
    split at hstep
    · next b hpc =>
      obtain rfl := Option.some.inj hstep
      exact .writeAppend hpc
    · cases hstep
  | flushSchedule thread kind =>
    simp only [State.step] at hstep
    split at hstep
    · next hidle =>
      obtain rfl := Option.some.inj hstep
      exact .flushSchedule hidle.1 hidle.2
    · cases hstep
  | flushGet thread =>
    simp only [State.step] at hstep
    split at hstep
    · next call kind mark hpc =>
      split at hstep
      · next hresolved =>
        obtain rfl := Option.some.inj hstep
        exact .flushGet hpc hresolved
      · cases hstep
    · cases hstep
  | flushReturn thread ok =>
    simp only [State.step] at hstep
    split at hstep
    · next kind mark hpc =>
      obtain rfl := Option.some.inj hstep
      exact .flushReturn hpc
    · cases hstep
  | timer =>
    simp only [State.step] at hstep
    split at hstep
    · next hlock =>
      obtain rfl := Option.some.inj hstep
      exact .timer hlock
    · cases hstep
  | receive =>
    simp only [State.step] at hstep
    split at hstep
    · next event channel hreceived hchannel =>
      split at hstep
      · cases hstep
      · next hrunning =>
        obtain rfl := Option.some.inj hstep
        exact .receive hreceived hchannel (by simpa using hrunning)
    · cases hstep
  | handle =>
    simp only [State.step, Option.map_eq_some_iff] at hstep
    obtain ⟨event, hreceived, rfl⟩ := hstep
    exact .handle hreceived
  | proceed i ok =>
    simp only [State.step, Option.bind_eq_some_iff] at hstep
    obtain ⟨c, hc, hproceed⟩ := hstep
    unfold State.proceed at hproceed
    split at hproceed
    · next hfinished =>
      split at hproceed
      · next hdone =>
        obtain rfl := Option.some.inj hproceed
        exact .endCall hc hfinished hdone
      · cases hproceed
    · next hunfinished =>
      split at hproceed
      · next hok =>
        obtain rfl := Option.some.inj hproceed
        exact .proceed hc hunfinished hok
      · cases hproceed
  | resolve i =>
    simp only [State.step, Option.map_eq_some_iff] at hstep
    obtain ⟨p, hp, rfl⟩ := hstep
    exact .resolve hp
  | serve i =>
    simp only [State.step, Option.bind_eq_some_iff, Option.map_eq_some_iff] at hstep
    obtain ⟨c, hc, ⟨stream, done, w⟩, hserve, rfl⟩ := hstep
    rcases serve_cases hserve with ⟨hdone, ⟨m, wire, hwire, rfl, rfl, rfl⟩ |
      ⟨hwire, hclosed, rfl, rfl, rfl⟩⟩
    · exact .execute hc hwire hdone
    · rw [List.append_nil]
      exact .finish hc hwire hclosed hdone
  | serveOrphan i =>
    simp only [State.step, Option.bind_eq_some_iff, Option.map_eq_some_iff] at hstep
    obtain ⟨stream, hstream, ⟨stream', done, w⟩, hserve, rfl⟩ := hstep
    rcases serve_cases hserve with ⟨hdone, ⟨m, wire, hwire, rfl, rfl, rfl⟩ |
      ⟨hwire, hclosed, rfl, rfl, rfl⟩⟩
    · exact .executeOrphan hstream hwire hdone
    · rw [List.append_nil]
      exact .finishOrphan hstream hwire hclosed hdone
  | fail i =>
    simp only [State.step, Option.map_eq_some_iff] at hstep
    obtain ⟨c, hc, rfl⟩ := hstep
    exact .fail hc
  | lose i =>
    simp only [State.step, Option.bind_eq_some_iff] at hstep
    obtain ⟨c, hc, hlose⟩ := hstep
    split at hlose
    · next hbroken =>
      obtain rfl := Option.some.inj hlose
      exact .lose hc hbroken
    · cases hlose

/-- Every step listed can be taken. -/
theorem Steps.step_eq (h : Steps config server s a t) : s.step config server a = some t := by
  cases h with
  | writeLock hpc hlock => simp only [State.step, hpc, hlock, and_self, if_true]
  | writeWait hpc hfull => simp only [State.step, hpc, State.writeCheck, hfull, if_true]
  | writeFlush hpc hroom hover =>
    simp only [State.step, hpc, State.writeCheck, Nat.not_lt.mpr hroom, hover, if_false,
      if_true]
  | writeReady hpc hroom hunder =>
    simp only [State.step, hpc, State.writeCheck, Nat.not_lt.mpr hroom, hunder, if_false,
      Bool.false_eq_true]
  | writeGet hpc hresolved => simp only [State.step, hpc, hresolved, if_true]
  | writeAppend hpc => simp only [State.step, hpc]
  | flushSchedule hpc hlock => simp only [State.step, hpc, hlock, and_self, if_true]
  | flushGet hpc hresolved => simp only [State.step, hpc, hresolved, if_true]
  | flushReturn hpc => simp only [State.step, hpc]
  | timer hlock => simp only [State.step, hlock, if_true]
  | receive hreceived hchannel hrunning =>
    simp only [State.step, hreceived, hchannel, hrunning, Bool.false_eq_true, if_false]
  | handle hreceived => simp only [State.step, hreceived, Option.map_some]
  | proceed hc hunfinished hok =>
    simp only [State.step, hc, Option.bind_some, State.proceed, hunfinished, hok, if_false, if_true]
  | endCall hc hfinished hdone =>
    simp only [State.step, hc, Option.bind_some, State.proceed, hfinished, hdone, if_true]
  | resolve hp => simp only [State.step, hp, Option.map_some]
  | execute hc hwire hdone =>
    simp only [State.step, hc, Option.bind_some, Stream.serve, hwire, hdone, Bool.false_eq_true,
      if_false, Option.map_some]
  | finish hc hwire hclosed hdone =>
    simp only [State.step, hc, Option.bind_some, Stream.serve, hwire, hclosed, hdone,
      Bool.false_eq_true, if_false, if_true, Option.map_some, List.append_nil]
  | executeOrphan hstream hwire hdone =>
    simp only [State.step, hstream, Option.bind_some, Stream.serve, hwire, hdone,
      Bool.false_eq_true, if_false, Option.map_some]
  | finishOrphan hstream hwire hclosed hdone =>
    simp only [State.step, hstream, Option.bind_some, Stream.serve, hwire, hclosed, hdone,
      Bool.false_eq_true, if_false, if_true, Option.map_some, List.append_nil]
  | fail hc => simp only [State.step, hc, Option.map_some]
  | lose hc hbroken => simp only [State.step, hc, Option.bind_some, hbroken, if_true]

end RSafeFS.AsyncClient
