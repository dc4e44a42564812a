import RSafeFS.DataCache.ConcurrentReads
import RSafeFS.MetadataCache.Hooks
import RSafeFS.ReadAhead.Cache

/-!
# A client with all three caches

The stack of `config_examples/async_client.yml`, as the `init_layer` functions are meant to build
it: the data cache over the metadata cache over the read-ahead cache, each calling the hooks of the
next. The `open` and `release` of the data cache go through those of the metadata cache, which
remove the entry of the path first, to those of the read-ahead cache. Its `getattr` is that of the
metadata cache, and its `read` that of the read-ahead cache. A call of the read-ahead cache and the
hook above it are one step. A `getattr` looks the path up, asks the layer below and puts its answer
in three steps.
-/

namespace RSafeFS.Stack

variable {σ ρ ρ' : Type}

/-- The configurations of the three caches. -/
structure StackConfig where
  data : DataCacheConfig
  attributes : MetadataCacheConfig
  ahead : ReadAheadConfig

/-- The moment of an open, and that at which the attributes it found were fetched. -/
structure Opened where
  entered : ℤ
  fetched : ℤ

/-- Where an open or a `getattr` of the client is. The moment `entered` is that of the open. -/
inductive Opening where
  | idle
  | begun (path : PathName) (entered : Option ℤ)
  | missed (path : PathName) (entered : Option ℤ)
  | asked (path : PathName) (entered : Option ℤ) (reply : ℤ × Stat) (fetched : ℤ)
  | found (path : PathName) (mtime : Timespec) (opened : Opened)

/-- The path of an open that has no attributes yet, and its moment. -/
def Opening.under : Opening → Option (PathName × ℤ)
  | .begun path entered | .missed path entered | .asked path entered _ _ =>
    entered.map fun moment => (path, moment)
  | _ => none

/-- The path that an open is about. -/
def Opening.path : Opening → Option PathName
  | .found path _ _ => some path
  | x => x.under.map Prod.fst

/-- The place after a `getattr` that has given attributes. -/
def Opening.answered (path : PathName) (entered : Option ℤ) (mtime : Timespec) (fetched : ℤ) :
    Opening :=
  match entered with
  | none => .idle
  | some moment => .found path mtime ⟨moment, fetched⟩

/-- The caches and the state below them. The last three fields are records: the moment at which the
attributes of an entry were fetched, the open whose modification time the data cache has for a path,
and the one that the read of a thread goes by. -/
structure Client (σ ρ ρ' : Type) where
  threads : DataCache.Threads ρ
  attributes : MetadataCache.Cache ρ'
  ahead : ReadAhead.Cache
  world : σ
  openings : ℕ → Opening
  fetchedOf : PathName → ℤ
  openedAt : PathName → Option Opened
  since : ℕ → Option (PathName × Opened)

/-- The start of a run. -/
def Client.start (w : σ) (dataState : ρ) (attributesState : ρ') : Client σ ρ ρ' where
  threads := .initial dataState
  attributes := ⟨∅, attributesState⟩
  ahead := ⟨∅⟩
  world := w
  openings _ := .idle
  fetchedOf _ := 0
  openedAt _ := none
  since _ := none

/-- A step of a call, or a change below. `stat` starts a `getattr` of the client itself; `get`, `ask`
and `put` are the steps of one. `forget` is another hook of the metadata cache that removes the entry
of a path. -/
inductive ClientAction (σ : Type) where
  | «open» (opener : ℕ) (path : PathName) (fi : FuseFileInfo)
  | stat (opener : ℕ) (path : PathName)
  | get (opener : ℕ)
  | ask (opener : ℕ)
  | put (opener : ℕ)
  | record (opener : ℕ)
  | start (thread : ℕ) (path : PathName) (size offset : ℕ) (fi : FuseFileInfo)
  | advance (thread : ℕ)
  | release (path : PathName) (fi : FuseFileInfo)
  | forget (path : PathName)
  | change (w : σ)

/-- The `fuse_file_info` of the read that a thread is in. -/
def handle : DataCache.Pc → FuseFileInfo
  | .bypassing _ _ _ fi => fi
  | pc => pc.reading.elim default DataCache.Reading.fi

variable (config : StackConfig) (policy : EvictionPolicy DataCache.Key ρ)
  (policy' : EvictionPolicy PathName ρ') (lower : ReadLayer σ) (time : σ → ℤ)

/-- The `put` of a `getattr`. It leaves an entry that the path still has as it is. -/
def Client.put (s : Client σ ρ ρ') (path : PathName) (stbuf : Stat) (fetched : ℤ) :
    Client σ ρ ρ' :=
  { s with
    attributes := s.attributes.put config.attributes policy' path stbuf (time s.world)
    fetchedOf :=
      if ((s.attributes.makeRoom config.attributes policy').lookup path).isSome then s.fetchedOf
      else Function.update s.fetchedOf path fetched }

/-- The read of the layer below that the next step of a thread makes, by the read-ahead cache. -/
def Client.fetch (s : Client σ ρ ρ') (thread : ℕ) : Option ((ℤ × Bytes) × ReadAhead.Cache) :=
  match s.threads.asked config.data thread with
  | none => some ((0, []), s.ahead)
  | some (path, size, offset) =>
    match s.ahead.read config.ahead lower path size offset (handle (s.threads.pcs thread)) s.world with
    | (.ret res buf, ahead) => some ((res, buf), ahead)
    | (.undefined, _) => none

/-- One step. An open that fails below leaves the data cache as it is. -/
def Client.step (s : Client σ ρ ρ') : ClientAction σ → Option (Client σ ρ ρ')
  | .open opener path fi =>
    match s.openings opener with
    | .idle =>
      let ((res, _), ahead, world) := s.ahead.open lower path fi s.world
      some { s with
        attributes := s.attributes.remove policy' path
        ahead
        world
        openings := Function.update s.openings opener
          (if res < 0 then .idle else .begun path (some (time s.world))) }
    | _ => none
  | .stat opener path =>
    match s.openings opener with
    | .idle => some { s with openings := Function.update s.openings opener (.begun path none) }
    | _ => none
  | .get opener =>
    match s.openings opener with
    | .begun path entered =>
      match s.attributes.get config.attributes policy' path (time s.world) with
      | (some stbuf, attributes) => some { s with
          attributes
          openings := Function.update s.openings opener
            (.answered path entered stbuf.mtim (s.fetchedOf path)) }
      | (none, attributes) => some { s with
          attributes
          openings := Function.update s.openings opener (.missed path entered) }
    | _ => none
  | .ask opener =>
    match s.openings opener with
    | .missed path entered => some { s with
        openings := Function.update s.openings opener
          (.asked path entered (lower.getattr path s.world) (time s.world)) }
    | _ => none
  | .put opener =>
    match s.openings opener with
    | .asked path entered (res, stbuf) fetched =>
      let s := if res = 0 then s.put config policy' time path stbuf fetched else s
      some { s with
        openings := Function.update s.openings opener
          (if res < 0 then .idle else .answered path entered stbuf.mtim fetched) }
    | _ => none
  | .record opener =>
    match s.openings opener with
    | .found path mtime opened =>
      (s.threads.step config.data policy (.opened path mtime)).map fun threads => { s with
        threads
        openings := Function.update s.openings opener .idle
        openedAt := Function.update s.openedAt path (some opened) }
    | _ => none
  | .start thread path size offset fi =>
    (s.threads.step config.data policy (.start thread path size offset fi)).map fun threads => { s with
      threads
      since := Function.update s.since thread ((s.openedAt path).map fun opened => (path, opened)) }
  | .advance thread =>
    (s.fetch config lower thread).bind fun (reply, ahead) =>
      (s.threads.step config.data policy (.advance thread ⟨reply, time s.world⟩)).map fun threads =>
        { s with threads, ahead }
  | .release path fi =>
    (s.threads.step config.data policy (.released path)).map fun threads =>
      let (_, ahead, world) := s.ahead.release lower path fi s.world
      { s with
        threads
        attributes := s.attributes.remove policy' path
        ahead
        world
        openedAt := Function.update s.openedAt path none }
  | .forget path => some { s with attributes := s.attributes.remove policy' path }
  | .change w => some { s with world := w }

variable {config policy policy' lower time}

section Getattr

variable {s : Client σ ρ ρ'} {opener : ℕ} {path : PathName} {entered : Option ℤ}
  {c : MetadataCache.Cache ρ'}

theorem step_get_of_hit {stbuf : Stat} (hbegun : s.openings opener = .begun path entered)
    (hget : s.attributes.get config.attributes policy' path (time s.world) = (some stbuf, c)) :
    s.step config policy policy' lower time (.get opener) = some { s with
      attributes := c
      openings := Function.update s.openings opener
        (.answered path entered stbuf.mtim (s.fetchedOf path)) } := by
  simp only [Client.step, hbegun, hget]

theorem step_get_of_miss (hbegun : s.openings opener = .begun path entered)
    (hget : s.attributes.get config.attributes policy' path (time s.world) = (none, c)) :
    s.step config policy policy' lower time (.get opener) = some { s with
      attributes := c
      openings := Function.update s.openings opener (.missed path entered) } := by
  simp only [Client.step, hbegun, hget]

theorem step_ask (hmissed : s.openings opener = .missed path entered) :
    s.step config policy policy' lower time (.ask opener) = some { s with
      openings := Function.update s.openings opener
        (.asked path entered (lower.getattr path s.world) (time s.world)) } := by
  simp only [Client.step, hmissed]

theorem step_put {reply : ℤ × Stat} {fetched : ℤ}
    (hasked : s.openings opener = .asked path entered reply fetched) :
    s.step config policy policy' lower time (.put opener) =
      let s' := if reply.1 = 0 then s.put config policy' time path reply.2 fetched else s
      some { s' with
        openings := Function.update s'.openings opener
          (if reply.1 < 0 then .idle else .answered path entered reply.2.mtim fetched) } := by
  simp only [Client.step, hasked]

/-- The steps of a `getattr`, one right after the other, are `metadata_cache_getattr`. -/
theorem getattr_of_steps (hbegun : s.openings opener = .begun path entered) :
    ∃ actions t fetched,
      Transition.run (Client.step config policy policy' lower time) s actions = some t ∧
      let reply := MetadataCache.fetchThrough config.attributes policy'
        (lower.getattr path s.world) path (time s.world) (time s.world) s.attributes
      t.attributes = reply.2 ∧ t.openings opener =
        if reply.1.1 < 0 then .idle else .answered path entered reply.1.2.mtim fetched := by
  unfold MetadataCache.fetchThrough
  cases hget : s.attributes.get config.attributes policy' path (time s.world) with
  | mk found c =>
    cases found with
    | some stbuf =>
      refine ⟨[.get opener], _, s.fetchedOf path,
        Transition.run_cons.mpr ⟨_, step_get_of_hit hbegun hget, rfl⟩, rfl, ?_⟩
      exact Function.update_self _ _ _
    | none =>
      refine ⟨[.get opener, .ask opener, .put opener], _, time s.world,
        Transition.run_cons.mpr ⟨_, step_get_of_miss hbegun hget,
          Transition.run_cons.mpr ⟨_, step_ask (Function.update_self _ _ _),
            Transition.run_cons.mpr ⟨_, step_put (Function.update_self _ _ _), rfl⟩⟩⟩, ?_, ?_⟩
      · dsimp only
        split <;> rfl
      · dsimp only
        rw [Function.update_self]
        by_cases hzero : (lower.getattr path s.world).1 = 0
        · simp only [hzero, if_true]
        · simp only [hzero, if_false]

end Getattr

end RSafeFS.Stack
