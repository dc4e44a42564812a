import RSafeFS.DataCache.Cache
import RSafeFS.Lib.Transition

/-!
# Concurrent reads on the data cache

Several threads run `cache::read` at once. What a thread does between taking a lock and
releasing it is one step, and so is every use of the eviction policy and of `cache_size_`.
A read that finds its block outdated keeps `cache_mtx_` shared while it fetches the block
again and copies from it; blocks are added and removed under the exclusive lock. The reply
of the layer below and the reading of the clock come with the step that asks for them.
-/

namespace RSafeFS.DataCache

/-- The loop of one `cache::read`: its arguments, the modification time that it found and
the bytes copied so far. -/
structure Reading where
  path : PathName
  size : ℕ
  offset : ℕ
  fi : FuseFileInfo
  mtime : Timespec
  out : Bytes
  deriving DecidableEq, Repr

/-- The position `seeker`. -/
def Reading.seeker (r : Reading) : ℕ := r.offset + r.out.length

/-- Where a thread is. The first group is the loop and its use of a block in the cache, the
second the removal of a block whose fetch failed, the third the way of a new block into
the cache. -/
inductive Pc where
  | idle
  | bypassing (path : PathName) (size offset : ℕ) (fi : FuseFileInfo)
  | looking (r : Reading)
  | refreshing (r : Reading) (key : Key)
  | copying (r : Reading) (key : Key)
  | touching (r : Reading) (key : Key)
  | failed (r : Reading) (key : Key) (res : ℤ)
  | removing (r : Reading) (key : Key) (res : ℤ)
  | dropping (r : Reading) (key : Key) (res : ℤ)
  | sizing (r : Reading) (key : Key)
  | evicting (r : Reading) (key : Key)
  | discarding (r : Reading) (key selected : Key)
  | fetching (r : Reading) (key : Key)
  | emplacing (r : Reading) (key : Key) (newBuf : Bytes) (blockSize : ℕ)
  | counting (r : Reading) (key : Key)
  deriving DecidableEq, Repr

/-- A `memcpy` out of a block, with the block as it was then. -/
structure Copy where
  key : Key
  block : Block
  seeker : ℕ
  nBytes : ℕ

/-- The bytes of a copy. -/
def Copy.bytes (c : Copy) : Bytes := (c.block.buf.drop (c.seeker - c.block.offset)).take c.nBytes

/-- A read that has returned. -/
structure Returned where
  path : PathName
  size : ℕ
  offset : ℕ
  outcome : Outcome

/-- The threads over one cache. `shared` lists those that hold `cache_mtx_` shared between
two of their steps. The last two fields are records for the statements. -/
structure Threads (ρ : Type) where
  cache : Cache ρ
  pcs : ℕ → Pc
  shared : List ℕ
  copies : List Copy
  returned : List Returned

/-- The start of a run: the cache is empty and every thread is idle. -/
def Threads.initial {ρ : Type} (policyState : ρ) : Threads ρ :=
  ⟨.empty policyState, fun _ => .idle, [], [], []⟩

/-- What a step gets from outside: a result of the layer below with the bytes it put into
the buffer, and a reading of the clock. -/
structure Env where
  reply : ℤ × Bytes
  now : ℤ

/-- A thread starts a read or takes its next step; `open` and `release` set and erase a
modification time. -/
inductive ThreadAction where
  | start (thread : ℕ) (path : PathName) (size offset : ℕ) (fi : FuseFileInfo)
  | advance (thread : ℕ) (env : Env)
  | opened (path : PathName) (mtime : Timespec)
  | released (path : PathName)

/-- The conversion of an `int` to `size_t`. -/
def toSize (res : ℤ) : ℕ := if res < 0 then (2 ^ 64 + res).toNat else res.toNat

/-- The update of a block. It is made whether or not the fetch succeeded. -/
def Block.update (b : Block) (mtime : Timespec) (env : Env) : Block :=
  { b with buf := overlay env.reply.2 b.buf, size := toSize env.reply.1, timestamp := env.now, mtime }

/-- The number of bytes to copy out of a block. Both subtractions are of unsigned values. -/
def Reading.nBytesToCopy (r : Reading) (b : Block) : ℕ :=
  min (sizeSub r.size r.out.length) (sizeSub b.size (r.seeker - b.offset))

variable {ρ : Type} (config : DataCacheConfig) (policy : EvictionPolicy Key ρ)

/-- Move a thread to another place. -/
def Threads.goto (s : Threads ρ) (thread : ℕ) (pc : Pc) : Threads ρ :=
  { s with pcs := Function.update s.pcs thread pc }

/-- The end of a read. -/
def Threads.finish (s : Threads ρ) (thread : ℕ) (r : Reading) (outcome : Outcome) : Threads ρ :=
  { s with returned := ⟨r.path, r.size, r.offset, outcome⟩ :: s.returned }.goto thread .idle

/-- The end of a hold of `cache_mtx_`. -/
def Threads.unlock (s : Threads ρ) (thread : ℕ) : Threads ρ :=
  { s with shared := s.shared.erase thread }

/-- The copy out of a block. Reading past its buffer is undefined. -/
def Threads.copy (s : Threads ρ) (thread : ℕ) (r : Reading) (key : Key) (b : Block) : Threads ρ :=
  let n := r.nBytesToCopy b
  if n = 0 then s.finish thread r (.ret (toInt r.out.length) r.out)
  else
    let copy : Copy := ⟨key, b, r.seeker, n⟩
    let s := { s with copies := copy :: s.copies }
    if r.seeker - b.offset + n ≤ b.buf.length then
      s.goto thread (.touching { r with out := r.out ++ copy.bytes } key)
    else s.finish thread r .undefined

/-- The first step of a read: without a recorded modification time it does not use the cache. -/
def Threads.enter (s : Threads ρ) (thread : ℕ) (path : PathName) (size offset : ℕ)
    (fi : FuseFileInfo) : Threads ρ :=
  match s.cache.mtimes.lookup path with
  | none => s.goto thread (.bypassing path size offset fi)
  | some mtime => s.goto thread (.looking ⟨path, size, offset, fi, mtime, []⟩)

/-- The head of the loop, with the look-up of the block. Division by a block size of zero
ends the run. -/
def Threads.look (s : Threads ρ) (thread : ℕ) (r : Reading) (env : Env) : Option (Threads ρ) :=
  if r.out.length = r.size then some (s.finish thread r (.ret (toInt r.out.length) r.out))
  else if config.blockSize = 0 then none
  else
    let key := (r.path, r.seeker / config.blockSize)
    match s.cache.cache.lookup key with
    | none => some (s.goto thread (.sizing r key))
    | some b =>
      if b.isValid config.timeOut r.mtime env.now then some (s.copy thread r key b)
      else some ({ s with shared := thread :: s.shared }.goto thread (.refreshing r key))

/-- The next step of a thread inside a read. -/
def Threads.advance (s : Threads ρ) (thread : ℕ) (env : Env) : Pc → Option (Threads ρ)
  | .idle => none
  | .bypassing path size offset _ =>
    some ({ s with
      returned := ⟨path, size, offset, .ret env.reply.1 env.reply.2⟩ :: s.returned }.goto thread .idle)
  | .looking r => s.look config thread r env
  | .refreshing r key =>
    match s.cache.cache.lookup key with
    | none => none
    | some b =>
      some ({ s with
        cache.cache := s.cache.cache.insert key (b.update r.mtime env) }.goto thread
          (if env.reply.1 < 0 then .failed r key env.reply.1 else .copying r key))
  | .copying r key =>
    match s.cache.cache.lookup key with
    | none => none
    | some b => some ((s.unlock thread).copy thread r key b)
  | .touching r key => some ({ s with cache := s.cache.touch policy key }.goto thread (.looking r))
  | .failed r key res => some ((s.unlock thread).goto thread (.removing r key res))
  | .removing r key res =>
    if s.shared = [] then
      some ({ s with cache := s.cache.removeBlock config key }.goto thread (.dropping r key res))
    else none
  | .dropping r key res =>
    some ({ s with
      cache.policyState := policy.remove key s.cache.policyState }.finish thread r (.ret res r.out))
  | .sizing r key =>
    some (s.goto thread (if s.cache.cacheSize > config.size then .evicting r key else .fetching r key))
  | .evicting r key =>
    match policy.evict s.cache.policyState with
    | (some selected, state) =>
      some ({ s with cache.policyState := state }.goto thread (.discarding r key selected))
    | (none, state) => some ({ s with cache.policyState := state }.goto thread (.fetching r key))
  | .discarding r key selected =>
    if s.shared = [] then
      some ({ s with cache := s.cache.removeBlock config selected }.goto thread (.fetching r key))
    else none
  | .fetching r key =>
    if env.reply.1 < 0 then some (s.finish thread r (.ret env.reply.1 r.out))
    else if env.reply.1 = 0 then some (s.finish thread r (.ret (toInt r.out.length) r.out))
    else some (s.goto thread (.emplacing r key
      (overlay env.reply.2 (List.replicate config.blockSize 0)) env.reply.1.toNat))
  | .emplacing r key newBuf blockSize =>
    if s.shared = [] then
      match s.cache.cache.lookup key with
      | some _ => some (s.goto thread (.touching r key))
      | none =>
        some ({ s with
          cache.cache := s.cache.cache.insert key
            ⟨newBuf, blockSize, key.2 * config.blockSize, env.now, r.mtime⟩ }.goto thread
              (.counting r key))
    else none
  | .counting r key =>
    some ({ s with
      cache.cacheSize := (s.cache.cacheSize + config.blockSize) % 2 ^ 64 }.goto thread
        (.touching r key))

/-- One step of some thread, or of an `open` or a `release`. -/
def Threads.step (s : Threads ρ) : ThreadAction → Option (Threads ρ)
  | .start thread path size offset fi =>
    if s.pcs thread = .idle then some (s.enter thread path size offset fi) else none
  | .advance thread env => s.advance config policy thread env (s.pcs thread)
  | .opened path mtime => some { s with cache.mtimes := s.cache.mtimes.insert path mtime }
  | .released path => some { s with cache.mtimes := s.cache.mtimes.erase path }

/-- The key of the block at the position of a read. -/
def Reading.key (r : Reading) : Key := (r.path, r.seeker / config.blockSize)

/-- What a step can do, with the conditions under which it does it. -/
inductive Steps (s : Threads ρ) : ThreadAction → Threads ρ → Prop
  | bypass {thread size offset : ℕ} {path : PathName} {fi : FuseFileInfo}
      (hpc : s.pcs thread = .idle) :
      Steps s (.start thread path size offset fi) (s.goto thread (.bypassing path size offset fi))
  | begun {thread size offset : ℕ} {path : PathName} {fi : FuseFileInfo} {mtime : Timespec}
      (hpc : s.pcs thread = .idle) :
      Steps s (.start thread path size offset fi)
        (s.goto thread (.looking ⟨path, size, offset, fi, mtime, []⟩))
  | bypassed {thread size offset : ℕ} {path : PathName} {fi : FuseFileInfo} {env : Env}
      (hpc : s.pcs thread = .bypassing path size offset fi) :
      Steps s (.advance thread env) ({ s with
        returned := ⟨path, size, offset, .ret env.reply.1 env.reply.2⟩ :: s.returned }.goto thread
          .idle)
  | ended {thread : ℕ} {r : Reading} {env : Env} (hpc : s.pcs thread = .looking r) :
      Steps s (.advance thread env) (s.finish thread r (.ret (toInt r.out.length) r.out))
  | missed {thread : ℕ} {r : Reading} {env : Env} (hpc : s.pcs thread = .looking r)
      (hblock : config.blockSize ≠ 0) :
      Steps s (.advance thread env) (s.goto thread (.sizing r (r.key config)))
  | hit {thread : ℕ} {r : Reading} {env : Env} {b : Block} (hpc : s.pcs thread = .looking r)
      (hblock : config.blockSize ≠ 0)
      (hb : s.cache.cache.lookup (r.key config) = some b)
      (hvalid : b.isValid config.timeOut r.mtime env.now = true) :
      Steps s (.advance thread env) (s.copy thread r (r.key config) b)
  | outdated {thread : ℕ} {r : Reading} {env : Env} {b : Block} (hpc : s.pcs thread = .looking r)
      (hblock : config.blockSize ≠ 0)
      (hb : s.cache.cache.lookup (r.key config) = some b) :
      Steps s (.advance thread env)
        ({ s with shared := thread :: s.shared }.goto thread (.refreshing r (r.key config)))
  | refreshFailed {thread : ℕ} {r : Reading} {key : Key} {env : Env} {b : Block}
      (hpc : s.pcs thread = .refreshing r key) (hb : s.cache.cache.lookup key = some b)
      (hres : env.reply.1 < 0) :
      Steps s (.advance thread env) ({ s with
        cache.cache := s.cache.cache.insert key (b.update r.mtime env) }.goto thread
          (.failed r key env.reply.1))
  | refreshed {thread : ℕ} {r : Reading} {key : Key} {env : Env} {b : Block}
      (hpc : s.pcs thread = .refreshing r key) (hb : s.cache.cache.lookup key = some b)
      (hres : 0 ≤ env.reply.1) :
      Steps s (.advance thread env) ({ s with
        cache.cache := s.cache.cache.insert key (b.update r.mtime env) }.goto thread
          (.copying r key))
  | copied {thread : ℕ} {r : Reading} {key : Key} {env : Env} {b : Block}
      (hpc : s.pcs thread = .copying r key) (hb : s.cache.cache.lookup key = some b) :
      Steps s (.advance thread env) ((s.unlock thread).copy thread r key b)
  | touched {thread : ℕ} {r : Reading} {key : Key} {env : Env}
      (hpc : s.pcs thread = .touching r key) :
      Steps s (.advance thread env)
        ({ s with cache := s.cache.touch policy key }.goto thread (.looking r))
  | unlocked {thread : ℕ} {r : Reading} {key : Key} {res : ℤ} {env : Env}
      (hpc : s.pcs thread = .failed r key res) :
      Steps s (.advance thread env) ((s.unlock thread).goto thread (.removing r key res))
  | removed {thread : ℕ} {r : Reading} {key : Key} {res : ℤ} {env : Env}
      (hpc : s.pcs thread = .removing r key res) (hshared : s.shared = []) :
      Steps s (.advance thread env)
        ({ s with cache := s.cache.removeBlock config key }.goto thread (.dropping r key res))
  | dropped {thread : ℕ} {r : Reading} {key : Key} {res : ℤ} {env : Env}
      (hpc : s.pcs thread = .dropping r key res) :
      Steps s (.advance thread env) ({ s with
        cache.policyState := policy.remove key s.cache.policyState }.finish thread r
          (.ret res r.out))
  | full {thread : ℕ} {r : Reading} {key : Key} {env : Env}
      (hpc : s.pcs thread = .sizing r key) :
      Steps s (.advance thread env) (s.goto thread (.evicting r key))
  | room {thread : ℕ} {r : Reading} {key : Key} {env : Env}
      (hpc : s.pcs thread = .sizing r key) :
      Steps s (.advance thread env) (s.goto thread (.fetching r key))
  | evicted {thread : ℕ} {r : Reading} {key selected : Key} {state : ρ} {env : Env}
      (hpc : s.pcs thread = .evicting r key)
      (hevict : policy.evict s.cache.policyState = (some selected, state)) :
      Steps s (.advance thread env)
        ({ s with cache.policyState := state }.goto thread (.discarding r key selected))
  | evictedNone {thread : ℕ} {r : Reading} {key : Key} {state : ρ} {env : Env}
      (hpc : s.pcs thread = .evicting r key)
      (hevict : policy.evict s.cache.policyState = (none, state)) :
      Steps s (.advance thread env)
        ({ s with cache.policyState := state }.goto thread (.fetching r key))
  | discarded {thread : ℕ} {r : Reading} {key selected : Key} {env : Env}
      (hpc : s.pcs thread = .discarding r key selected) (hshared : s.shared = []) :
      Steps s (.advance thread env)
        ({ s with cache := s.cache.removeBlock config selected }.goto thread (.fetching r key))
  | fetchFailed {thread : ℕ} {r : Reading} {key : Key} {env : Env}
      (hpc : s.pcs thread = .fetching r key) (hres : env.reply.1 < 0) :
      Steps s (.advance thread env) (s.finish thread r (.ret env.reply.1 r.out))
  | fetchEnded {thread : ℕ} {r : Reading} {key : Key} {env : Env}
      (hpc : s.pcs thread = .fetching r key) :
      Steps s (.advance thread env) (s.finish thread r (.ret (toInt r.out.length) r.out))
  | fetched {thread : ℕ} {r : Reading} {key : Key} {env : Env}
      (hpc : s.pcs thread = .fetching r key) (hres : 0 ≤ env.reply.1) :
      Steps s (.advance thread env) (s.goto thread (.emplacing r key
        (overlay env.reply.2 (List.replicate config.blockSize 0)) env.reply.1.toNat))
  | found {thread : ℕ} {r : Reading} {key : Key} {newBuf : Bytes} {blockSize : ℕ} {env : Env}
      (hpc : s.pcs thread = .emplacing r key newBuf blockSize) (hmem : key ∈ s.cache.cache) :
      Steps s (.advance thread env) (s.goto thread (.touching r key))
  | emplaced {thread : ℕ} {r : Reading} {key : Key} {newBuf : Bytes} {blockSize : ℕ} {env : Env}
      (hpc : s.pcs thread = .emplacing r key newBuf blockSize) (hshared : s.shared = []) :
      Steps s (.advance thread env) ({ s with
        cache.cache := s.cache.cache.insert key
          ⟨newBuf, blockSize, key.2 * config.blockSize, env.now, r.mtime⟩ }.goto thread
            (.counting r key))
  | counted {thread : ℕ} {r : Reading} {key : Key} {env : Env}
      (hpc : s.pcs thread = .counting r key) :
      Steps s (.advance thread env) ({ s with
        cache.cacheSize := (s.cache.cacheSize + config.blockSize) % 2 ^ 64 }.goto thread
          (.touching r key))
  | opened {path : PathName} {mtime : Timespec} :
      Steps s (.opened path mtime) { s with cache.mtimes := s.cache.mtimes.insert path mtime }
  | released {path : PathName} :
      Steps s (.released path) { s with cache.mtimes := s.cache.mtimes.erase path }

variable {config policy} {s t : Threads ρ}

theorem steps_of_look {thread : ℕ} {r : Reading} {env : Env} (hpc : s.pcs thread = .looking r)
    (hstep : s.look config thread r env = some t) :
    Steps config policy s (.advance thread env) t := by
  unfold Threads.look at hstep
  split at hstep
  · obtain rfl := Option.some.inj hstep
    exact .ended hpc
  · split at hstep
    · cases hstep
    · next hblock =>
      dsimp only at hstep
      split at hstep
      · obtain rfl := Option.some.inj hstep
        exact .missed hpc hblock
      · next b hb =>
        split at hstep
        · next hvalid =>
          obtain rfl := Option.some.inj hstep
          exact .hit hpc hblock hb hvalid
        · obtain rfl := Option.some.inj hstep
          exact .outdated hpc hblock hb

theorem steps_of_advance {thread : ℕ} {env : Env}
    (hstep : s.advance config policy thread env (s.pcs thread) = some t) :
    Steps config policy s (.advance thread env) t := by
  cases hpc : s.pcs thread with
  | idle => simp [hpc, Threads.advance] at hstep
  | bypassing path size offset fi =>
    simp only [hpc, Threads.advance] at hstep
    obtain rfl := Option.some.inj hstep
    exact .bypassed hpc
  | looking r =>
    simp only [hpc, Threads.advance] at hstep
    exact steps_of_look hpc hstep
  | refreshing r key =>
    simp only [hpc, Threads.advance] at hstep
    split at hstep
    · cases hstep
    · next b hb =>
      obtain rfl := Option.some.inj hstep
      split
      · next hres => exact .refreshFailed hpc hb hres
      · next hres => exact .refreshed hpc hb (Int.not_lt.mp hres)
  | copying r key =>
    simp only [hpc, Threads.advance] at hstep
    split at hstep
    · cases hstep
    · next b hb =>
      obtain rfl := Option.some.inj hstep
      exact .copied hpc hb
  | touching r key =>
    simp only [hpc, Threads.advance] at hstep
    obtain rfl := Option.some.inj hstep
    exact .touched hpc
  | failed r key res =>
    simp only [hpc, Threads.advance] at hstep
    obtain rfl := Option.some.inj hstep
    exact .unlocked hpc
  | removing r key res =>
    simp only [hpc, Threads.advance] at hstep
    split at hstep
    · next hshared =>
      obtain rfl := Option.some.inj hstep
      exact .removed hpc hshared
    · cases hstep
  | dropping r key res =>
    simp only [hpc, Threads.advance] at hstep
    obtain rfl := Option.some.inj hstep
    exact .dropped hpc
  | sizing r key =>
    simp only [hpc, Threads.advance] at hstep
    obtain rfl := Option.some.inj hstep
    split
    · exact .full hpc
    · exact .room hpc
  | evicting r key =>
    simp only [hpc, Threads.advance] at hstep
    split at hstep
    · next selected state hevict =>
      obtain rfl := Option.some.inj hstep
      exact .evicted hpc hevict
    · next state hevict =>
      obtain rfl := Option.some.inj hstep
      exact .evictedNone hpc hevict
  | discarding r key selected =>
    simp only [hpc, Threads.advance] at hstep
    split at hstep
    · next hshared =>
      obtain rfl := Option.some.inj hstep
      exact .discarded hpc hshared
    · cases hstep
  | fetching r key =>
    simp only [hpc, Threads.advance] at hstep
    split at hstep
    · next hres =>
      obtain rfl := Option.some.inj hstep
      exact .fetchFailed hpc hres
    · next hres =>
      split at hstep
      · obtain rfl := Option.some.inj hstep
        exact .fetchEnded hpc
      · obtain rfl := Option.some.inj hstep
        exact .fetched hpc (Int.not_lt.mp hres)
  | emplacing r key newBuf blockSize =>
    simp only [hpc, Threads.advance] at hstep
    split at hstep
    · next hshared =>
      split at hstep
      · next b hb =>
        obtain rfl := Option.some.inj hstep
        exact .found hpc (AList.lookup_isSome.mp (by rw [hb]; rfl))
      · obtain rfl := Option.some.inj hstep
        exact .emplaced hpc hshared
    · cases hstep
  | counting r key =>
    simp only [hpc, Threads.advance] at hstep
    obtain rfl := Option.some.inj hstep
    exact .counted hpc

/-- **Inversion.** Every step is one of those listed. -/
theorem steps_of_step {a : ThreadAction} (hstep : s.step config policy a = some t) :
    Steps config policy s a t := by
  cases a with
  | start thread path size offset fi =>
    simp only [Threads.step] at hstep
    split at hstep
    · next hpc =>
      obtain rfl := Option.some.inj hstep
      unfold Threads.enter
      split
      · exact .bypass hpc
      · exact .begun hpc
    · cases hstep
  | advance thread env => exact steps_of_advance hstep
  | opened path mtime =>
    obtain rfl := Option.some.inj hstep
    exact .opened
  | released path =>
    obtain rfl := Option.some.inj hstep
    exact .released

section Frame

variable (s : Threads ρ) (thread : ℕ) (pc : Pc) (r : Reading) (key : Key) (b : Block)

@[simp] theorem goto_self : (s.goto thread pc).pcs thread = pc := by
  simp [Threads.goto]

theorem goto_of_ne {other : ℕ} (h : other ≠ thread) : (s.goto thread pc).pcs other = s.pcs other := by
  simp [Threads.goto, h]

/-- What holds of the thread that moves and of the others holds of all threads. -/
theorem forall_goto {P : ℕ → Pc → Prop} (hown : P thread pc)
    (hother : ∀ other, other ≠ thread → P other (s.pcs other)) (other : ℕ) :
    P other ((s.goto thread pc).pcs other) := by
  by_cases heq : other = thread
  · subst heq
    rwa [goto_self]
  · rw [goto_of_ne _ _ _ heq]
    exact hother other heq

/-- A copy moves only its thread. -/
theorem copy_of_ne {other : ℕ} (h : other ≠ thread) :
    (s.copy thread r key b).pcs other = s.pcs other := by
  unfold Threads.copy
  dsimp only
  split_ifs
  · exact goto_of_ne _ _ _ h
  · exact goto_of_ne _ _ _ h
  · exact goto_of_ne _ _ _ h

@[simp] theorem copy_shared : (s.copy thread r key b).shared = s.shared := by
  unfold Threads.copy
  dsimp only
  split_ifs <;> rfl

@[simp] theorem copy_cache : (s.copy thread r key b).cache = s.cache := by
  unfold Threads.copy
  dsimp only
  split_ifs <;> rfl

/-- After a copy its thread goes on to touch the block, or has returned. -/
theorem copy_self : (s.copy thread r key b).pcs thread = .idle ∨
    ∃ r', (s.copy thread r key b).pcs thread = .touching r' key := by
  unfold Threads.copy
  dsimp only
  split_ifs
  · exact Or.inl (goto_self _ _ _)
  · exact Or.inr ⟨_, goto_self _ _ _⟩
  · exact Or.inl (goto_self _ _ _)

end Frame

/-- The block that a thread uses under the shared lock. -/
def Pc.holds : Pc → Option Key
  | .refreshing _ key | .copying _ key | .failed _ key _ => some key
  | _ => none

/-- A thread that uses a block holds the lock, and the block is in the cache. -/
def Held (s : Threads ρ) : Prop :=
  ∀ thread key, (s.pcs thread).holds = some key → thread ∈ s.shared ∧ key ∈ s.cache.cache

/-- Without holders of the lock, no thread uses a block. -/
theorem Held.holds_eq_none (h : Held s) (hshared : s.shared = []) (thread : ℕ) :
    (s.pcs thread).holds = none := by
  rw [Option.eq_none_iff_forall_ne_some]
  intro key hholds
  have hmem := (h thread key hholds).1
  simp [hshared] at hmem

/-- A step of one thread that takes no lock and no block from the others keeps the locks. -/
theorem Held.frame (h : Held s) (thread : ℕ)
    (hpcs : ∀ other, other ≠ thread → t.pcs other = s.pcs other)
    (hshared : ∀ other, other ≠ thread → other ∈ s.shared → other ∈ t.shared)
    (hkeys : ∀ k, k ∈ s.cache.cache → k ∈ t.cache.cache)
    (hown : ∀ key, (t.pcs thread).holds = some key → thread ∈ t.shared ∧ key ∈ t.cache.cache) :
    Held t := by
  intro other key hholds
  by_cases heq : other = thread
  · subst heq
    exact hown key hholds
  · rw [hpcs other heq] at hholds
    obtain ⟨hmem, hkey⟩ := h other key hholds
    exact ⟨hshared other heq hmem, hkeys key hkey⟩

/-- A thread that uses no block after its step. -/
theorem Held.goto (h : Held s) {thread : ℕ} {pc : Pc} (hpc : pc.holds = none) :
    Held (s.goto thread pc) :=
  h.frame thread (fun _ => goto_of_ne s thread pc) (fun _ _ => id) (fun _ => id) fun key hholds => by
    rw [goto_self, hpc] at hholds
    cases hholds

/-- The removal of a block under the exclusive lock. -/
theorem Held.removed (h : Held s) (hshared : s.shared = []) {cache : Cache ρ} {thread : ℕ} {pc : Pc}
    (hpc : pc.holds = none) : Held ({ s with cache }.goto thread pc) := by
  have hnone : Held { s with cache } := by
    intro other key hholds
    simp [h.holds_eq_none hshared other] at hholds
  exact hnone.goto hpc

/-- Every step keeps the locks. -/
theorem Held.step (h : Held s) {a : ThreadAction} (hstep : s.step config policy a = some t) :
    Held t := by
  cases steps_of_step hstep with
  | bypass | begun | missed | full | room | fetched | found => exact h.goto rfl
  | bypassed hpc =>
    have hrecord : Held { s with returned := _ } := h
    exact hrecord.goto rfl
  | ended | fetchFailed | fetchEnded =>
    have hrecord : Held { s with returned := _ } := h
    exact hrecord.goto rfl
  | @hit thread r env b hpc hblock hb hvalid =>
    refine h.frame thread (fun _ => copy_of_ne _ _ _ _ _) (fun _ _ => ?_) (fun _ => ?_) fun key hholds => ?_
    · rw [copy_shared]
      exact id
    · rw [copy_cache]
      exact id
    · rcases copy_self s thread r (r.key config) b with hpc' | ⟨r', hpc'⟩
      · simp [hpc', Pc.holds] at hholds
      · simp [hpc', Pc.holds] at hholds
  | @outdated thread r env b hpc hblock hb =>
    refine h.frame thread (fun _ => goto_of_ne _ _ _) (fun _ _ => List.mem_cons_of_mem _) (fun _ => id) ?_
    intro key hholds
    rw [goto_self] at hholds
    obtain rfl := Option.some.inj hholds
    exact ⟨List.mem_cons_self, AList.lookup_isSome.mp (by simp [Threads.goto, hb])⟩
  | @refreshFailed thread r key env b hpc hb hres =>
    refine h.frame thread (fun _ => goto_of_ne _ _ _) (fun _ _ => id)
      (fun _ hk => (AList.mem_insert _).mpr (Or.inr hk)) fun k hholds => ?_
    rw [goto_self] at hholds
    obtain rfl := Option.some.inj hholds
    exact ⟨(h thread key (by rw [hpc]; rfl)).1, (AList.mem_insert _).mpr (Or.inl rfl)⟩
  | @refreshed thread r key env b hpc hb hres =>
    refine h.frame thread (fun _ => goto_of_ne _ _ _) (fun _ _ => id)
      (fun _ hk => (AList.mem_insert _).mpr (Or.inr hk)) fun k hholds => ?_
    rw [goto_self] at hholds
    obtain rfl := Option.some.inj hholds
    exact ⟨(h thread key (by rw [hpc]; rfl)).1, (AList.mem_insert _).mpr (Or.inl rfl)⟩
  | @copied thread r key env b hpc hb =>
    refine h.frame thread (fun other hne => ?_) (fun other hne hmem => ?_) (fun _ => ?_) fun k hholds => ?_
    · rw [copy_of_ne _ _ _ _ _ hne]
      rfl
    · rw [copy_shared]
      exact (List.mem_erase_of_ne hne).mpr hmem
    · rw [copy_cache]
      exact id
    · rcases copy_self (s.unlock thread) thread r key b with hpc' | ⟨r', hpc'⟩
      · simp [hpc', Pc.holds] at hholds
      · simp [hpc', Pc.holds] at hholds
  | @touched thread r key env hpc =>
    have hpolicy : Held { s with cache := s.cache.touch policy key } := h
    exact hpolicy.goto rfl
  | @unlocked thread r key res env hpc =>
    refine h.frame thread (fun _ => goto_of_ne _ _ _)
      (fun other hne hmem => (List.mem_erase_of_ne hne).mpr hmem) (fun _ => id) fun k hholds => ?_
    rw [goto_self] at hholds
    cases hholds
  | removed hpc hshared => exact h.removed hshared rfl
  | discarded hpc hshared => exact h.removed hshared rfl
  | emplaced hpc hshared => exact h.removed hshared rfl
  | dropped hpc =>
    have hpolicy : Held { s with cache.policyState := _, returned := _ } := h
    exact hpolicy.goto rfl
  | evicted hpc hevict =>
    have hpolicy : Held { s with cache.policyState := _ } := h
    exact hpolicy.goto rfl
  | evictedNone hpc hevict =>
    have hpolicy : Held { s with cache.policyState := _ } := h
    exact hpolicy.goto rfl
  | counted hpc =>
    have hcounter : Held { s with cache.cacheSize := _ } := h
    exact hcounter.goto rfl
  | opened => exact h
  | released => exact h

/-- In every run a thread that uses a block holds the lock, and finds the block. -/
theorem held_of_run {policyState : ρ} {actions : List ThreadAction}
    (hrun : Transition.run (Threads.step config policy) (Threads.initial policyState) actions = some s) :
    Held s := by
  refine Transition.invariant_of_forall (fun s a t h hstep => h.step hstep) hrun ?_
  intro thread key hholds
  cases hholds

end RSafeFS.DataCache
