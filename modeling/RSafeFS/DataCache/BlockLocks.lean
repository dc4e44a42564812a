import RSafeFS.DataCache.Threads
import RSafeFS.Lib.SharedMutex

/-!
# The locks of the blocks

A read holds `cache_mtx_` shared from the look-up of a block to the end of its copy, and in
between the `mtx_` of the block: shared while it checks and copies, exclusively while it fetches
the block again. In the model of `Threads` a check and the copy that follows are one step. Here
taking a lock, checking, copying and fetching are steps of their own, a thread has to wait for a
lock that others hold, and nothing but the locks keeps the threads apart.
-/

namespace RSafeFS.DataCache

/-- What a thread holds or has done at its place. A thread that is `waiting` holds `cache_mtx_`
shared, has found its block, and has still to lock it. -/
inductive Stage where
  | free
  | waiting
  | reading
  | checked (now : ℤ)
  | writing
  | exclusive
  deriving DecidableEq, Repr

/-- The threads with the locks. -/
structure Locking (ρ : Type) where
  threads : Threads ρ
  stages : ℕ → Stage
  cacheMtx : SharedMutex ℕ
  blockMtx : Key → SharedMutex ℕ

/-- The start of a run. -/
def Locking.initial {ρ : Type} (policyState : ρ) : Locking ρ :=
  ⟨.initial policyState, fun _ => .free, .free, fun _ => .free⟩

variable {ρ : Type} (config : DataCacheConfig) (policy : EvictionPolicy Key ρ)

/-- Move a thread to another stage. -/
def Locking.to (s : Locking ρ) (thread : ℕ) (stage : Stage) : Locking ρ :=
  { s with stages := Function.update s.stages thread stage }

/-- Set the lock of a block. -/
def Locking.setBlock (s : Locking ρ) (key : Key) (m : SharedMutex ℕ) : Locking ρ :=
  { s with blockMtx := Function.update s.blockMtx key m }

/-- The end of a hold of both locks shared. -/
def Locking.unlockBoth (s : Locking ρ) (thread : ℕ) (key : Key) (threads : Threads ρ) : Locking ρ :=
  { s with threads, cacheMtx := s.cacheMtx.unlockShared thread }.setBlock key
    ((s.blockMtx key).unlockShared thread) |>.to thread .free

/-- The change of the map under the exclusive lock. -/
def Threads.change (s : Threads ρ) (thread : ℕ) (env : Env) : Pc → Option (Threads ρ)
  | .removing r key res =>
    some ({ s with cache := s.cache.removeBlock config key }.goto thread (.dropping r key res))
  | .discarding r key selected =>
    some ({ s with cache := s.cache.removeBlock config selected }.goto thread (.fetching r key))
  | .emplacing r key newBuf blockSize =>
    match s.cache.cache.lookup key with
    | some _ => some (s.goto thread (.touching r key))
    | none =>
      some ({ s with
        cache.cache := s.cache.cache.insert key
          ⟨newBuf, blockSize, key.2 * config.blockSize, env.now, r.mtime⟩ }.goto thread
            (.counting r key))
  | _ => none

/-- The next step of a thread that holds no more than its place says. A look-up that finds no
block lets `cache_mtx_` go at once. -/
def Locking.fromFree (s : Locking ρ) (thread : ℕ) (env : Env) : Pc → Option (Locking ρ)
  | .looking r =>
    if r.out.length = r.size then
      some { s with threads := s.threads.finish thread r (.ret (toInt r.out.length) r.out) }
    else if config.blockSize = 0 then none
    else
      (s.cacheMtx.lockShared thread).map fun m =>
        match s.threads.cache.cache.lookup (r.key config) with
        | none => { s with threads := s.threads.goto thread (.sizing r (r.key config)) }
        | some _ => { s with cacheMtx := m }.to thread .waiting
  | .refreshing _ key =>
    ((s.blockMtx key).lock thread).map fun m => (s.setBlock key m).to thread .writing
  | .copying _ key =>
    ((s.blockMtx key).lockShared thread).map fun m => (s.setBlock key m).to thread .reading
  | .failed r key res =>
    some { s with
      threads := (s.threads.unlock thread).goto thread (.removing r key res)
      cacheMtx := s.cacheMtx.unlockShared thread }
  | .removing _ _ _ | .discarding _ _ _ | .emplacing _ _ _ _ =>
    (s.cacheMtx.lock thread).map fun m => { s with cacheMtx := m }.to thread .exclusive
  | pc => (s.threads.advance config policy thread env pc).map fun threads => { s with threads }

/-- The next step of a thread that holds the lock of its block shared: the check of the block, or
the copy after an update. -/
def Locking.fromReading (s : Locking ρ) (thread : ℕ) (env : Env) : Pc → Option (Locking ρ)
  | .looking r =>
    match s.threads.cache.cache.lookup (r.key config) with
    | none => none
    | some b =>
      if b.isValid config.timeOut r.mtime env.now then some (s.to thread (.checked env.now))
      else
        some (({ s with
          threads := { s.threads with shared := thread :: s.threads.shared }.goto thread
            (.refreshing r (r.key config)) }.setBlock (r.key config)
              ((s.blockMtx (r.key config)).unlockShared thread)).to thread .free)
  | .copying r key =>
    match s.threads.cache.cache.lookup key with
    | none => none
    | some b => some (s.unlockBoth thread key ((s.threads.unlock thread).copy thread r key b))
  | _ => none

/-- The next step of a thread that holds the lock of its block exclusively. -/
def Locking.fromWriting (s : Locking ρ) (thread : ℕ) (env : Env) : Pc → Option (Locking ρ)
  | .refreshing r key =>
    match s.threads.cache.cache.lookup key with
    | none => none
    | some b =>
      some (({ s with
        threads := { s.threads with
          cache.cache := s.threads.cache.cache.insert key (b.update r.mtime env) }.goto thread
            (if env.reply.1 < 0 then .failed r key env.reply.1 else .copying r key) }.setBlock key
              (s.blockMtx key).unlock).to thread .free)
  | _ => none

/-- The next step of a thread inside a read. -/
def Locking.advance (s : Locking ρ) (thread : ℕ) (env : Env) (pc : Pc) : Stage → Option (Locking ρ)
  | .free => s.fromFree config policy thread env pc
  | .waiting =>
    match pc with
    | .looking r =>
      ((s.blockMtx (r.key config)).lockShared thread).map fun m =>
        (s.setBlock (r.key config) m).to thread .reading
    | _ => none
  | .reading => s.fromReading config thread env pc
  | .checked _ =>
    match pc with
    | .looking r =>
      match s.threads.cache.cache.lookup (r.key config) with
      | none => none
      | some b =>
        some (s.unlockBoth thread (r.key config) (s.threads.copy thread r (r.key config) b))
    | _ => none
  | .writing => s.fromWriting thread env pc
  | .exclusive =>
    (s.threads.change config thread env pc).map fun threads =>
      { s with threads, cacheMtx := s.cacheMtx.unlock }.to thread .free

/-- One step of some thread, or of an `open` or a `release`. -/
def Locking.step (s : Locking ρ) : ThreadAction → Option (Locking ρ)
  | .advance thread env => s.advance config policy thread env (s.threads.pcs thread) (s.stages thread)
  | a => (s.threads.step config policy a).map fun threads => { s with threads }

/-- The places whose next step needs no lock. -/
def Pc.isPlain : Pc → Bool
  | .looking _ | .refreshing _ _ | .copying _ _ | .failed _ _ _ | .removing _ _ _
  | .discarding _ _ _ | .emplacing _ _ _ _ => false
  | _ => true

/-- The places whose next step changes the map. -/
def Pc.isChange : Pc → Bool
  | .removing _ _ _ | .discarding _ _ _ | .emplacing _ _ _ _ => true
  | _ => false

/-- What a step can do. -/
inductive LockSteps (s : Locking ρ) : ThreadAction → Locking ρ → Prop
  | outside {a : ThreadAction} {t : Threads ρ} (ha : ∀ thread env, a ≠ .advance thread env)
      (hstep : s.threads.step config policy a = some t) : LockSteps s a { s with threads := t }
  | plain {thread : ℕ} {env : Env} {t : Threads ρ} (hstage : s.stages thread = .free)
      (hpc : (s.threads.pcs thread).isPlain = true)
      (hstep : s.threads.step config policy (.advance thread env) = some t) :
      LockSteps s (.advance thread env) { s with threads := t }
  | ended {thread : ℕ} {env : Env} {r : Reading} (hpc : s.threads.pcs thread = .looking r)
      (hstage : s.stages thread = .free) (hlength : r.out.length = r.size) :
      LockSteps s (.advance thread env)
        { s with threads := s.threads.finish thread r (.ret (toInt r.out.length) r.out) }
  | missed {thread : ℕ} {env : Env} {r : Reading} (hpc : s.threads.pcs thread = .looking r)
      (hstage : s.stages thread = .free) (hlength : r.out.length ≠ r.size)
      (hblock : config.blockSize ≠ 0)
      (hnone : s.threads.cache.cache.lookup (r.key config) = none) :
      LockSteps s (.advance thread env)
        { s with threads := s.threads.goto thread (.sizing r (r.key config)) }
  | found {thread : ℕ} {env : Env} {r : Reading} {b : Block} {m : SharedMutex ℕ}
      (hpc : s.threads.pcs thread = .looking r) (hstage : s.stages thread = .free)
      (hlength : r.out.length ≠ r.size) (hblock : config.blockSize ≠ 0)
      (hb : s.threads.cache.cache.lookup (r.key config) = some b)
      (hlock : s.cacheMtx.lockShared thread = some m) :
      LockSteps s (.advance thread env) ({ s with cacheMtx := m }.to thread .waiting)
  | lockFound {thread : ℕ} {env : Env} {r : Reading} {m : SharedMutex ℕ}
      (hpc : s.threads.pcs thread = .looking r) (hstage : s.stages thread = .waiting)
      (hlock : (s.blockMtx (r.key config)).lockShared thread = some m) :
      LockSteps s (.advance thread env) ((s.setBlock (r.key config) m).to thread .reading)
  | valid {thread : ℕ} {env : Env} {r : Reading} {b : Block}
      (hpc : s.threads.pcs thread = .looking r) (hstage : s.stages thread = .reading)
      (hb : s.threads.cache.cache.lookup (r.key config) = some b)
      (hvalid : b.isValid config.timeOut r.mtime env.now = true) :
      LockSteps s (.advance thread env) (s.to thread (.checked env.now))
  | outdated {thread : ℕ} {env : Env} {r : Reading} {b : Block}
      (hpc : s.threads.pcs thread = .looking r) (hstage : s.stages thread = .reading)
      (hb : s.threads.cache.cache.lookup (r.key config) = some b)
      (hvalid : b.isValid config.timeOut r.mtime env.now ≠ true) :
      LockSteps s (.advance thread env) (({ s with
        threads := { s.threads with shared := thread :: s.threads.shared }.goto thread
          (.refreshing r (r.key config)) }.setBlock (r.key config)
            ((s.blockMtx (r.key config)).unlockShared thread)).to thread .free)
  | hit {thread : ℕ} {env : Env} {r : Reading} {b : Block} {now : ℤ}
      (hpc : s.threads.pcs thread = .looking r) (hstage : s.stages thread = .checked now)
      (hb : s.threads.cache.cache.lookup (r.key config) = some b) :
      LockSteps s (.advance thread env)
        (s.unlockBoth thread (r.key config) (s.threads.copy thread r (r.key config) b))
  | lockOutdated {thread : ℕ} {env : Env} {r : Reading} {key : Key} {m : SharedMutex ℕ}
      (hpc : s.threads.pcs thread = .refreshing r key) (hstage : s.stages thread = .free)
      (hlock : (s.blockMtx key).lock thread = some m) :
      LockSteps s (.advance thread env) ((s.setBlock key m).to thread .writing)
  | updated {thread : ℕ} {env : Env} {r : Reading} {key : Key} {b : Block}
      (hpc : s.threads.pcs thread = .refreshing r key) (hstage : s.stages thread = .writing)
      (hb : s.threads.cache.cache.lookup key = some b) :
      LockSteps s (.advance thread env) (({ s with
        threads := { s.threads with
          cache.cache := s.threads.cache.cache.insert key (b.update r.mtime env) }.goto thread
            (if env.reply.1 < 0 then .failed r key env.reply.1 else .copying r key) }.setBlock key
              (s.blockMtx key).unlock).to thread .free)
  | lockUpdated {thread : ℕ} {env : Env} {r : Reading} {key : Key} {m : SharedMutex ℕ}
      (hpc : s.threads.pcs thread = .copying r key) (hstage : s.stages thread = .free)
      (hlock : (s.blockMtx key).lockShared thread = some m) :
      LockSteps s (.advance thread env) ((s.setBlock key m).to thread .reading)
  | copied {thread : ℕ} {env : Env} {r : Reading} {key : Key} {b : Block}
      (hpc : s.threads.pcs thread = .copying r key) (hstage : s.stages thread = .reading)
      (hb : s.threads.cache.cache.lookup key = some b) :
      LockSteps s (.advance thread env)
        (s.unlockBoth thread key ((s.threads.unlock thread).copy thread r key b))
  | unlocked {thread : ℕ} {env : Env} {r : Reading} {key : Key} {res : ℤ}
      (hpc : s.threads.pcs thread = .failed r key res) (hstage : s.stages thread = .free) :
      LockSteps s (.advance thread env) { s with
        threads := (s.threads.unlock thread).goto thread (.removing r key res)
        cacheMtx := s.cacheMtx.unlockShared thread }
  | lockCache {thread : ℕ} {env : Env} {m : SharedMutex ℕ}
      (hpc : (s.threads.pcs thread).isChange = true) (hstage : s.stages thread = .free)
      (hlock : s.cacheMtx.lock thread = some m) :
      LockSteps s (.advance thread env) ({ s with cacheMtx := m }.to thread .exclusive)
  | changed {thread : ℕ} {env : Env} {t : Threads ρ} (hstage : s.stages thread = .exclusive)
      (hchange : s.threads.change config thread env (s.threads.pcs thread) = some t) :
      LockSteps s (.advance thread env)
        ({ s with threads := t, cacheMtx := s.cacheMtx.unlock }.to thread .free)

variable {config policy} {s t : Locking ρ}

theorem lockSteps_of_free {thread : ℕ} {env : Env} (hstage : s.stages thread = .free)
    (hstep : s.fromFree config policy thread env (s.threads.pcs thread) = some t) :
    LockSteps config policy s (.advance thread env) t := by
  have hplain {pc : Pc} (hpc : s.threads.pcs thread = pc) (hp : pc.isPlain = true)
      (hmap : (s.threads.advance config policy thread env pc).map
        (fun threads => { s with threads }) = some t) :
      LockSteps config policy s (.advance thread env) t := by
    obtain ⟨u, hu, rfl⟩ := Option.map_eq_some_iff.mp hmap
    apply LockSteps.plain hstage
    · rw [hpc]
      exact hp
    · rw [← hpc] at hu
      exact hu
  have hchange {pc : Pc} (hpc : s.threads.pcs thread = pc) (hp : pc.isChange = true)
      (hmap : (s.cacheMtx.lock thread).map
        (fun m => { s with cacheMtx := m }.to thread .exclusive) = some t) :
      LockSteps config policy s (.advance thread env) t := by
    obtain ⟨m, hm, rfl⟩ := Option.map_eq_some_iff.mp hmap
    apply LockSteps.lockCache
    · rw [hpc]
      exact hp
    · exact hstage
    · exact hm
  cases hpc : s.threads.pcs thread with
  | looking r =>
    simp only [hpc, Locking.fromFree] at hstep
    split at hstep
    · next hlength =>
      obtain rfl := Option.some.inj hstep
      exact .ended hpc hstage hlength
    · next hlength =>
      split at hstep
      · cases hstep
      · next hblock =>
        obtain ⟨m, hm, ht⟩ := Option.map_eq_some_iff.mp hstep
        split at ht
        · next hnone =>
          subst ht
          exact .missed hpc hstage hlength hblock hnone
        · next b hb =>
          subst ht
          exact .found hpc hstage hlength hblock hb hm
  | refreshing r key =>
    simp only [hpc, Locking.fromFree] at hstep
    obtain ⟨m, hm, rfl⟩ := Option.map_eq_some_iff.mp hstep
    exact .lockOutdated hpc hstage hm
  | copying r key =>
    simp only [hpc, Locking.fromFree] at hstep
    obtain ⟨m, hm, rfl⟩ := Option.map_eq_some_iff.mp hstep
    exact .lockUpdated hpc hstage hm
  | failed r key res =>
    simp only [hpc, Locking.fromFree] at hstep
    obtain rfl := Option.some.inj hstep
    exact .unlocked hpc hstage
  | removing | discarding | emplacing =>
    rw [hpc] at hstep
    exact hchange hpc rfl hstep
  | _ =>
    rw [hpc] at hstep
    exact hplain hpc rfl hstep

/-- **Inversion.** Every step is one of those listed. -/
theorem lockSteps_of_step {a : ThreadAction} (hstep : s.step config policy a = some t) :
    LockSteps config policy s a t := by
  cases a with
  | advance thread env =>
    simp only [Locking.step] at hstep
    cases hstage : s.stages thread with
    | free =>
      rw [hstage] at hstep
      exact lockSteps_of_free hstage hstep
    | waiting =>
      rw [hstage] at hstep
      simp only [Locking.advance] at hstep
      split at hstep
      · next r hpc =>
        obtain ⟨m, hm, rfl⟩ := Option.map_eq_some_iff.mp hstep
        exact .lockFound hpc hstage hm
      · cases hstep
    | reading =>
      rw [hstage] at hstep
      simp only [Locking.advance, Locking.fromReading] at hstep
      split at hstep
      · next r hpc =>
        split at hstep
        · cases hstep
        · next b hb =>
          split at hstep
          · next hvalid =>
            obtain rfl := Option.some.inj hstep
            exact .valid hpc hstage hb hvalid
          · next hvalid =>
            obtain rfl := Option.some.inj hstep
            exact .outdated hpc hstage hb hvalid
      · next r key hpc =>
        split at hstep
        · cases hstep
        · next b hb =>
          obtain rfl := Option.some.inj hstep
          exact .copied hpc hstage hb
      · cases hstep
    | checked now =>
      rw [hstage] at hstep
      simp only [Locking.advance] at hstep
      split at hstep
      · next r hpc =>
        split at hstep
        · cases hstep
        · next b hb =>
          obtain rfl := Option.some.inj hstep
          exact .hit hpc hstage hb
      · cases hstep
    | writing =>
      rw [hstage] at hstep
      simp only [Locking.advance, Locking.fromWriting] at hstep
      split at hstep
      · next r key hpc =>
        split at hstep
        · cases hstep
        · next b hb =>
          obtain rfl := Option.some.inj hstep
          exact .updated hpc hstage hb
      · cases hstep
    | exclusive =>
      rw [hstage] at hstep
      simp only [Locking.advance] at hstep
      obtain ⟨u, hu, rfl⟩ := Option.map_eq_some_iff.mp hstep
      exact .changed hstage hu
  | _ =>
    simp only [Locking.step] at hstep
    obtain ⟨u, hu, rfl⟩ := Option.map_eq_some_iff.mp hstep
    exact .outside nofun hu

end RSafeFS.DataCache
