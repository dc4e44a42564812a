import RSafeFS.ReadAhead.Cache

/-!
# Concurrent requests on the read-ahead cache

Several threads open, read and release at once. A read holds `mtx_` shared from its
look-up of the buffer to its return, so that no buffer is added or dropped meanwhile;
`buffer::read`, the call of the layer below and `buffer::update` are its steps, and
another read of the same path may come between them. Other clients may change the files
at any time.
-/

namespace RSafeFS.ReadAhead

/-- A request. Its size is a `size_t`, its offset a non-negative `off_t`. -/
inductive Request where
  | «open» (path : PathName) (fi : FuseFileInfo)
  | read (path : PathName) (size offset : ℕ) (fi : FuseFileInfo) (size_lt : size < 2 ^ 64)
      (offset_lt : offset < 2 ^ 63)
  | release (path : PathName) (fi : FuseFileInfo)

/-- A read in progress: its arguments, and for the statements the version of the file at
the last successful open before it. -/
@[ext]
structure ReadCall where
  path : PathName
  size : ℕ
  offset : ℕ
  fi : FuseFileInfo
  size_lt : size < 2 ^ 64
  offset_lt : offset < 2 ^ 63
  opened : Option ℕ
  deriving Repr

instance : DecidableEq ReadCall := fun _ _ => decidable_of_iff _ ReadCall.ext_iff.symm

/-- Where a thread is. An `open` that found no buffer adds one before it asks the layer
below; a read that missed asks the layer below and then stores a new window. -/
inductive Pc where
  | idle
  | emplacing (path : PathName) (fi : FuseFileInfo)
  | opening (path : PathName) (fi : FuseFileInfo)
  | reading (r : ReadCall)
  | fetching (r : ReadCall)
  | updating (r : ReadCall) (window : Buffer)
  | releasing (path : PathName) (fi : FuseFileInfo)
  deriving DecidableEq, Repr

/-- A read that has returned, with the version of the file at which its buffer was made
and the one at its return. -/
structure Returned where
  call : ReadCall
  made : ℕ
  last : ℕ
  outcome : Outcome

/-- The threads over one cache and one layer below. `shared` lists the threads that hold
`mtx_` shared. The last three fields are records for the statements: the version of each
path at which its buffer was made and at its last successful open, and the reads that
have returned. -/
structure Threads (σ : Type) where
  cache : Cache
  world : σ
  pcs : ℕ → Pc
  shared : List ℕ
  made : PathName → ℕ
  opened : PathName → Option ℕ
  returned : List Returned

/-- The start of a run: there are no buffers and every thread is idle. -/
def Threads.initial {σ : Type} (w : σ) : Threads σ :=
  ⟨⟨∅⟩, w, fun _ => .idle, [], fun _ => 0, fun _ => none, []⟩

/-- `buffer::read`. The sums are of type `unsigned long`; reading past the buffer is
undefined. -/
def Buffer.copy (b : Buffer) (size offset : ℕ) : Outcome :=
  match b.offset with
  | none => .ret (-1) []
  | some start =>
    if start ≤ offset ∧ (offset + size) % 2 ^ 64 ≤ (start + b.size) % 2 ^ 64 then
      if offset - start + size ≤ b.buf.length then
        .ret (toInt size) ((b.buf.drop (offset - start)).take size)
      else .undefined
    else .ret (-1) []

/-- A thread starts a request or takes its next step, or other clients change the files. -/
inductive ThreadAction (σ : Type) where
  | start (thread : ℕ) (request : Request)
  | advance (thread : ℕ)
  | change (w : σ)

variable {σ : Type} (config : ReadAheadConfig) (lower : ReadLayer σ)
  (current : σ → PathName → ℕ)

/-- Move a thread to another place. -/
def Threads.goto (s : Threads σ) (thread : ℕ) (pc : Pc) : Threads σ :=
  { s with pcs := Function.update s.pcs thread pc }

/-- The end of a read, which releases `mtx_`. -/
def Threads.return (s : Threads σ) (thread : ℕ) (r : ReadCall) (outcome : Outcome) : Threads σ :=
  { s with
    shared := s.shared.erase thread
    returned := ⟨r, s.made r.path, current s.world r.path, outcome⟩ :: s.returned }.goto thread .idle

/-- The first step of a request: a look-up of the buffer, or for a `release` its removal
under the exclusive lock. A read of a path without a buffer dereferences
`buffers_.end()`, and the run does not go on. -/
def Threads.enter (s : Threads σ) (thread : ℕ) : Request → Option (Threads σ)
  | .open path fi =>
    some (s.goto thread (if path ∈ s.cache.buffers then .opening path fi else .emplacing path fi))
  | .read path size offset fi hsize hoffset =>
    if path ∈ s.cache.buffers then
      some ({ s with shared := thread :: s.shared }.goto thread
        (.reading ⟨path, size, offset, fi, hsize, hoffset, s.opened path⟩))
    else none
  | .release path fi =>
    if s.shared = [] then
      some ({ s with cache := ⟨s.cache.buffers.erase path⟩ }.goto thread (.releasing path fi))
    else none

/-- The next step of a thread inside a request. An allocation of more than `PTRDIFF_MAX`
bytes throws. -/
def Threads.advance (s : Threads σ) (thread : ℕ) : Pc → Option (Threads σ)
  | .idle => none
  | .emplacing path fi =>
    if s.shared = [] then
      if path ∈ s.cache.buffers then some (s.goto thread (.opening path fi))
      else some ({ s with
        cache := ⟨s.cache.buffers.insert path .empty⟩
        made := Function.update s.made path (current s.world path) }.goto thread
          (.opening path fi))
    else none
  | .opening path fi =>
    let ((res, _), w) := lower.open path fi s.world
    some ({ s with
      world := w
      opened := if res < 0 then s.opened
        else Function.update s.opened path (some (current w path)) }.goto thread .idle)
  | .reading r =>
    match s.cache.buffers.lookup r.path with
    | none => none
    | some b =>
      match b.copy r.size r.offset with
      | .undefined => none
      | .ret nOfBytesRead copied =>
        if nOfBytesRead < 0 then some (s.goto thread (.fetching r))
        else some (s.return current thread r (.ret nOfBytesRead copied))
  | .fetching r =>
    let bufSize := max r.size config.size
    if 2 ^ 63 ≤ bufSize then none
    else
      let (res, data) := lower.read r.path bufSize r.offset r.fi s.world
      if res < 0 then some (s.return current thread r (.ret res []))
      else
        let newBuf := overlay data (List.replicate bufSize 0)
        some (s.goto thread (.updating r ⟨res.toNat, some r.offset, newBuf⟩))
  | .updating r window =>
    let n := min window.size r.size
    some ({ s with cache := ⟨s.cache.buffers.insert r.path window⟩ }.return current thread r
      (.ret (toInt n) (window.buf.take n)))
  | .releasing path fi => some ({ s with world := (lower.release path fi s.world).2 }.goto thread .idle)

/-- One step of some thread, or a change by other clients. -/
def Threads.step (s : Threads σ) : ThreadAction σ → Option (Threads σ)
  | .start thread request => if s.pcs thread = .idle then s.enter thread request else none
  | .advance thread => s.advance config lower current thread (s.pcs thread)
  | .change w => some { s with world := w }

/-- What a step can do, with the conditions under which it does it. -/
inductive Steps (s : Threads σ) : ThreadAction σ → Threads σ → Prop
  | openFound {thread : ℕ} {path : PathName} {fi : FuseFileInfo} (hpc : s.pcs thread = .idle)
      (hmem : path ∈ s.cache.buffers) :
      Steps s (.start thread (.open path fi)) (s.goto thread (.opening path fi))
  | openMissed {thread : ℕ} {path : PathName} {fi : FuseFileInfo} (hpc : s.pcs thread = .idle)
      (hmem : path ∉ s.cache.buffers) :
      Steps s (.start thread (.open path fi)) (s.goto thread (.emplacing path fi))
  | read {thread : ℕ} {r : ReadCall} (hpc : s.pcs thread = .idle)
      (hmem : r.path ∈ s.cache.buffers) (hopened : r.opened = s.opened r.path) :
      Steps s (.start thread (.read r.path r.size r.offset r.fi r.size_lt r.offset_lt))
        ({ s with shared := thread :: s.shared }.goto thread (.reading r))
  | erase {thread : ℕ} {path : PathName} {fi : FuseFileInfo} (hpc : s.pcs thread = .idle)
      (hshared : s.shared = []) :
      Steps s (.start thread (.release path fi))
        ({ s with cache := ⟨s.cache.buffers.erase path⟩ }.goto thread (.releasing path fi))
  | emplaced {thread : ℕ} {path : PathName} {fi : FuseFileInfo}
      (hpc : s.pcs thread = .emplacing path fi) (hmem : path ∈ s.cache.buffers) :
      Steps s (.advance thread) (s.goto thread (.opening path fi))
  | emplace {thread : ℕ} {path : PathName} {fi : FuseFileInfo}
      (hpc : s.pcs thread = .emplacing path fi) (hshared : s.shared = [])
      (hmem : path ∉ s.cache.buffers) :
      Steps s (.advance thread) ({ s with
        cache := ⟨s.cache.buffers.insert path .empty⟩
        made := Function.update s.made path (current s.world path) }.goto thread
          (.opening path fi))
  | opened {thread : ℕ} {path : PathName} {fi : FuseFileInfo}
      (hpc : s.pcs thread = .opening path fi) :
      Steps s (.advance thread) ({ s with
        world := (lower.open path fi s.world).2
        opened := if (lower.open path fi s.world).1.1 < 0 then s.opened else
          Function.update s.opened path (some (current (lower.open path fi s.world).2 path)) }.goto
            thread .idle)
  | hit {thread : ℕ} {r : ReadCall} {b : Buffer} {res : ℤ} {copied : Bytes}
      (hpc : s.pcs thread = .reading r) (hb : s.cache.buffers.lookup r.path = some b)
      (hcopy : b.copy r.size r.offset = .ret res copied) (hres : ¬ res < 0) :
      Steps s (.advance thread) (s.return current thread r (.ret res copied))
  | miss {thread : ℕ} {r : ReadCall} (hpc : s.pcs thread = .reading r) :
      Steps s (.advance thread) (s.goto thread (.fetching r))
  | fetchFailed {thread : ℕ} {r : ReadCall} (hpc : s.pcs thread = .fetching r)
      (hres : (lower.read r.path (max r.size config.size) r.offset r.fi s.world).1 < 0) :
      Steps s (.advance thread) (s.return current thread r
        (.ret (lower.read r.path (max r.size config.size) r.offset r.fi s.world).1 []))
  | fetched {thread : ℕ} {r : ReadCall} (hpc : s.pcs thread = .fetching r)
      (hsize : max r.size config.size < 2 ^ 63)
      (hres : ¬ (lower.read r.path (max r.size config.size) r.offset r.fi s.world).1 < 0) :
      Steps s (.advance thread) (s.goto thread (.updating r
        ⟨(lower.read r.path (max r.size config.size) r.offset r.fi s.world).1.toNat,
          some r.offset,
          overlay (lower.read r.path (max r.size config.size) r.offset r.fi s.world).2
            (List.replicate (max r.size config.size) 0)⟩))
  | stored {thread : ℕ} {r : ReadCall} {window : Buffer}
      (hpc : s.pcs thread = .updating r window) :
      Steps s (.advance thread)
        ({ s with cache := ⟨s.cache.buffers.insert r.path window⟩ }.return current thread r
          (.ret (toInt (min window.size r.size)) (window.buf.take (min window.size r.size))))
  | released {thread : ℕ} {path : PathName} {fi : FuseFileInfo}
      (hpc : s.pcs thread = .releasing path fi) :
      Steps s (.advance thread)
        ({ s with world := (lower.release path fi s.world).2 }.goto thread .idle)
  | changed {w : σ} : Steps s (.change w) { s with world := w }

variable {config lower current} {s t : Threads σ}

/-- **Inversion.** Every step is one of those listed. -/
theorem steps_of_step {a : ThreadAction σ} (hstep : s.step config lower current a = some t) :
    Steps config lower current s a t := by
  cases a with
  | start thread request =>
    simp only [Threads.step] at hstep
    split at hstep
    · next hpc =>
      cases request with
      | «open» path fi =>
        obtain rfl := Option.some.inj hstep
        split
        · next hmem => exact .openFound hpc hmem
        · next hmem => exact .openMissed hpc hmem
      | read path size offset fi hsize hoffset =>
        simp only [Threads.enter] at hstep
        split at hstep
        · next hmem =>
          obtain rfl := Option.some.inj hstep
          exact Steps.read (r := ⟨path, size, offset, fi, hsize, hoffset, s.opened path⟩) hpc hmem rfl
        · cases hstep
      | release path fi =>
        simp only [Threads.enter] at hstep
        split at hstep
        · next hshared =>
          obtain rfl := Option.some.inj hstep
          exact .erase hpc hshared
        · cases hstep
    · cases hstep
  | advance thread =>
    simp only [Threads.step] at hstep
    cases hpc : s.pcs thread with
    | idle => simp [hpc, Threads.advance] at hstep
    | emplacing path fi =>
      simp only [hpc, Threads.advance] at hstep
      split at hstep
      · next hshared =>
        split at hstep
        · next hmem =>
          obtain rfl := Option.some.inj hstep
          exact .emplaced hpc hmem
        · next hmem =>
          obtain rfl := Option.some.inj hstep
          exact .emplace hpc hshared hmem
      · cases hstep
    | opening path fi =>
      simp only [hpc, Threads.advance] at hstep
      obtain rfl := Option.some.inj hstep
      exact .opened hpc
    | reading r =>
      simp only [hpc, Threads.advance] at hstep
      split at hstep
      · cases hstep
      · next b hb =>
        split at hstep
        · cases hstep
        · next res copied hcopy =>
          split at hstep
          · obtain rfl := Option.some.inj hstep
            exact .miss hpc
          · next hres =>
            obtain rfl := Option.some.inj hstep
            exact .hit hpc hb hcopy hres
    | fetching r =>
      simp only [hpc, Threads.advance] at hstep
      split at hstep
      · cases hstep
      · next hsize =>
        split at hstep
        · next hres =>
          obtain rfl := Option.some.inj hstep
          exact .fetchFailed hpc hres
        · next hres =>
          obtain rfl := Option.some.inj hstep
          exact .fetched hpc (Nat.not_le.mp hsize) hres
    | updating r window =>
      simp only [hpc, Threads.advance] at hstep
      obtain rfl := Option.some.inj hstep
      exact .stored hpc
    | releasing path fi =>
      simp only [hpc, Threads.advance] at hstep
      obtain rfl := Option.some.inj hstep
      exact .released hpc
  | change w =>
    obtain rfl := Option.some.inj hstep
    exact .changed

/-- The read that a thread is in the middle of. -/
def Pc.call : Pc → Option ReadCall
  | .reading r | .fetching r | .updating r _ => some r
  | _ => none

/-- A thread inside a read holds the lock and has a buffer for its path. -/
def Locked (s : Threads σ) : Prop :=
  ∀ thread r, (s.pcs thread).call = some r → thread ∈ s.shared ∧ r.path ∈ s.cache.buffers

/-- Moving a thread keeps the locks if the thread holds what its new place needs. -/
theorem Locked.goto (h : Locked s) {thread : ℕ} {pc : Pc}
    (hpc : ∀ r, pc.call = some r → thread ∈ s.shared ∧ r.path ∈ s.cache.buffers) :
    Locked (s.goto thread pc) := by
  intro other r hcall
  by_cases heq : other = thread
  · subst heq
    simp only [Threads.goto, Function.update_self] at hcall
    exact hpc r hcall
  · simp only [Threads.goto, Function.update_of_ne heq] at hcall
    exact h other r hcall

/-- The end of a read keeps the locks of the others. -/
theorem Locked.return (h : Locked s) (thread : ℕ) (r : ReadCall) (outcome : Outcome) :
    Locked (s.return current thread r outcome) := by
  intro other r' hcall
  by_cases heq : other = thread
  · subst heq
    simp [Threads.return, Threads.goto, Pc.call] at hcall
  · simp only [Threads.return, Threads.goto, Function.update_of_ne heq] at hcall
    obtain ⟨hshared, hmem⟩ := h other r' hcall
    exact ⟨(List.mem_erase_of_ne heq).mpr hshared, hmem⟩

/-- Without holders of the lock, no thread is inside a read. -/
theorem Locked.call_eq_none (h : Locked s) (hshared : s.shared = []) (thread : ℕ) :
    (s.pcs thread).call = none := by
  rw [Option.eq_none_iff_forall_ne_some]
  intro r hcall
  have hmem := (h thread r hcall).1
  simp [hshared] at hmem

/-- The locks stay right when buffers are only added. -/
theorem Locked.buffers (h : Locked s) {cache : Cache} {made : PathName → ℕ}
    (hmem : ∀ p, p ∈ s.cache.buffers → p ∈ cache.buffers) :
    Locked { s with cache, made } :=
  fun thread r hcall => ⟨(h thread r hcall).1, hmem _ (h thread r hcall).2⟩

/-- Every step keeps the locks. -/
theorem Locked.step (h : Locked s) {a : ThreadAction σ}
    (hstep : s.step config lower current a = some t) : Locked t := by
  cases steps_of_step hstep with
  | openFound hpc hmem => exact h.goto (by simp [Pc.call])
  | openMissed hpc hmem => exact h.goto (by simp [Pc.call])
  | @read thread r hpc hmem hopened =>
    have hmore : Locked { s with shared := thread :: s.shared } := fun other r' hcall =>
      ⟨List.mem_cons_of_mem _ (h other r' hcall).1, (h other r' hcall).2⟩
    refine hmore.goto fun r' hcall => ?_
    obtain rfl := Option.some.inj hcall
    exact ⟨List.mem_cons_self, hmem⟩
  | @erase thread path fi hpc hshared =>
    have hnone : Locked { s with cache := ⟨s.cache.buffers.erase path⟩ } := by
      intro other r hcall
      simp [h.call_eq_none hshared other] at hcall
    exact hnone.goto (by simp [Pc.call])
  | emplaced hpc hmem => exact h.goto (by simp [Pc.call])
  | emplace hpc hshared hmem =>
    exact (h.buffers fun p hp => (AList.mem_insert _).mpr (Or.inr hp)).goto (by simp [Pc.call])
  | opened hpc =>
    have hworld : Locked { s with world := _, opened := _ } := h
    exact hworld.goto (by simp [Pc.call])
  | hit hpc hb hcopy hres => exact h.return _ _ _
  | @miss thread r hpc =>
    have hheld := h thread r (by rw [hpc]; rfl)
    refine h.goto fun r' hcall => ?_
    obtain rfl := Option.some.inj hcall
    exact hheld
  | fetchFailed hpc hres => exact h.return _ _ _
  | @fetched thread r hpc hsize hres =>
    have hheld := h thread r (by rw [hpc]; rfl)
    refine h.goto fun r' hcall => ?_
    obtain rfl := Option.some.inj hcall
    exact hheld
  | @stored thread r window hpc =>
    have hstored : Locked { s with cache := ⟨s.cache.buffers.insert r.path window⟩ } :=
      h.buffers fun p hp => (AList.mem_insert _).mpr (Or.inr hp)
    exact hstored.return _ _ _
  | released hpc =>
    have hworld : Locked { s with world := _ } := h
    exact hworld.goto (by simp [Pc.call])
  | changed => exact h

end RSafeFS.ReadAhead
