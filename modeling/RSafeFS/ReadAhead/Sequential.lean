import RSafeFS.ReadAhead.Threads

/-!
# Threads that run one at a time

The functions of `read_ahead::cache` as single steps and the threads that take them step by
step are two models of the same code. Every run of requests, one after the other and with
changes by other clients between them, is also a run of the threads, with the same buffers
and the same answers.
-/

namespace RSafeFS.ReadAhead

variable {σ : Type} {config : ReadAheadConfig} {lower : ReadLayer σ}
  {current : σ → PathName → ℕ} {s t : Threads σ}

/-- The cache over a layer below, with what its reads have returned, the latest first. -/
structure Sequential (σ : Type) where
  cache : Cache
  world : σ
  returned : List Outcome

/-- The start of a run. -/
def Sequential.start (w : σ) : Sequential σ := ⟨⟨∅⟩, w, []⟩

/-- A whole request, or a change of the files by other clients. -/
inductive Turn (σ : Type) where
  | request (request : Request)
  | change (w : σ)

/-- One request from its call to its return. A run does not go on after undefined
behaviour. -/
def Sequential.serve (config : ReadAheadConfig) (lower : ReadLayer σ) (q : Sequential σ) :
    Request → Option (Sequential σ)
  | .open path fi =>
    let (_, c, w) := q.cache.open lower path fi q.world
    some { q with cache := c, world := w }
  | .read path size offset fi _ _ =>
    match q.cache.read config lower path size offset fi q.world with
    | (.undefined, _) => none
    | (.ret res buf, c) => some { q with cache := c, returned := .ret res buf :: q.returned }
  | .release path fi =>
    let (_, c, w) := q.cache.release lower path fi q.world
    some { q with cache := c, world := w }

/-- One turn. -/
def Sequential.step (config : ReadAheadConfig) (lower : ReadLayer σ) (q : Sequential σ) :
    Turn σ → Option (Sequential σ)
  | .request request => q.serve config lower request
  | .change w => some { q with world := w }

/-- Neither a read nor the window that it may fetch is larger than an `int` can count. -/
def Turn.Fits (config : ReadAheadConfig) : Turn σ → Prop
  | .request (.read _ size _ _ _ _) => max size config.size ≤ 2 ^ 31 - 1
  | _ => True

/-- The window lies within its buffer and within the range of `unsigned long`. -/
def Buffer.InBounds (b : Buffer) : Prop :=
  ∀ start, b.offset = some start → b.size ≤ b.buf.length ∧ start + b.size < 2 ^ 64

/-- Inside its bounds a window is read without wrap-around. -/
theorem Buffer.InBounds.copy_eq {b : Buffer} (h : b.InBounds) {size offset : ℕ}
    (hsum : offset + size < 2 ^ 64) :
    b.copy size offset = .ret (b.read size offset).1 (b.read size offset).2 := by
  unfold Buffer.copy Buffer.read Buffer.covers
  cases hstart : b.offset with
  | none => rfl
  | some start =>
    obtain ⟨hsize, hend⟩ := h start hstart
    simp only [Nat.mod_eq_of_lt hsum, Nat.mod_eq_of_lt hend]
    by_cases hcovers : start ≤ offset ∧ offset + size ≤ start + b.size
    · have hinside : offset - start + size ≤ b.buf.length := by omega
      simp [hcovers, hinside]
    · simp [hcovers]

/-- No thread other than the given one is inside a request. -/
def Threads.Alone (s : Threads σ) (thread : ℕ) : Prop :=
  ∀ other, other ≠ thread → s.pcs other = .idle

/-- The threads have done what the requests of the sequential model have done, and none is
inside a request. -/
structure Follows (q : Sequential σ) (s : Threads σ) : Prop where
  pcs : ∀ thread, s.pcs thread = .idle
  shared : s.shared = []
  cache : s.cache = q.cache
  world : s.world = q.world
  returned : s.returned.map Returned.outcome = q.returned
  bounds : ∀ path b, s.cache.buffers.lookup path = some b → b.InBounds

theorem Threads.Alone.goto {thread : ℕ} (h : s.Alone thread) (pc : Pc) :
    (s.goto thread pc).Alone thread := by
  intro other hne
  simp only [Threads.goto, Function.update_of_ne hne]
  exact h other hne

theorem goto_pcs (s : Threads σ) (thread : ℕ) (pc : Pc) : (s.goto thread pc).pcs thread = pc := by
  simp [Threads.goto]

/-- After the last step of its request no thread is inside one. -/
theorem Threads.Alone.pcs_goto_idle {thread : ℕ} (h : s.Alone thread) (other : ℕ) :
    (s.goto thread .idle).pcs other = .idle := by
  by_cases heq : other = thread
  · subst heq
    exact goto_pcs s other .idle
  · exact h.goto .idle other heq

/-- The buffers after an `open`. -/
theorem Cache.open_cache (c : Cache) (path : PathName) (fi : FuseFileInfo) (w : σ) :
    (c.open lower path fi w).2.1 =
      if path ∈ c.buffers then c else ⟨c.buffers.insert path .empty⟩ := by
  simp only [Cache.open]
  cases hlookup : c.buffers.lookup path with
  | none =>
    have hmem : path ∉ c.buffers := AList.lookup_eq_none.mp hlookup
    simp [hmem]
  | some b =>
    have hmem : path ∈ c.buffers := AList.lookup_isSome.mp (by simp [hlookup])
    simp [hmem]

/-- A buffer that was never filled is in its bounds. -/
theorem inBounds_empty : Buffer.empty.InBounds := by
  intro start hstart
  cases hstart

/-- Buffers stay in their bounds when one in its bounds joins them. -/
theorem inBounds_insert {c : Cache} {path : PathName} {b : Buffer}
    (h : ∀ path b, c.buffers.lookup path = some b → b.InBounds) (hb : b.InBounds) :
    ∀ path' b', (c.buffers.insert path b).lookup path' = some b' → b'.InBounds := by
  intro path' b' hlookup
  by_cases heq : path' = path
  · subst heq
    rw [AList.lookup_insert] at hlookup
    exact Option.some.inj hlookup ▸ hb
  · rw [AList.lookup_insert_ne heq] at hlookup
    exact h path' b' hlookup

/-- The last step of an `open`. -/
theorem opening_alone {path : PathName} {fi : FuseFileInfo} (hpc : s.pcs 0 = .opening path fi)
    (halone : s.Alone 0) (hshared : s.shared = [])
    (hbounds : ∀ path b, s.cache.buffers.lookup path = some b → b.InBounds) :
    ∃ t, s.step config lower current (.advance 0) = some t ∧
      Follows ⟨s.cache, (lower.open path fi s.world).2, s.returned.map Returned.outcome⟩ t := by
  simp only [Threads.step, hpc, Threads.advance]
  exact ⟨_, rfl, halone.pcs_goto_idle, hshared, rfl, rfl, rfl, hbounds⟩

/-- An `open` by a thread that runs alone. -/
theorem Follows.open {q : Sequential σ} (h : Follows q s) (path : PathName) (fi : FuseFileInfo) :
    ∃ actions t, Transition.run (Threads.step config lower current) s actions = some t ∧
      Follows ⟨(q.cache.open lower path fi q.world).2.1, (q.cache.open lower path fi q.world).2.2,
        q.returned⟩ t := by
  have halone : s.Alone 0 := fun other _ => h.pcs other
  rw [Cache.open_cache, ← h.cache, ← h.returned]
  change ∃ actions t, _ ∧ Follows ⟨_, (lower.open path fi q.world).2, _⟩ t
  rw [← h.world]
  by_cases hmem : path ∈ s.cache.buffers
  · have hstart : s.step config lower current (.start 0 (.open path fi)) =
        some (s.goto 0 (.opening path fi)) := by
      simp [Threads.step, Threads.enter, h.pcs 0, hmem]
    obtain ⟨t, hlast, ht⟩ := opening_alone (goto_pcs s 0 (.opening path fi)) (halone.goto _)
      h.shared h.bounds
    rw [if_pos hmem]
    exact ⟨[.start 0 (.open path fi), .advance 0], t,
      Transition.run_cons.mpr ⟨_, hstart, Transition.run_cons.mpr ⟨t, hlast, rfl⟩⟩, ht⟩
  · have hstart : s.step config lower current (.start 0 (.open path fi)) =
        some (s.goto 0 (.emplacing path fi)) := by
      simp [Threads.step, Threads.enter, h.pcs 0, hmem]
    let made : Threads σ := { s.goto 0 (.emplacing path fi) with
      cache := ⟨s.cache.buffers.insert path .empty⟩
      made := Function.update s.made path (current s.world path) }
    have hemplace : (s.goto 0 (.emplacing path fi)).step config lower current (.advance 0) =
        some (made.goto 0 (.opening path fi)) := by
      have hfree : (s.goto 0 (.emplacing path fi)).shared = [] := h.shared
      have hmissed : path ∉ (s.goto 0 (.emplacing path fi)).cache.buffers := hmem
      simp only [Threads.step, goto_pcs, Threads.advance]
      rw [if_pos hfree, if_neg hmissed]
      rfl
    have hmade : made.Alone 0 := halone.goto _
    obtain ⟨t, hlast, ht⟩ := opening_alone (goto_pcs made 0 (.opening path fi)) (hmade.goto _)
      h.shared (inBounds_insert h.bounds inBounds_empty)
    rw [if_neg hmem]
    exact ⟨[.start 0 (.open path fi), .advance 0, .advance 0], t,
      Transition.run_cons.mpr ⟨_, hstart, Transition.run_cons.mpr ⟨_, hemplace,
        Transition.run_cons.mpr ⟨t, hlast, rfl⟩⟩⟩, ht⟩

/-- A `release` by a thread that runs alone. -/
theorem Follows.release {q : Sequential σ} (h : Follows q s) (path : PathName) (fi : FuseFileInfo) :
    ∃ actions t, Transition.run (Threads.step config lower current) s actions = some t ∧
      Follows ⟨(q.cache.release lower path fi q.world).2.1,
        (q.cache.release lower path fi q.world).2.2, q.returned⟩ t := by
  have halone : s.Alone 0 := fun other _ => h.pcs other
  let erased : Threads σ := { s with cache := ⟨s.cache.buffers.erase path⟩ }
  have hstart : s.step config lower current (.start 0 (.release path fi)) =
      some (erased.goto 0 (.releasing path fi)) := by
    simp [Threads.step, Threads.enter, h.pcs 0, h.shared, erased]
  have hlast : (erased.goto 0 (.releasing path fi)).step config lower current (.advance 0) =
      some ({ erased.goto 0 (.releasing path fi) with
        world := (lower.release path fi s.world).2 }.goto 0 .idle) := by
    simp only [Threads.step, goto_pcs, Threads.advance]
    rfl
  refine ⟨[.start 0 (.release path fi), .advance 0], _,
    Transition.run_cons.mpr ⟨_, hstart, Transition.run_cons.mpr ⟨_, hlast, rfl⟩⟩, ?_⟩
  have hreleasing : erased.Alone 0 := halone
  refine ⟨Threads.Alone.pcs_goto_idle (hreleasing.goto _), h.shared, ?_, ?_, h.returned, ?_⟩
  · change (⟨s.cache.buffers.erase path⟩ : Cache) = ⟨q.cache.buffers.erase path⟩
    rw [h.cache]
  · change (lower.release path fi s.world).2 = (lower.release path fi q.world).2
    rw [h.world]
  · intro path' b hlookup
    by_cases heq : path' = path
    · subst heq
      exact absurd hlookup (by simp [erased, Threads.goto])
    · exact h.bounds path' b (by rwa [← AList.lookup_erase_ne heq])

/-- The end of a read by a thread that runs alone. -/
theorem follows_return {r : ReadCall} {outcome : Outcome} (halone : s.Alone 0)
    (hshared : s.shared = [0])
    (hbounds : ∀ path b, s.cache.buffers.lookup path = some b → b.InBounds) :
    Follows ⟨s.cache, s.world, outcome :: s.returned.map Returned.outcome⟩
      (s.return current 0 r outcome) := by
  refine ⟨Threads.Alone.pcs_goto_idle halone, ?_, rfl, rfl, rfl, hbounds⟩
  simp [Threads.return, Threads.goto, hshared]

/-- A window that a layer filled with no more bytes than asked for is in its bounds. -/
theorem inBounds_fetched {res : ℤ} {data : Bytes} {bufSize offset : ℕ} (hres : res ≤ bufSize)
    (hbufSize : bufSize ≤ 2 ^ 31 - 1) (hoffset : offset < 2 ^ 63) :
    (⟨res.toNat, some offset, overlay data (List.replicate bufSize 0)⟩ : Buffer).InBounds := by
  rintro start ⟨⟩
  have hlength : bufSize ≤ (overlay data (List.replicate bufSize 0)).length := by
    simp only [overlay, List.length_append, List.length_drop, List.length_replicate]
    omega
  dsimp only
  omega

/-- The rest of a read that missed, where the layer below fails. -/
theorem fetching_failed_alone {r : ReadCall} (hpc : s.pcs 0 = .fetching r) (halone : s.Alone 0)
    (hshared : s.shared = [0])
    (hbounds : ∀ path b, s.cache.buffers.lookup path = some b → b.InBounds)
    (hfits : max r.size config.size ≤ 2 ^ 31 - 1)
    (hres : (lower.read r.path (max r.size config.size) r.offset r.fi s.world).1 < 0) :
    ∃ actions t, Transition.run (Threads.step config lower current) s actions = some t ∧
      Follows ⟨s.cache, s.world,
        .ret (lower.read r.path (max r.size config.size) r.offset r.fi s.world).1 [] ::
          s.returned.map Returned.outcome⟩ t := by
  have hsize : ¬ 2 ^ 63 ≤ max r.size config.size := by omega
  have hlast : s.step config lower current (.advance 0) = some (s.return current 0 r
      (.ret (lower.read r.path (max r.size config.size) r.offset r.fi s.world).1 [])) := by
    simp only [Threads.step, hpc, Threads.advance]
    rw [if_neg hsize, if_pos hres]
  exact ⟨[.advance 0], _, Transition.run_cons.mpr ⟨_, hlast, rfl⟩,
    follows_return halone hshared hbounds⟩

/-- The rest of a read that missed, where the layer below fills a new window. -/
theorem fetching_stored_alone {r : ReadCall} (hpc : s.pcs 0 = .fetching r) (halone : s.Alone 0)
    (hshared : s.shared = [0])
    (hbounds : ∀ path b, s.cache.buffers.lookup path = some b → b.InBounds)
    (hfits : max r.size config.size ≤ 2 ^ 31 - 1) {res : ℤ} {data : Bytes}
    (hfetch : lower.read r.path (max r.size config.size) r.offset r.fi s.world = (res, data))
    (hres : ¬ res < 0) (hle : res ≤ (max r.size config.size : ℕ)) {window : Buffer}
    (hwindow : window =
      ⟨res.toNat, some r.offset, overlay data (List.replicate (max r.size config.size) 0)⟩) :
    ∃ actions t, Transition.run (Threads.step config lower current) s actions = some t ∧
      Follows ⟨⟨s.cache.buffers.insert r.path window⟩, s.world,
        .ret (toInt (min res.toNat r.size)) (window.buf.take (min res.toNat r.size)) ::
          s.returned.map Returned.outcome⟩ t := by
  have hsize : ¬ 2 ^ 63 ≤ max r.size config.size := by omega
  have hfetched : s.step config lower current (.advance 0) =
      some (s.goto 0 (.updating r window)) := by
    simp only [Threads.step, hpc, Threads.advance, hfetch]
    rw [if_neg hsize, if_neg hres, hwindow]
  let stored : Threads σ := { s.goto 0 (.updating r window) with
    cache := ⟨s.cache.buffers.insert r.path window⟩ }
  have hstored : (s.goto 0 (.updating r window)).step config lower current (.advance 0) =
      some (stored.return current 0 r
        (.ret (toInt (min window.size r.size)) (window.buf.take (min window.size r.size)))) := by
    simp only [Threads.step, goto_pcs, Threads.advance]
    rfl
  have hbound : window.InBounds := hwindow ▸ inBounds_fetched hle hfits r.offset_lt
  have hcount : res.toNat = window.size := by rw [hwindow]
  rw [hcount]
  exact ⟨[.advance 0, .advance 0], _,
    Transition.run_cons.mpr ⟨_, hfetched, Transition.run_cons.mpr ⟨_, hstored, rfl⟩⟩,
    follows_return (s := stored) (halone.goto _) hshared (inBounds_insert hbounds hbound)⟩

/-- A buffer that does not answer puts nothing into the caller's buffer. -/
theorem Buffer.read_miss {b : Buffer} {size offset : ℕ} (hsize : size ≤ 2 ^ 31 - 1)
    (hmiss : (b.read size offset).1 < 0) : b.read size offset = (-1, []) := by
  unfold Buffer.read at hmiss ⊢
  split
  · next hcovers =>
    rw [if_pos hcovers, toInt_of_le hsize] at hmiss
    omega
  · rfl

/-- A `read` by a thread that runs alone. -/
theorem Follows.read {q : Sequential σ} (h : Follows q s)
    (hlower : ∀ path size offset fi w, (lower.read path size offset fi w).1 ≤ (size : ℤ))
    {path : PathName} {size offset : ℕ} {fi : FuseFileInfo} (hsize : size < 2 ^ 64)
    (hoffset : offset < 2 ^ 63) (hfits : max size config.size ≤ 2 ^ 31 - 1) {outcome : Outcome}
    {c : Cache} (hread : q.cache.read config lower path size offset fi q.world = (outcome, c))
    (hdefined : outcome ≠ .undefined) :
    ∃ actions t, Transition.run (Threads.step config lower current) s actions = some t ∧
      Follows ⟨c, q.world, outcome :: q.returned⟩ t := by
  rw [← h.cache, ← h.world] at hread
  rw [← h.world, ← h.returned]
  cases hb : s.cache.buffers.lookup path with
  | none =>
    simp only [Cache.read, hb, Prod.mk.injEq] at hread
    exact absurd hread.1.symm hdefined
  | some b =>
    have hmem : path ∈ s.cache.buffers := AList.lookup_isSome.mp (by simp [hb])
    let r : ReadCall := ⟨path, size, offset, fi, hsize, hoffset, s.opened path⟩
    let entered : Threads σ := { s with shared := [0] }.goto 0 (.reading r)
    have halone : entered.Alone 0 := Threads.Alone.goto (fun other _ => h.pcs other) _
    have hstart : s.step config lower current (.start 0 (.read path size offset fi hsize hoffset)) =
        some entered := by
      simp [Threads.step, Threads.enter, h.pcs 0, h.shared, hmem, entered, r]
    have hcopy : b.copy size offset = .ret (b.read size offset).1 (b.read size offset).2 :=
      (h.bounds path b hb).copy_eq (by omega)
    have hpc : entered.pcs 0 = .reading r := goto_pcs _ 0 _
    have hlookup : entered.cache.buffers.lookup r.path = some b := hb
    by_cases hmiss : (b.read size offset).1 < 0
    · have hnothing := b.read_miss (by omega) hmiss
      have hmissed : entered.step config lower current (.advance 0) =
          some (entered.goto 0 (.fetching r)) := by
        simp only [Threads.step, hpc, Threads.advance, hlookup, r, hcopy]
        rw [if_pos hmiss]
      cases hfetch : lower.read path (max size config.size) offset fi s.world with
      | mk res data =>
        simp only [Cache.read, hb, hnothing, hfetch] at hread
        have hfetching : (entered.goto 0 (.fetching r)).pcs 0 = .fetching r := goto_pcs _ 0 _
        have hfetch' : lower.read r.path (max r.size config.size) r.offset r.fi
            (entered.goto 0 (.fetching r)).world = (res, data) := hfetch
        have hbefore {actions : List (ThreadAction σ)} {t : Threads σ}
            (hrest : Transition.run (Threads.step config lower current)
              (entered.goto 0 (.fetching r)) actions = some t) :
            Transition.run (Threads.step config lower current) s
              (.start 0 (.read path size offset fi hsize hoffset) :: .advance 0 :: actions) =
                some t :=
          Transition.run_cons.mpr ⟨_, hstart, Transition.run_cons.mpr ⟨_, hmissed, hrest⟩⟩
        by_cases hres : res < 0
        · rw [if_pos (by decide), if_pos hres] at hread
          obtain ⟨rfl, rfl⟩ := Prod.mk.inj hread
          obtain ⟨actions, t, hrest, ht⟩ := fetching_failed_alone hfetching (halone.goto _) rfl
            h.bounds hfits (by rwa [hfetch'])
          rw [hfetch'] at ht
          exact ⟨_, t, hbefore hrest, ht⟩
        · rw [if_pos (by decide), if_neg hres] at hread
          obtain ⟨rfl, rfl⟩ := Prod.mk.inj hread
          have hle : res ≤ (max size config.size : ℕ) := by
            simpa [hfetch] using hlower path (max size config.size) offset fi s.world
          obtain ⟨actions, t, hrest, ht⟩ := fetching_stored_alone hfetching (halone.goto _) rfl
            h.bounds hfits hfetch' hres hle rfl
          exact ⟨_, t, hbefore hrest, ht⟩
    · have hhit : entered.step config lower current (.advance 0) =
          some (entered.return current 0 r
            (.ret (b.read size offset).1 (b.read size offset).2)) := by
        simp only [Threads.step, hpc, Threads.advance, hlookup, r, hcopy]
        rw [if_neg hmiss]
      simp only [Cache.read, hb] at hread
      rw [if_neg hmiss] at hread
      obtain ⟨rfl, rfl⟩ := Prod.mk.inj hread
      exact ⟨[.start 0 (.read path size offset fi hsize hoffset), .advance 0], _,
        Transition.run_cons.mpr ⟨_, hstart, Transition.run_cons.mpr ⟨_, hhit, rfl⟩⟩,
        follows_return halone rfl h.bounds⟩

/-- Every turn of the sequential model is a run of one thread alone. -/
theorem Follows.step {q q' : Sequential σ} {turn : Turn σ} (h : Follows q s)
    (hlower : ∀ path size offset fi w, (lower.read path size offset fi w).1 ≤ (size : ℤ))
    (hfits : turn.Fits config) (hstep : q.step config lower turn = some q') :
    ∃ actions t, Transition.run (Threads.step config lower current) s actions = some t ∧
      Follows q' t := by
  cases turn with
  | request request =>
    cases request with
    | «open» path fi =>
      obtain rfl := Option.some.inj hstep
      exact h.open path fi
    | read path size offset fi hsize hoffset =>
      simp only [Sequential.step, Sequential.serve] at hstep
      split at hstep
      · cases hstep
      · next res buf c hread =>
        obtain rfl := Option.some.inj hstep
        exact h.read hlower hsize hoffset hfits hread (by simp)
    | release path fi =>
      obtain rfl := Option.some.inj hstep
      exact h.release path fi
  | change w =>
    obtain rfl := Option.some.inj hstep
    exact ⟨[.change w], { s with world := w }, rfl,
      ⟨h.pcs, h.shared, h.cache, rfl, h.returned, h.bounds⟩⟩

/-- **Sequential runs are runs of the threads.** Over a layer below that reads no more than
it is asked for, some run of the threads makes the same buffers and gives the same answers
as requests that follow one another. -/
theorem exists_threads_run
    (hlower : ∀ path size offset fi w, (lower.read path size offset fi w).1 ≤ (size : ℤ))
    {w : σ} {q : Sequential σ} {turns : List (Turn σ)}
    (hrun : Transition.run (Sequential.step config lower) (Sequential.start w) turns = some q)
    (hfits : ∀ turn ∈ turns, turn.Fits config) :
    ∃ actions t, Transition.run (Threads.step config lower current) (Threads.initial w) actions =
        some t ∧ t.cache = q.cache ∧ t.world = q.world ∧
      t.returned.map Returned.outcome = q.returned := by
  have hinitial : Follows (Sequential.start w) (Threads.initial w) :=
    ⟨fun _ => rfl, rfl, rfl, rfl, rfl, fun path b hb => by simp [Threads.initial] at hb⟩
  obtain ⟨actions, t, hthreads, ht⟩ := Transition.simulation
    (fun q turn q' s h hturn hstep => Follows.step h hlower hturn hstep) hrun hfits hinitial
  exact ⟨actions, t, hthreads, ht.cache, ht.world, ht.returned⟩

end RSafeFS.ReadAhead
