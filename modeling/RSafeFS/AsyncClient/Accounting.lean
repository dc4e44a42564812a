import RSafeFS.AsyncClient.Scheduler

/-!
# The memory of the write-behind client

The client counts the bytes of the blocks that it holds, in the queue and in its calls. The
counters are kept by writers, by `schedule_flush` and, without a lock, by the completion
threads, so the loop of `proceed` is taken apart here: each block that it removes is a step
of its own, and all other threads can run between two of them.
-/

namespace RSafeFS.AsyncClient

variable {σ : Type} {config : ClientConfig} {server : Server σ} {s t : State σ}

/-- The bytes that the client holds: in the queue, in queued calls and in calls in flight. -/
def State.held (s : State σ) : ℕ :=
  totalSize s.blocks + totalSize (s.calls.flatMap CallData.blocks) +
    totalSize (s.active.flatMap CallData.blocks)

/-- One turn of the loop in `proceed`: the first block and the call without it. -/
def CallData.pop (c : CallData) : Option (Block × CallData) :=
  match c.callStatus, c.nBlocksSent, c.blocks with
  | .write, n + 1, b :: blocks => some (b, { c with blocks, nBlocksSent := n })
  | _, _, _ => none

/-- The steps of the system with the removal of one block as a step. -/
inductive FineAction where
  | step (a : Action)
  | pop (i : ℕ)
  deriving DecidableEq, Repr

/-- The conditions of steps that are added to those of the system. The copy of a write lies
in memory beside all blocks held, or `make_unique` throws. The rest of `proceed` comes after
its loop. -/
def State.admits (s : State σ) : Action → Bool
  | .writeLock _ b => s.held + b.size < 2 ^ 64
  | .proceed i _ => (s.active[i]?.map CallData.nBlocksSent).getD 0 = 0
  | _ => true

/-- One step of the system with the removal of one block as a step. -/
def State.fineStep (config : ClientConfig) (server : Server σ) (s : State σ) :
    FineAction → Option (State σ)
  | .step a => if s.admits a then s.step config server a else none
  | .pop i => s.active[i]?.bind fun c => c.pop.map fun (b, d) =>
      { s with active := s.active.set i d, cacheSize := sizeSub s.cacheSize b.size }

/-- What a removal takes. -/
theorem pop_cases {c d : CallData} {b : Block} (h : c.pop = some (b, d)) :
    c.callStatus = .write ∧ c.blocks = b :: d.blocks ∧ c.nBlocksSent = d.nBlocksSent + 1 ∧
      d = { c with blocks := d.blocks, nBlocksSent := d.nBlocksSent } := by
  unfold CallData.pop at h
  split at h
  · next n b' blocks hstatus hsent hblocks =>
    simp only [Option.some.injEq, Prod.mk.injEq] at h
    obtain ⟨rfl, rfl⟩ := h
    exact ⟨hstatus, hblocks, hsent, rfl⟩
  · cases h

/-- A step of the finer system is an admitted step of the system or a removal. -/
theorem fineStep_cases {a : FineAction} (hstep : s.fineStep config server a = some t) :
    (∃ action, a = .step action ∧ s.admits action = true ∧
      s.step config server action = some t) ∨
    ∃ i c b d, a = .pop i ∧ s.active[i]? = some c ∧ c.pop = some (b, d) ∧
      t = { s with active := s.active.set i d, cacheSize := sizeSub s.cacheSize b.size } := by
  cases a with
  | step action =>
    simp only [State.fineStep] at hstep
    split at hstep
    · next hadmits => exact Or.inl ⟨action, rfl, hadmits, hstep⟩
    · cases hstep
  | pop i =>
    simp only [State.fineStep, Option.bind_eq_some_iff, Option.map_eq_some_iff] at hstep
    obtain ⟨c, hc, ⟨b, d⟩, hpop, rfl⟩ := hstep
    exact Or.inr ⟨i, c, b, d, rfl, hc, hpop, rfl⟩

/-- After a removal `proceed` does what it would have done with it. -/
theorem proceed_pop {i : ℕ} {c d : CallData} {b : Block} (hc : s.active[i]? = some c)
    (hpop : c.pop = some (b, d)) (ok : Bool) :
    State.step config server
        { s with active := s.active.set i d, cacheSize := sizeSub s.cacheSize b.size }
        (.proceed i ok) =
      s.step config server (.proceed i ok) := by
  obtain ⟨hstatus, hblocks, hsent, hd⟩ := pop_cases hpop
  have hi : i < s.active.length := (List.getElem?_eq_some_iff.mp hc).1
  have hstatus' : d.callStatus = .write := by
    rw [hd]
    exact hstatus
  have hproceed : d.proceed config.blockSize = c.proceed config.blockSize := by
    rw [hd]
    simp only [CallData.proceed, hstatus, hblocks, hsent, List.drop_succ_cons]
  have hpopped : c.popped = b :: d.popped := by
    simp only [CallData.popped, hstatus, hstatus', hblocks, hsent, if_true, List.take_succ_cons]
  have hstream : d.stream = c.stream := by rw [hd]
  simp only [State.step, List.getElem?_set_self hi, hc, Option.bind_some, State.proceed, hstatus,
    hstatus', hstream, hproceed, hpopped, List.set_set, List.foldl_cons, reduceCtorEq, if_false]

/-- **The finer system does what the system does.** A turn of `proceed` is the run of its
removals and of what comes after them. -/
theorem run_pops {i : ℕ} {c : CallData} (hc : s.active[i]? = some c)
    (hstatus : c.callStatus = .write) (hsent : c.nBlocksSent ≤ c.blocks.length) (ok : Bool) :
    Transition.run (State.fineStep config server) s
        (List.replicate c.nBlocksSent (.pop i) ++ [.step (.proceed i ok)]) =
      s.step config server (.proceed i ok) := by
  induction hn : c.nBlocksSent generalizing s c with
  | zero => simp [Transition.run, State.fineStep, State.admits, hc, hn]
  | succ n ih =>
    obtain ⟨b, blocks, hblocks⟩ : ∃ b blocks, c.blocks = b :: blocks := by
      cases hblocks : c.blocks with
      | nil => simp [hblocks, hn] at hsent
      | cons b blocks => exact ⟨b, blocks, rfl⟩
    have hi : i < s.active.length := (List.getElem?_eq_some_iff.mp hc).1
    have hpop : c.pop = some (b, { c with blocks, nBlocksSent := n }) := by
      simp only [CallData.pop, hstatus, hn, hblocks]
    have hrest := ih (s := { s with
        active := s.active.set i { c with blocks, nBlocksSent := n }
        cacheSize := sizeSub s.cacheSize b.size })
      (c := { c with blocks, nBlocksSent := n }) (List.getElem?_set_self hi) hstatus
      (by simpa [hblocks, hn] using hsent) rfl
    rw [proceed_pop hc hpop] at hrest
    rw [← hrest, List.replicate_succ, List.cons_append, Transition.run]
    simp only [State.fineStep, hc, hpop, Option.bind_some, Option.map_some]

/-- How many blocks of a call are sent and not yet removed. -/
def CallData.Counts (c : CallData) : Prop :=
  match c.callStatus with
  | .create => c.nBlocksSent = 0
  | .write => c.nBlocksSent ≤ c.blocks.length
  | .writesDone | .finished => c.blocks = []

/-- The counters are right. -/
structure Counted (s : State σ) : Prop where
  serial : Serial s
  cacheSize : s.cacheSize = s.held
  queueSize : s.blocksQueueSize = totalSize s.blocks
  queued : ∀ c ∈ s.calls, c.callStatus = .create ∧ c.nBlocksSent = 0
  counts : ∀ c ∈ s.active, c.Counts

/-- What a write knows at its place: it owns the lock and its copy has a place in memory.
A write that waits has given all blocks to the last call made, and one that is about to append
has found room or made it. -/
def PcAccounted (config : ClientConfig) (s : State σ) (thread : ℕ) : Pc → Prop
  | .locked b => s.lock = some thread ∧ s.held + b.size < 2 ^ 64
  | .waiting call b => s.lock = some thread ∧ s.held + b.size < 2 ^ 64 ∧ s.blocks = [] ∧
      s.nextCall = call + 1
  | .ready b => s.lock = some thread ∧ s.held + b.size < 2 ^ 64 ∧
      s.cacheSize ≤ config.cacheSize
  | _ => True

/-- The counters are right, and so are the writes about them. -/
structure Accounted (config : ClientConfig) (s : State σ) : Prop extends Counted s where
  threads : ∀ thread, PcAccounted config s thread (s.pcs thread)

/-- The start of a run. -/
theorem accounted_initial (w : σ) : Accounted config (State.initial w) where
  serial := serial_initial w
  cacheSize := rfl
  queueSize := rfl
  queued _ h := absurd h List.not_mem_nil
  counts _ h := absurd h List.not_mem_nil
  threads _ := trivial

/-- A thread without the lock knows nothing that could become wrong. -/
theorem PcAccounted.of_lock_ne {thread : ℕ} {pc : Pc} (h : PcAccounted config s thread pc)
    (hlock : s.lock ≠ some thread) (t : State σ) : PcAccounted config t thread pc := by
  cases pc with
  | locked b => exact absurd h.1 hlock
  | waiting call b => exact absurd h.1 hlock
  | ready b => exact absurd h.1 hlock
  | _ => trivial

/-- The blocks are where they were or at their next place, and none is gone. -/
structure Rearranged (s t : State σ) : Prop where
  blocks : t.blocks = s.blocks
  held : t.held = s.held
  cacheSize : t.cacheSize = s.cacheSize
  queueSize : t.blocksQueueSize = s.blocksQueueSize
  calls : ∀ c ∈ t.calls, c ∈ s.calls
  active : ∀ c ∈ t.active, c ∈ s.active ∨ c ∈ s.calls

/-- Then the counters are right as before. -/
theorem Counted.rearranged (h : Counted s) (hmoved : Rearranged s t) (hserial : Serial t) :
    Counted t where
  serial := hserial
  cacheSize := by rw [hmoved.cacheSize, hmoved.held, h.cacheSize]
  queueSize := by rw [hmoved.queueSize, hmoved.blocks, h.queueSize]
  queued c hc := h.queued c (hmoved.calls c hc)
  counts c hc := by
    rcases hmoved.active c hc with hactive | hcalls
    · exact h.counts c hactive
    · obtain ⟨hstatus, hsent⟩ := h.queued c hcalls
      unfold CallData.Counts
      rw [hstatus]
      exact hsent

/-- The blocks of a started call go with it. -/
theorem start_rearranged {c : CallData} {calls : List CallData} (hcalls : s.calls = c :: calls) :
    Rearranged s ({ s with calls, flushing := true }.start c) := by
  have hrest : ∀ d ∈ calls, d ∈ s.calls := fun d hd => hcalls ▸ List.mem_cons_of_mem c hd
  unfold State.start
  split
  · next hempty =>
    refine ⟨rfl, ?_, rfl, rfl, hrest, fun d hd => Or.inl hd⟩
    simp only [State.held, hcalls, List.flatMap_cons, show c.blocks = [] from hempty,
      List.nil_append]
  · refine ⟨rfl, ?_, rfl, rfl, hrest, fun d hd => ?_⟩
    · simp only [State.held, hcalls, List.flatMap_cons, List.flatMap_append, List.flatMap_nil,
        totalSize_append, List.append_nil]
      omega
    · rcases List.mem_append.mp hd with hold | hnew
      · exact Or.inl hold
      · rw [List.mem_singleton.mp hnew, hcalls]
        exact Or.inr List.mem_cons_self

/-- A turn of the scheduler moves blocks only with their call. -/
theorem handle_rearranged (s : State σ) (event : Event) : Rearranged s (s.handle event) := by
  have hsame : Rearranged s s := ⟨rfl, rfl, rfl, rfl, fun _ hc => hc, fun _ hc => Or.inl hc⟩
  unfold State.handle
  split
  · split
    · exact ⟨rfl, rfl, rfl, rfl, fun _ hc => hc, fun _ hc => Or.inl hc⟩
    · next c calls hcalls => exact start_rearranged hcalls
  · split
    · exact hsame
    · next c calls hcalls =>
      split
      · exact hsame
      · exact start_rearranged hcalls
  · split <;> exact ⟨rfl, rfl, rfl, rfl, fun _ hc => hc, fun _ hc => Or.inl hc⟩

/-- `schedule_flush` gives the blocks to the call that it makes. -/
theorem held_scheduleFlush (s : State σ) : s.scheduleFlush.held = s.held := by
  simp only [State.held, State.scheduleFlush, List.flatMap_append, List.flatMap_cons,
    List.flatMap_nil, List.append_nil, totalSize_append, totalSize_nil]
  omega

/-- `schedule_flush` keeps the counters right. -/
theorem Counted.scheduleFlush (h : Counted s) : Counted s.scheduleFlush where
  serial := h.serial.scheduleFlush
  cacheSize := h.cacheSize.trans (held_scheduleFlush s).symm
  queueSize := rfl
  queued c hc := by
    rcases List.mem_append.mp hc with hold | hnew
    · exact h.queued c hold
    · rw [List.mem_singleton.mp hnew]
      exact ⟨rfl, rfl⟩
  counts := h.counts

/-- The bytes held with another call in the place of the one in flight. -/
theorem Counted.held_setActive (h : Counted s) {i : ℕ} {c : CallData}
    (hc : s.active[i]? = some c) (d : CallData) :
    State.held { s with active := s.active.set i d } + totalSize c.blocks =
      s.held + totalSize d.blocks := by
  obtain ⟨hactive, rfl, -, -⟩ := h.serial.active_eq hc
  simp only [State.held, hactive, List.set_cons_zero, List.flatMap_cons, List.flatMap_nil,
    List.append_nil]
  omega

/-- A call in flight can change if its blocks and the counter do so together. -/
theorem Counted.setActive (h : Counted s) {i : ℕ} {c d : CallData} (hc : s.active[i]? = some c)
    (hid : d.id = c.id) (hcounts : d.Counts) {cacheSize : ℕ}
    (hsize : cacheSize + totalSize c.blocks = s.cacheSize + totalSize d.blocks)
    (executed : List (Message × ℤ)) (w : σ) :
    Counted { s with active := s.active.set i d, cacheSize, executed, server := w } where
  serial := h.serial.setActive hc hid cacheSize executed w
  cacheSize := by
    have hheld := h.held_setActive hc d
    have hold := h.cacheSize
    have hsame : State.held { s with active := s.active.set i d, cacheSize, executed, server := w }
        = State.held { s with active := s.active.set i d } := rfl
    rw [hsame]
    show cacheSize = _
    omega
  queueSize := h.queueSize
  queued := h.queued
  counts e he := by
    rcases List.mem_or_eq_of_mem_set he with hold | rfl
    · exact h.counts e hold
    · exact hcounts

/-- Only blocks that are there are merged. -/
theorem mergeCount_le (maxBlockSize bufSize : ℕ) (lastBlock : Block) (rest : List Block) :
    mergeCount maxBlockSize bufSize lastBlock rest ≤ rest.length := by
  induction rest generalizing bufSize lastBlock with
  | nil => exact Nat.le_refl 0
  | cons b rest ih =>
    rw [mergeCount]
    split
    · exact Nat.succ_le_succ (ih _ _)
    · exact Nat.zero_le _

/-- A call that sends has not lost a block and counts those sent. -/
theorem sendBlock_counts {c : CallData} (maxBlockSize : ℕ) (hstatus : c.callStatus = .write)
    (hsent : c.nBlocksSent = 0) :
    (c.sendBlock maxBlockSize).blocks = c.blocks ∧ (c.sendBlock maxBlockSize).Counts := by
  unfold CallData.sendBlock
  split
  · refine ⟨rfl, ?_⟩
    simp only [CallData.Counts, hstatus, hsent, Nat.zero_le]
  · next b rest hblocks =>
    refine ⟨rfl, ?_⟩
    simp only [CallData.Counts, hstatus, hblocks]
    exact Nat.succ_le_succ (mergeCount_le _ _ _ _)

/-- Behind its loop `proceed` leaves the blocks as they are. -/
theorem proceed_counts {c : CallData} (maxBlockSize : ℕ) (hcounts : c.Counts)
    (hsent : c.nBlocksSent = 0) :
    (c.proceed maxBlockSize).blocks = c.blocks ∧ (c.proceed maxBlockSize).Counts := by
  unfold CallData.proceed
  split
  · split
    · next hempty => exact ⟨rfl, hempty⟩
    · exact sendBlock_counts maxBlockSize rfl hsent
  · next hstatus =>
    simp only [hsent, List.drop_zero]
    split
    · next hempty => exact ⟨rfl, hempty⟩
    · exact sendBlock_counts maxBlockSize hstatus rfl
  · next hstatus =>
    unfold CallData.Counts at hcounts
    rw [hstatus] at hcounts
    exact ⟨rfl, hcounts⟩
  · exact ⟨rfl, hcounts⟩

/-- A removal takes the bytes of its block from the counter, which has them. -/
theorem Counted.pop (h : Counted s) {i : ℕ} {c d : CallData} {b : Block}
    (hc : s.active[i]? = some c) (hpop : c.pop = some (b, d)) :
    b.size ≤ s.cacheSize ∧
      Counted { s with active := s.active.set i d, cacheSize := sizeSub s.cacheSize b.size } := by
  obtain ⟨hstatus, hblocks, hsent, hd⟩ := pop_cases hpop
  have hcounts := h.counts c (List.mem_of_getElem? hc)
  have htotal : totalSize c.blocks = b.size + totalSize d.blocks := by
    rw [hblocks, totalSize_cons]
  have hle : b.size ≤ s.cacheSize := by
    have hheld := h.held_setActive hc d
    rw [h.cacheSize]
    omega
  refine ⟨hle, h.setActive hc (by rw [hd]) ?_ ?_ s.executed s.server⟩
  · rw [hd]
    simp only [CallData.Counts, hstatus, hblocks, hsent, List.length_cons] at hcounts ⊢
    omega
  · rw [sizeSub_of_le hle, htotal]
    omega

/-- An append makes room for its bytes in both counters. -/
theorem Accounted.writeAppend (h : Accounted config s) {thread : ℕ} {b : Block}
    (hpc : s.pcs thread = .ready b) : Counted (s.writeAppend thread b) ∧
      (s.writeAppend thread b).cacheSize = s.cacheSize + b.size := by
  have hthread := h.threads thread
  rw [hpc] at hthread
  obtain ⟨-, hroom, -⟩ := hthread
  have hheld : (s.writeAppend thread b).held = s.held + b.size := by
    simp only [State.held, State.writeAppend, State.goto, totalSize_append, totalSize_cons,
      totalSize_nil]
    omega
  have hcache : (s.writeAppend thread b).cacheSize = s.cacheSize + b.size := by
    rw [← h.cacheSize] at hroom
    exact Nat.mod_eq_of_lt hroom
  have hqueue : (s.writeAppend thread b).blocksQueueSize = s.blocksQueueSize + b.size := by
    refine Nat.mod_eq_of_lt ?_
    rw [h.queueSize]
    unfold State.held at hroom
    omega
  refine ⟨?_, hcache⟩
  exact
    { serial := ⟨h.serial.single, h.serial.wake, h.serial.inOrder⟩
      cacheSize := by rw [hcache, hheld, h.cacheSize]
      queueSize := by
        rw [hqueue, h.queueSize]
        simp [State.writeAppend, State.goto]
      queued := h.queued
      counts := h.counts }

/-- Every admitted step keeps the counters right. -/
theorem Accounted.counted_step (h : Accounted config s) {a : Action} (hadmits : s.admits a = true)
    (hstep : s.step config server a = some t) : Counted t := by
  have hserial := h.serial.step hstep
  have hmade := h.toCounted.scheduleFlush
  cases steps_of_step hstep with
  | writeWait => exact { hmade with serial := hserial }
  | writeFlush => exact { hmade with serial := hserial }
  | flushSchedule => exact { hmade with serial := hserial }
  | timer => exact hmade
  | writeAppend hpc => exact (h.writeAppend hpc).1
  | @flushReturn thread mark ok kind =>
    refine h.toCounted.rearranged ?_ hserial
    cases kind <;> cases ok <;>
      exact ⟨rfl, rfl, rfl, rfl, fun _ hc => hc, fun _ hc => Or.inl hc⟩
  | @handle event =>
    obtain ⟨hblocks, hheld, hcache, hqueue, hcalls, hactive⟩ :=
      handle_rearranged { s with received := none } event
    exact h.toCounted.rearranged ⟨hblocks, hheld, hcache, hqueue, hcalls, hactive⟩ hserial
  | @proceed i ok c hc =>
    have hsent : c.nBlocksSent = 0 := by simpa [State.admits, hc] using hadmits
    have hpopped : c.popped = [] := by simp [CallData.popped, hsent]
    obtain ⟨hblocks, hcounts⟩ :=
      proceed_counts config.blockSize (h.counts c (List.mem_of_getElem? hc)) hsent
    refine h.toCounted.setActive hc (proceed_id _ _) hcounts ?_ s.executed s.server
    rw [hpopped, hblocks, List.foldl_nil]
  | @endCall i ok c hc hfinished =>
    refine h.toCounted.rearranged ⟨rfl, ?_, rfl, rfl, fun _ hc => hc, fun d hd => ?_⟩ hserial
    · have hempty : c.blocks = [] := by
        have hcounts := h.counts c (List.mem_of_getElem? hc)
        unfold CallData.Counts at hcounts
        rwa [hfinished] at hcounts
      obtain ⟨hactive, rfl, -, -⟩ := h.serial.active_eq hc
      simp only [State.held, State.endCall, hactive, List.eraseIdx_zero, List.tail_cons,
        List.flatMap_cons, List.flatMap_nil, hempty, List.append_nil]
    · exact Or.inl (List.mem_of_mem_eraseIdx hd)
  | @execute i c m wire hc =>
    have hcounts := h.counts c (List.mem_of_getElem? hc)
    exact h.toCounted.setActive (d := { c with stream := { c.stream with wire } }) hc rfl hcounts
      rfl _ _
  | @finish i c hc =>
    have hcounts := h.counts c (List.mem_of_getElem? hc)
    exact h.toCounted.setActive (d := { c with stream := { c.stream with serverDone := true } }) hc
      rfl hcounts rfl s.executed s.server
  | @fail i c hc =>
    have hcounts := h.counts c (List.mem_of_getElem? hc)
    exact h.toCounted.setActive (d := { c with stream := { c.stream with broken := true } }) hc
      rfl hcounts rfl s.executed s.server
  | @lose i c hc =>
    have hcounts := h.counts c (List.mem_of_getElem? hc)
    exact h.toCounted.setActive (d := { c with stream := { c.stream with wire := [] } }) hc
      rfl hcounts rfl s.executed s.server
  | _ => exact { h.toCounted with serial := hserial }

/-- A write keeps what it knows while others only remove blocks. -/
theorem Accounted.threads_mono (h : Accounted config s) (hcounted : Counted t)
    (hcacheSize : t.cacheSize ≤ s.cacheSize) (hlock : t.lock = s.lock)
    (hblocks : t.blocks = s.blocks) (hnext : t.nextCall = s.nextCall) (thread : ℕ) :
    PcAccounted config t thread (s.pcs thread) := by
  have hthread := h.threads thread
  have hheld : t.held ≤ s.held := by
    rw [← hcounted.cacheSize, ← h.cacheSize]
    exact hcacheSize
  cases hpc : s.pcs thread with
  | locked b =>
    rw [hpc] at hthread
    obtain ⟨howner, hroom⟩ := hthread
    exact ⟨hlock.trans howner, Nat.lt_of_le_of_lt (Nat.add_le_add_right hheld _) hroom⟩
  | waiting call b =>
    rw [hpc] at hthread
    obtain ⟨howner, hroom, hempty, hlast⟩ := hthread
    exact ⟨hlock.trans howner, Nat.lt_of_le_of_lt (Nat.add_le_add_right hheld _) hroom,
      hblocks.trans hempty, hnext.trans hlast⟩
  | ready b =>
    rw [hpc] at hthread
    obtain ⟨howner, hroom, hle⟩ := hthread
    exact ⟨hlock.trans howner, Nat.lt_of_le_of_lt (Nat.add_le_add_right hheld _) hroom,
      Nat.le_trans hcacheSize hle⟩
  | _ => trivial

/-- All threads are right after one has moved. -/
theorem threads_goto {thread : ℕ} {pc : Pc} (hself : PcAccounted config s thread pc)
    (hothers : ∀ other, other ≠ thread → PcAccounted config s other (s.pcs other)) (other : ℕ) :
    PcAccounted config (s.goto thread pc) other ((s.goto thread pc).pcs other) := by
  by_cases heq : other = thread
  · subst heq
    rw [goto_pcs_self]
    exact hself
  · have hsame : (s.goto thread pc).pcs other = s.pcs other := Function.update_of_ne heq _ _
    rw [hsame]
    exact hothers other heq

/-- When the flush that a write has waited for is done, the client holds nothing. -/
theorem Accounted.cacheSize_of_isResolved (h : Accounted config s) {thread call : ℕ} {b : Block}
    (hpc : s.pcs thread = .waiting call b) (hresolved : s.isResolved call = true) :
    s.cacheSize = 0 := by
  have hthread := h.threads thread
  rw [hpc] at hthread
  obtain ⟨-, -, hblocks, hnext⟩ := hthread
  -- Calls behind the write's own would need the lock, and it has got a later number than
  -- those that are left.
  have hnone : s.active ++ s.calls = [] := by
    rw [List.eq_nil_iff_forall_not_mem]
    intro c hc
    have hgt := h.serial.inOrder.lt_of_isResolved hresolved c hc
    have hlt := h.serial.inOrder.lt_nextCall c hc
    omega
  obtain ⟨hactive, hcalls⟩ := List.append_eq_nil_iff.mp hnone
  rw [h.cacheSize]
  simp [State.held, hblocks, hactive, hcalls]

/-- **Every admitted step keeps the accounts.** -/
theorem Accounted.step (h : Accounted config s) {a : Action} (hadmits : s.admits a = true)
    (hstep : s.step config server a = some t) : Accounted config t := by
  have hcounted := h.counted_step hadmits hstep
  have hfree (hlock : s.lock = none) (u : State σ) (thread : ℕ) :
      PcAccounted config u thread (s.pcs thread) :=
    (h.threads thread).of_lock_ne (by simp [hlock]) u
  have hothers {thread : ℕ} (hlock : s.lock = some thread) (u : State σ) (other : ℕ)
      (hne : other ≠ thread) : PcAccounted config u other (s.pcs other) :=
    (h.threads other).of_lock_ne (by simp [hlock, hne.symm]) u
  refine { hcounted with threads := ?_ }
  cases steps_of_step hstep with
  | writeLock hpc hlock =>
    have hroom : s.held + _ < 2 ^ 64 := of_decide_eq_true hadmits
    exact threads_goto ⟨rfl, hroom⟩ fun other _ => hfree hlock _ other
  | @writeWait thread b hpc =>
    have hthread := h.threads thread
    rw [hpc] at hthread
    obtain ⟨hlock, hroom⟩ := hthread
    rw [← held_scheduleFlush] at hroom
    exact threads_goto ⟨hlock, hroom, rfl, rfl⟩ (hothers hlock _)
  | @writeFlush thread b hpc hle =>
    have hthread := h.threads thread
    rw [hpc] at hthread
    obtain ⟨hlock, hroom⟩ := hthread
    rw [← held_scheduleFlush] at hroom
    exact threads_goto ⟨hlock, hroom, hle⟩ (hothers hlock _)
  | @writeReady thread b hpc hle =>
    have hthread := h.threads thread
    rw [hpc] at hthread
    obtain ⟨hlock, hroom⟩ := hthread
    exact threads_goto ⟨hlock, hroom, hle⟩ (hothers hlock _)
  | @writeGet thread call b hpc hresolved =>
    have hempty := h.cacheSize_of_isResolved hpc hresolved
    have hthread := h.threads thread
    rw [hpc] at hthread
    obtain ⟨hlock, hroom, -, -⟩ := hthread
    exact threads_goto ⟨hlock, hroom, by omega⟩ (hothers hlock _)
  | @writeAppend thread b hpc =>
    have hthread := h.threads thread
    rw [hpc] at hthread
    exact threads_goto trivial (hothers hthread.1 _)
  | flushSchedule _ hlock => exact threads_goto trivial fun other _ => hfree hlock _ other
  | timer hlock => exact hfree hlock _
  | flushGet => exact threads_goto trivial fun other _ => h.threads other
  | @flushReturn thread mark ok kind =>
    refine threads_goto trivial fun other _ => ?_
    cases kind <;> cases ok <;> exact h.threads other
  | @handle event =>
    have hmoved := handle_rearranged { s with received := none } event
    have hsame := handle_undisturbed (s := { s with received := none }) event
    rw [hsame.pcs]
    exact h.threads_mono hcounted hmoved.cacheSize.le hsame.lock hmoved.blocks hsame.nextCall
  | @proceed i ok c hc =>
    have hsent : c.nBlocksSent = 0 := by simpa [State.admits, hc] using hadmits
    have hpopped : c.popped = [] := by simp [CallData.popped, hsent]
    refine h.threads_mono hcounted ?_ rfl rfl rfl
    rw [hpopped]
    exact Nat.le_refl _
  | _ => exact h.threads_mono hcounted (Nat.le_refl _) rfl rfl rfl

/-- A removal keeps the accounts. -/
theorem Accounted.pop (h : Accounted config s) {i : ℕ} {c d : CallData} {b : Block}
    (hc : s.active[i]? = some c) (hpop : c.pop = some (b, d)) :
    Accounted config
      { s with active := s.active.set i d, cacheSize := sizeSub s.cacheSize b.size } := by
  obtain ⟨hle, hcounted⟩ := h.toCounted.pop hc hpop
  refine { hcounted with threads := h.threads_mono hcounted ?_ rfl rfl rfl }
  rw [sizeSub_of_le hle]
  exact Nat.sub_le _ _

/-- **The accounts of the client.** In every state of every run, however the threads
interleave and whatever the streams do: `cache_size_` is the size of the blocks held;
`blocks_queue_size_` is that of the queue while the lock is free; a block that `proceed` is
about to remove is there, and the counter is not below its size; and an append leaves the
counter above the configured size by at most its own. -/
theorem accounts {w : σ} {actions : List FineAction}
    (hrun : Transition.run (State.fineStep config server) (State.initial w) actions = some s) :
    s.cacheSize = s.held ∧
    (s.lock = none → s.blocksQueueSize = totalSize s.blocks) ∧
    (∀ c ∈ s.active, c.callStatus = .write → 0 < c.nBlocksSent →
      ∃ b d, c.pop = some (b, d) ∧ b.size ≤ s.cacheSize) ∧
    ∀ thread b t, s.pcs thread = .ready b →
      s.fineStep config server (.step (.writeAppend thread)) = some t →
      t.cacheSize ≤ config.cacheSize + b.size := by
  have haccounted : Accounted config s := by
    refine Transition.invariant_of_forall (fun s a t h hstep => ?_) hrun (accounted_initial w)
    rcases fineStep_cases hstep with ⟨_, _, hadmits, hstep⟩ | ⟨i, c, b, d, _, hc, hpop, rfl⟩
    · exact Accounted.step h hadmits hstep
    · exact Accounted.pop h hc hpop
  refine ⟨haccounted.cacheSize, fun _ => haccounted.queueSize, ?_, ?_⟩
  · intro c hc hstatus hsent
    have hcounts := haccounted.counts c hc
    simp only [CallData.Counts, hstatus] at hcounts
    obtain ⟨n, hn⟩ := Nat.exists_eq_succ_of_ne_zero (Nat.ne_of_gt hsent)
    cases hblocks : c.blocks with
    | nil => simp [hblocks, hn] at hcounts
    | cons b blocks =>
      have hpop : c.pop = some (b, { c with blocks, nBlocksSent := n }) := by
        simp only [CallData.pop, hstatus, hn, hblocks]
      obtain ⟨i, hi⟩ := List.mem_iff_getElem?.mp hc
      exact ⟨b, _, hpop, (haccounted.toCounted.pop hi hpop).1⟩
  · intro thread b t hpc hstep
    have hthread := haccounted.threads thread
    rw [hpc] at hthread
    obtain ⟨-, -, hle⟩ := hthread
    simp only [State.fineStep, State.admits, if_true, State.step, hpc] at hstep
    obtain rfl := Option.some.inj hstep
    rw [(haccounted.writeAppend hpc).2]
    exact Nat.add_le_add_right hle _

/-- A client with room for one byte. -/
def tightConfig : ClientConfig := ⟨1, 3, fun n => n > 1⟩

/-- A write, and another that finds the client full and waits until it is empty. -/
def writeIntoFull : List FineAction :=
  [.step (.writeLock 0 firstBlock), .step (.writeCheck 0), .step (.writeAppend 0),
    .step (.writeLock 0 secondBlock), .step (.writeCheck 0), .step .receive, .step .handle,
    .step (.proceed 0 true), .step (.serve 0), .pop 0, .step (.proceed 0 true),
    .step (.proceed 0 true), .step (.serve 0), .step (.proceed 0 true), .step (.resolve 0),
    .step (.writeGet 0)]

/-- The second write keeps to the bound. -/
theorem accounts_writeIntoFull :
    ∃ s t, Transition.run (State.fineStep tightConfig handleServer) (State.initial fun _ => [])
        writeIntoFull = some s ∧
      s.fineStep tightConfig handleServer (.step (.writeAppend 0)) = some t ∧
      t.cacheSize ≤ tightConfig.cacheSize + secondBlock.size := by
  have hreaches : (Transition.run (State.fineStep tightConfig handleServer)
      (State.initial fun _ => []) writeIntoFull).any (fun s => s.pcs 0 = .ready secondBlock) =
        true := by
    decide +kernel
  obtain ⟨s, hrun, hs⟩ := Option.any_eq_true _ _ |>.mp hreaches
  have hpc : s.pcs 0 = .ready secondBlock := of_decide_eq_true hs
  have hstep : s.fineStep tightConfig handleServer (.step (.writeAppend 0)) =
      some (s.writeAppend 0 secondBlock) := by
    simp only [State.fineStep, State.admits, if_true, State.step, hpc]
  obtain ⟨-, -, -, hbound⟩ := accounts hrun
  exact ⟨s, _, hrun, hstep, hbound 0 secondBlock _ hpc hstep⟩

end RSafeFS.AsyncClient
