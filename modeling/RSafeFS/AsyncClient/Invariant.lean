import RSafeFS.AsyncClient.Pipeline

/-!
# The invariant of the write-behind pipeline

Every write that was appended is executed, on the stream of the call in flight, unsent in
that call, in a queued call, or still among the blocks, and in this order. At most one
call is in flight, because the scheduler's flag `flushing` accounts for it until its
`CALL_ENDED` has been handled. A call that has ended leaves nothing behind on its stream
as long as no stream fails that has something to deliver.
-/

namespace RSafeFS.AsyncClient

variable {σ : Type}

/-- The blocks that the server has executed. -/
def State.executedParts (s : State σ) : List Block := s.executed.flatMap fun e => e.1.parts

/-- The blocks of a call in flight that the server has not executed. -/
def CallData.pending (c : CallData) : List Block :=
  c.stream.wire.flatMap Message.parts ++ c.blocks.drop c.nBlocksSent

/-- The blocks that the server has not executed, in the order it will get them. -/
def State.pending (s : State σ) : List Block :=
  s.active.flatMap CallData.pending ++ s.calls.flatMap CallData.blocks ++ s.blocks

/-- The ends of calls that the scheduler has not handled. -/
def State.ends (s : State σ) : ℕ :=
  s.channel.count .callEnded + if s.received = some .callEnded then 1 else 0

/-- The server has executed all blocks of the call. -/
def CallData.Delivered (c : CallData) : Prop :=
  c.stream.wire = [] ∧ c.blocks.drop c.nBlocksSent = []

/-- A call in flight whose stream has delivered everything if it has failed. -/
structure CallData.Sound (c : CallData) : Prop where
  intact : c.stream.broken = true → c.Delivered
  merges : ∀ m ∈ c.stream.wire, Merges m.request m.parts
  consumed : c.stream.serverDone = true →
    c.stream.wire = [] ∧ (c.stream.halfClosed = true ∨ c.stream.broken = true)
  progress : match c.callStatus with
    | .create => c.blocks ≠ [] ∧ c.nBlocksSent = 0 ∧ c.stream.halfClosed = false
    | .write => c.stream.halfClosed = false
    | .writesDone | .finished => c.blocks = [] ∧ c.stream.halfClosed = true

/-- What a thread's place promises about its flush. -/
def PcSound (s : State σ) : Pc → Prop
  | .flushing call _ mark => mark = s.markOf call ∧ call < s.nextCall
  | .flushed _ mark => mark ≤ s.executedParts.length
  | _ => True

/-- The invariant of runs in which no stream fails before it has delivered everything. -/
structure Inv (s : State σ) : Prop where
  single : s.active.length + s.ends = if s.flushing then 1 else 0
  conserved : s.executedParts ++ s.pending = s.appended
  merges : ∀ e ∈ s.executed, Merges e.1.request e.1.parts
  sound : ∀ c ∈ s.active, c.Sound
  queued : ∀ c ∈ s.calls, c = ⟨c.id, c.blocks, .create, 0, {}⟩
  orphans : ∀ stream ∈ s.orphans, stream.wire = []
  activeIds : ∀ c ∈ s.active, c.id < s.nextCall ∧
    s.markOf c.id + (s.calls.flatMap CallData.blocks).length + s.blocks.length = s.appended.length
  queuedIds : ∀ before c after, s.calls = before ++ c :: after → c.id < s.nextCall ∧
    s.markOf c.id + (after.flatMap CallData.blocks).length + s.blocks.length = s.appended.length
  ended : ∀ p ∈ s.ending ++ s.promises, p.1 < s.nextCall ∧
    s.markOf p.1 ≤ s.executedParts.length
  threads : ∀ thread, PcSound s (s.pcs thread)
  returned : ∀ r ∈ s.returned, r.2.1 ≤ s.executedParts.length

variable {s t : State σ}

/-- The start of a run satisfies the invariant. -/
theorem inv_initial (w : σ) : Inv (State.initial w) where
  single := rfl
  conserved := rfl
  merges _ h := absurd h List.not_mem_nil
  sound _ h := absurd h List.not_mem_nil
  queued _ h := absurd h List.not_mem_nil
  orphans _ h := absurd h List.not_mem_nil
  activeIds _ h := absurd h List.not_mem_nil
  queuedIds before c after h := by simp [State.initial] at h
  ended _ h := absurd h List.not_mem_nil
  threads _ := trivial
  returned _ h := absurd h List.not_mem_nil

/-- A call in flight is the only one, and no end of a call is outstanding. -/
theorem active_eq_of_single (hsingle : s.active.length + s.ends = if s.flushing then 1 else 0)
    {i : ℕ} {c : CallData} (hc : s.active[i]? = some c) :
    s.active = [c] ∧ i = 0 ∧ s.flushing = true ∧ s.ends = 0 := by
  obtain ⟨hi, hget⟩ := List.getElem?_eq_some_iff.mp hc
  have hflushing : s.flushing = true := by
    by_contra hnot
    rw [if_neg hnot] at hsingle
    omega
  rw [if_pos hflushing] at hsingle
  have hlength : s.active.length = 1 := by omega
  obtain ⟨d, hd⟩ := List.length_eq_one_iff.mp hlength
  have hi0 : i = 0 := by omega
  subst hi0
  refine ⟨?_, rfl, hflushing, by omega⟩
  simp only [hd, List.getElem_cons_zero] at hget
  rw [hd, hget]

/-- When the end of a call is received, no call is in flight and no other end is on its way. -/
theorem active_eq_nil_of_callEnded
    (hsingle : s.active.length + s.ends = if s.flushing then 1 else 0)
    (hreceived : s.received = some .callEnded) :
    s.active = [] ∧ s.channel.count Event.callEnded = 0 := by
  simp only [State.ends, hreceived, if_true] at hsingle
  have hflushing : s.flushing = true := by
    by_contra hnot
    rw [if_neg hnot] at hsingle
    omega
  rw [if_pos hflushing] at hsingle
  exact ⟨List.length_eq_zero_iff.mp (by omega), by omega⟩

theorem Inv.active_eq (h : Inv s) {i : ℕ} {c : CallData} (hc : s.active[i]? = some c) :
    s.active = [c] ∧ i = 0 ∧ s.flushing = true ∧ s.ends = 0 := active_eq_of_single h.single hc

/-- Moving a thread to a sound place keeps the invariant. -/
theorem Inv.goto (h : Inv s) {thread : ℕ} {pc : Pc} (hpc : PcSound s pc) :
    Inv (s.goto thread pc) := by
  have hthreads : ∀ other, PcSound s (Function.update s.pcs thread pc other) := by
    intro other
    by_cases heq : other = thread
    · subst heq
      rwa [Function.update_self]
    · rw [Function.update_of_ne heq]
      exact h.threads other
  exact { h with threads := hthreads }

/-- A call made by `schedule_flush` takes all blocks and their place in the order. -/
theorem Inv.scheduleFlush (h : Inv s) : Inv s.scheduleFlush := by
  have hmark : ∀ {id}, id < s.nextCall → s.scheduleFlush.markOf id = s.markOf id :=
    fun hid => Function.update_of_ne (Nat.ne_of_lt hid) _ _
  have hcount : (s.channel ++ [Event.flushRequest]).count .callEnded =
      s.channel.count .callEnded := by
    simp
  have hends : s.scheduleFlush.ends = s.ends := congrArg (· + _) hcount
  have hpending : s.scheduleFlush.pending = s.pending := by
    simp [State.pending, State.scheduleFlush]
  refine
    { single := ?_
      conserved := ?_
      merges := h.merges
      sound := h.sound
      queued := ?_
      orphans := h.orphans
      activeIds := ?_
      queuedIds := ?_
      ended := ?_
      threads := ?_
      returned := h.returned }
  · rw [hends]
    exact h.single
  · rw [hpending]
    exact h.conserved
  · intro c hc
    rcases List.mem_append.mp hc with hc | hc
    · exact h.queued c hc
    · rw [List.mem_singleton.mp hc]
  · intro c hc
    obtain ⟨hid, hmarked⟩ := h.activeIds c hc
    refine ⟨Nat.lt_succ_of_lt hid, ?_⟩
    rw [hmark hid]
    simp only [State.scheduleFlush, List.flatMap_append, List.flatMap_cons, List.flatMap_nil,
      List.length_append, List.length_nil]
    omega
  · intro before c after hcalls
    rcases List.eq_nil_or_concat' after with rfl | ⟨init, last, rfl⟩
    · -- The new call is the last one.
      obtain ⟨_, hlast⟩ := List.append_inj' hcalls rfl
      obtain rfl := (List.cons.inj hlast).1
      refine ⟨Nat.lt_succ_self _, ?_⟩
      simp [State.scheduleFlush]
    · rw [← List.cons_append, ← List.append_assoc] at hcalls
      obtain ⟨hbefore, hlast⟩ := List.append_inj' hcalls rfl
      obtain rfl := (List.cons.inj hlast).1
      obtain ⟨hid, hmarked⟩ := h.queuedIds before c init hbefore
      refine ⟨Nat.lt_succ_of_lt hid, ?_⟩
      rw [hmark hid]
      simp only [State.scheduleFlush, List.flatMap_append, List.flatMap_cons, List.flatMap_nil,
        List.length_append, List.length_nil]
      omega
  · intro p hp
    obtain ⟨hid, hle⟩ := h.ended p hp
    exact ⟨Nat.lt_succ_of_lt hid, by rw [hmark hid]; exact hle⟩
  · intro thread
    have hsound := h.threads thread
    cases hpc : s.pcs thread with
    | flushing call kind mark =>
      rw [hpc] at hsound
      have hpc' : s.scheduleFlush.pcs thread = .flushing call kind mark := hpc
      rw [hpc']
      exact ⟨by rw [hmark hsound.2]; exact hsound.1, Nat.lt_succ_of_lt hsound.2⟩
    | _ =>
      rw [hpc] at hsound
      have hpc' := hpc
      rw [show s.scheduleFlush.pcs thread = _ from hpc']
      exact hsound

/-- An appended block is the last in the order. -/
theorem Inv.writeAppend (h : Inv s) (thread : ℕ) (b : Block) : Inv (s.writeAppend thread b) := by
  refine Inv.goto ?_ trivial
  refine
    { h with
      conserved := ?_
      activeIds := ?_
      queuedIds := ?_ }
  · have hconserved := h.conserved
    simp only [State.executedParts, State.pending] at hconserved ⊢
    rw [← hconserved]
    simp only [List.append_assoc]
  · intro c hc
    obtain ⟨hid, hmarked⟩ := h.activeIds c hc
    refine ⟨hid, ?_⟩
    simp only [List.length_append, List.length_singleton]
    omega
  · intro before c after hcalls
    obtain ⟨hid, hmarked⟩ := h.queuedIds before c after hcalls
    refine ⟨hid, ?_⟩
    simp only [List.length_append, List.length_singleton]
    omega

/-- Events that are not ends of calls can come and go. -/
theorem Inv.signal (h : Inv s) {channel : List Event} {received : Option Event}
    (hends : State.ends { s with channel, received } = s.ends) (terminated : Bool) :
    Inv { s with channel, received, terminated } := by
  have hsingle : s.active.length + State.ends { s with channel, received } =
      if s.flushing then 1 else 0 := by
    rw [hends]
    exact h.single
  exact { h with single := hsingle }

/-- The scheduler starts the first queued call when none is in flight. -/
theorem Inv.start (h : Inv s) (hactive : s.active = []) (hends : s.ends = 0) {c : CallData}
    {calls : List CallData} (hcalls : s.calls = c :: calls) :
    Inv ({ s with calls, flushing := true }.start c) := by
  have hc := h.queued c (by rw [hcalls]; exact List.mem_cons_self)
  have hconserved : s.executedParts ++ (c.blocks ++ calls.flatMap CallData.blocks ++ s.blocks) =
      s.appended := by
    have := h.conserved
    simpa only [State.pending, hactive, hcalls, List.flatMap_nil, List.flatMap_cons,
      List.nil_append] using this
  obtain ⟨hid, hmarked⟩ := h.queuedIds [] c calls hcalls
  have hqueued : ∀ d ∈ calls, d = ⟨d.id, d.blocks, .create, 0, {}⟩ :=
    fun d hd => h.queued d (by rw [hcalls]; exact List.mem_cons_of_mem c hd)
  have hqueuedIds : ∀ before d after, calls = before ++ d :: after → d.id < s.nextCall ∧
      s.markOf d.id + (after.flatMap CallData.blocks).length + s.blocks.length =
        s.appended.length := by
    intro before d after hsplit
    apply h.queuedIds (c :: before) d after
    rw [hcalls, hsplit, List.cons_append]
  unfold State.start
  split
  · next hempty =>
    refine
      { h with
        single := ?_
        conserved := ?_
        queued := hqueued
        activeIds := ?_
        queuedIds := hqueuedIds
        ended := ?_ }
    · simp only [State.ends, hactive, List.count_append, List.length_nil] at hends ⊢
      simp only [List.count_singleton_self, if_true]
      omega
    · simpa only [State.executedParts, State.pending, hactive, hempty, List.flatMap_nil,
        List.nil_append] using hconserved
    · intro d hd
      simp only [hactive] at hd
      exact absurd hd List.not_mem_nil
    · intro p hp
      simp only [List.mem_append, List.mem_singleton] at hp
      rcases hp with hp | hp | rfl
      · exact h.ended p (List.mem_append_left _ hp)
      · exact h.ended p (List.mem_append_right _ hp)
      · -- Nothing of the call is missing, and everything before it is executed.
        refine ⟨hid, ?_⟩
        have hlength := congrArg List.length hconserved
        simp only [hempty, List.nil_append, List.length_append] at hlength
        dsimp only [State.executedParts] at hlength ⊢
        omega
  · next hne =>
    have hpending : c.pending = c.blocks := by
      rw [hc]
      rfl
    refine
      { h with
        single := ?_
        conserved := ?_
        sound := ?_
        queued := hqueued
        activeIds := ?_
        queuedIds := hqueuedIds }
    · simp only [State.ends, hactive, List.nil_append, List.length_singleton, if_true] at hends ⊢
      omega
    · simpa only [State.executedParts, State.pending, hactive, List.nil_append, List.flatMap_cons,
        List.flatMap_nil, List.append_nil, hpending] using hconserved
    · intro d hd
      simp only [hactive, List.nil_append, List.mem_singleton] at hd
      rw [hd, hc]
      exact ⟨(fun h => by cases h), fun m hm => absurd hm List.not_mem_nil, (fun h => by cases h),
        hne, rfl, rfl⟩
    · intro d hd
      simp only [hactive, List.nil_append, List.mem_singleton] at hd
      rw [hd]
      exact ⟨hid, hmarked⟩

/-- Every turn of the scheduler keeps the invariant. -/
theorem Inv.handle (h : Inv s) {event : Event} (hreceived : s.received = some event) :
    Inv ({ s with received := none }.handle event) := by
  cases event with
  | callEnded =>
    obtain ⟨hactive, hcount⟩ := active_eq_nil_of_callEnded h.single hreceived
    have hidle : Inv { s with received := none, flushing := false } :=
      { h with single := by simp [State.ends, hactive, hcount] }
    unfold State.handle
    dsimp only
    split
    · exact hidle
    · next c calls hcalls =>
      exact hidle.start hactive (by simp [State.ends, hcount]) hcalls
  | flushRequest =>
    have hends : State.ends { s with received := none } = s.ends := by
      simp [State.ends, hreceived]
    have hquiet : Inv { s with received := none } := h.signal hends s.terminated
    unfold State.handle
    dsimp only
    split
    · exact hquiet
    · next c calls hcalls =>
      split
      · exact hquiet
      · next hflushing =>
        have hsingle := hquiet.single
        rw [if_neg hflushing] at hsingle
        exact hquiet.start (List.length_eq_zero_iff.mp (by omega)) (by omega) hcalls
  | terminated =>
    have hends : State.ends { s with received := none } = s.ends := by
      simp [State.ends, hreceived]
    have hsent : State.ends { s with channel := s.channel ++ [.terminated], received := none } =
        s.ends := by
      simp [State.ends, hreceived]
    unfold State.handle
    dsimp only
    split
    · exact h.signal hends true
    · exact h.signal hsent s.terminated

/-- Sending moves blocks from the unsent ones to the wire. -/
theorem CallData.Sound.sendBlock {c : CallData} (maxBlockSize : ℕ)
    (hintact : c.stream.broken = false) (hmerges : ∀ m ∈ c.stream.wire, Merges m.request m.parts)
    (hopen : c.stream.halfClosed = false) (hunfinished : c.stream.serverDone = false)
    (hstatus : c.callStatus = .write) (hsent : c.nBlocksSent = 0) (hblocks : c.blocks ≠ []) :
    (c.sendBlock maxBlockSize).Sound ∧ (c.sendBlock maxBlockSize).pending = c.pending := by
  obtain ⟨firstBlock, rest, hcons⟩ := List.exists_cons_of_ne_nil hblocks
  have hwire : (c.sendBlock maxBlockSize).stream.wire = c.stream.wire ++
      [⟨sendRequest maxBlockSize firstBlock rest,
        (firstBlock :: rest).take (nBlocksToSend maxBlockSize firstBlock rest)⟩] := by
    simp [CallData.sendBlock, hcons, Stream.write, hintact]
  constructor
  · refine ⟨?_, ?_, ?_, ?_⟩
    · simp [CallData.sendBlock, hcons, Stream.write, hintact]
    · intro m hm
      rw [hwire] at hm
      rcases List.mem_append.mp hm with hm | hm
      · exact hmerges m hm
      · rw [List.mem_singleton.mp hm]
        exact sendRequest_merges maxBlockSize firstBlock rest
    · simp [CallData.sendBlock, hcons, Stream.write, hintact, hunfinished]
    · simp [CallData.sendBlock, hcons, Stream.write, hintact, hstatus, hopen]
  · have hdrop : (c.sendBlock maxBlockSize).blocks.drop (c.sendBlock maxBlockSize).nBlocksSent =
        (firstBlock :: rest).drop (nBlocksToSend maxBlockSize firstBlock rest) := by
      simp [CallData.sendBlock, hcons]
    simp only [CallData.pending, hwire, hdrop, hsent, hcons, List.flatMap_append,
      List.flatMap_cons, List.flatMap_nil, List.append_nil, List.append_assoc,
      List.take_append_drop, List.drop_zero]

/-- Every event of a sound call keeps it sound and its blocks in their order. -/
theorem CallData.Sound.proceed {c : CallData} (h : c.Sound) (maxBlockSize : ℕ)
    (hstatus : c.callStatus ≠ .finished) :
    (c.proceed maxBlockSize).Sound ∧ (c.proceed maxBlockSize).pending = c.pending := by
  have hprogress := h.progress
  -- A stream that has something to deliver works, and the server waits for more on it.
  have hworks (hmore : c.blocks.drop c.nBlocksSent ≠ []) : c.stream.broken = false := by
    cases hbroken : c.stream.broken with
    | false => rfl
    | true => exact absurd (h.intact hbroken).2 hmore
  have hunfinished (hmore : c.blocks.drop c.nBlocksSent ≠ [])
      (hopen : c.stream.halfClosed = false) : c.stream.serverDone = false := by
    cases hdone : c.stream.serverDone with
    | false => rfl
    | true =>
      have hclosed := (h.consumed hdone).2
      simp [hopen, hworks hmore] at hclosed
  cases hcase : c.callStatus with
  | create =>
    rw [hcase] at hprogress
    obtain ⟨hblocks, hsent, hopen⟩ := hprogress
    have hproceed : c.proceed maxBlockSize =
        { c with callStatus := .write }.sendBlock maxBlockSize := by
      simp [CallData.proceed, hcase, hblocks]
    have hmore : c.blocks.drop c.nBlocksSent ≠ [] := by
      rw [hsent]
      exact hblocks
    rw [hproceed]
    exact Sound.sendBlock maxBlockSize (hworks hmore) h.merges hopen (hunfinished hmore hopen) rfl
      hsent hblocks
  | write =>
    rw [hcase] at hprogress
    by_cases hempty : c.blocks.drop c.nBlocksSent = []
    · have hproceed : c.proceed maxBlockSize =
          { c with
            blocks := c.blocks.drop c.nBlocksSent
            nBlocksSent := 0
            callStatus := .writesDone
            stream := { c.stream with halfClosed := true } } := by
        simp only [CallData.proceed, hcase, if_pos hempty]
      rw [hproceed]
      refine ⟨⟨fun hbroken => ?_, h.merges, fun hdone => ?_, hempty, rfl⟩, ?_⟩
      · exact ⟨(h.intact hbroken).1, hempty⟩
      · exact ⟨(h.consumed hdone).1, Or.inl rfl⟩
      · simp [CallData.pending, hempty]
    · have hproceed : c.proceed maxBlockSize =
          { c with blocks := c.blocks.drop c.nBlocksSent, nBlocksSent := 0 }.sendBlock
            maxBlockSize := by
        simp only [CallData.proceed, hcase, if_neg hempty]
      rw [hproceed]
      obtain ⟨hsound, hpending⟩ := Sound.sendBlock
        (c := { c with blocks := c.blocks.drop c.nBlocksSent, nBlocksSent := 0 }) maxBlockSize
        (hworks hempty) h.merges hprogress (hunfinished hempty hprogress) hcase rfl hempty
      exact ⟨hsound, hpending.trans (by simp [CallData.pending])⟩
  | writesDone =>
    rw [hcase] at hprogress
    have hproceed : c.proceed maxBlockSize = { c with callStatus := .finished } := by
      simp only [CallData.proceed, hcase]
    rw [hproceed]
    exact ⟨⟨h.intact, h.merges, h.consumed, hprogress⟩, rfl⟩
  | finished => exact absurd hcase hstatus

@[simp] theorem proceed_id (maxBlockSize : ℕ) (c : CallData) :
    (c.proceed maxBlockSize).id = c.id := by
  have hsend (d : CallData) : (d.sendBlock maxBlockSize).id = d.id := by
    unfold CallData.sendBlock
    split <;> rfl
  unfold CallData.proceed
  split
  · split
    · rfl
    · exact hsend _
  · dsimp only
    split
    · rfl
    · exact hsend _
  · rfl
  · rfl

/-- A call in flight can change to one that is sound and has the same blocks to deliver. -/
theorem Inv.setActive (h : Inv s) {i : ℕ} {c d : CallData} (hc : s.active[i]? = some c)
    (hsound : d.Sound) (hid : d.id = c.id) (hpending : d.pending = c.pending) (cacheSize : ℕ) :
    Inv { s with active := s.active.set i d, cacheSize } := by
  obtain ⟨hactive, rfl, -, -⟩ := h.active_eq hc
  have hset : s.active.set 0 d = [d] := by
    rw [hactive, List.set_cons_zero]
  refine
    { h with
      single := ?_
      conserved := ?_
      sound := ?_
      activeIds := ?_ }
  · have hsingle := h.single
    simpa only [State.ends, List.length_set] using hsingle
  · have hconserved := h.conserved
    simpa only [State.executedParts, State.pending, hactive, List.set_cons_zero,
      List.flatMap_cons, List.flatMap_nil, hpending] using hconserved
  · intro e he
    rw [hset] at he
    rw [List.mem_singleton.mp he]
    exact hsound
  · intro e he
    rw [hset] at he
    rw [List.mem_singleton.mp he, hid]
    exact h.activeIds c (by simp [hactive])

/-- A completion event before the last keeps the invariant. -/
theorem Inv.proceed (h : Inv s) (maxBlockSize : ℕ) {i : ℕ} {c : CallData}
    (hc : s.active[i]? = some c) (hunfinished : c.callStatus ≠ .finished) (cacheSize : ℕ) :
    Inv { s with active := s.active.set i (c.proceed maxBlockSize), cacheSize } := by
  have hsound := h.sound c (List.mem_of_getElem? hc)
  obtain ⟨hsound', hpending⟩ := hsound.proceed maxBlockSize hunfinished
  exact h.setActive hc hsound' (proceed_id _ c) hpending cacheSize

/-- The end of a call keeps the invariant. -/
theorem Inv.endCall (h : Inv s) {i : ℕ} {c : CallData} (hc : s.active[i]? = some c)
    (hfinished : c.callStatus = .finished)
    (hdone : c.stream.broken = true ∨ c.stream.serverDone = true) (status : Bool) :
    Inv (s.endCall i c status) := by
  obtain ⟨hactive, rfl, hflushing, hends⟩ := h.active_eq hc
  have hmem : c ∈ s.active := by simp [hactive]
  have hsound := h.sound c hmem
  obtain ⟨hid, hmarked⟩ := h.activeIds c hmem
  -- `Finish` completes only after the server has read everything.
  have hwire : c.stream.wire = [] := by
    rcases hdone with hbroken | hserver
    · exact (hsound.intact hbroken).1
    · exact (hsound.consumed hserver).1
  have hprogress := hsound.progress
  rw [hfinished] at hprogress
  have hpending : c.pending = [] := by
    simp [CallData.pending, hwire, hprogress.1]
  have hconserved : s.executedParts ++ (s.calls.flatMap CallData.blocks ++ s.blocks) =
      s.appended := by
    have := h.conserved
    simpa only [State.pending, hactive, List.flatMap_cons, List.flatMap_nil, List.append_nil,
      hpending, List.nil_append] using this
  refine
    { h with
      single := ?_
      conserved := ?_
      sound := ?_
      orphans := ?_
      activeIds := ?_
      ended := ?_ }
  · simp only [State.ends, State.endCall, hactive, hflushing, List.count_append,
      List.count_singleton_self] at hends ⊢
    simp only [List.eraseIdx_zero, List.tail_cons, List.length_nil, if_true]
    omega
  · simpa only [State.executedParts, State.pending, State.endCall, hactive, List.eraseIdx_zero,
      List.tail_cons, List.flatMap_nil, List.nil_append] using hconserved
  · intro d hd
    simp [State.endCall, hactive] at hd
  · intro stream hstream
    simp only [State.endCall] at hstream
    split at hstream
    · exact h.orphans stream hstream
    · rcases List.mem_append.mp hstream with hold | hnew
      · exact h.orphans stream hold
      · rw [List.mem_singleton.mp hnew]
        exact hwire
  · intro d hd
    simp [State.endCall, hactive] at hd
  · intro p hp
    simp only [State.endCall, List.mem_append, List.mem_singleton] at hp
    rcases hp with (hp | rfl) | hp
    · exact h.ended p (List.mem_append_left _ hp)
    · refine ⟨hid, ?_⟩
      have hlength := congrArg List.length hconserved
      simp only [List.length_append] at hlength
      dsimp only [State.executedParts, State.endCall] at hlength ⊢
      omega
    · exact h.ended p (List.mem_append_right _ hp)

/-- Setting a promise keeps the invariant. -/
theorem Inv.resolve (h : Inv s) {i : ℕ} {p : ℕ × Bool} (hp : s.ending[i]? = some p) :
    Inv { s with ending := s.ending.eraseIdx i, promises := s.promises ++ [p] } := by
  have hended : ∀ q ∈ s.ending.eraseIdx i ++ (s.promises ++ [p]), q.1 < s.nextCall ∧
      s.markOf q.1 ≤ s.executedParts.length := by
    intro q hq
    apply h.ended
    simp only [List.mem_append, List.mem_singleton] at hq ⊢
    rcases hq with hq | hq | rfl
    · exact Or.inl (List.mem_of_mem_eraseIdx hq)
    · exact Or.inr hq
    · exact Or.inl (List.mem_of_getElem? hp)
  exact { h with ended := hended }

/-- The execution of a message keeps the invariant. -/
theorem Inv.execute (h : Inv s) {i : ℕ} {c : CallData} (hc : s.active[i]? = some c) {m : Message}
    {wire : List Message} (hwire : c.stream.wire = m :: wire)
    (hdone : c.stream.serverDone = false) (res : ℤ) (w : σ) :
    Inv { s with
      active := s.active.set i { c with stream := { c.stream with wire } }
      executed := s.executed ++ [(m, res)]
      server := w } := by
  obtain ⟨hactive, rfl, -, -⟩ := h.active_eq hc
  have hmem : c ∈ s.active := by simp [hactive]
  have hsound := h.sound c hmem
  have hset : s.active.set 0 { c with stream := { c.stream with wire } } =
      [{ c with stream := { c.stream with wire } }] := by
    rw [hactive, List.set_cons_zero]
  have hgrows : s.executedParts.length ≤
      ((s.executed ++ [(m, res)]).flatMap fun e => e.1.parts).length := by
    simp [State.executedParts, List.flatMap_append]
  refine
    { single := ?_
      conserved := ?_
      merges := ?_
      sound := ?_
      queued := h.queued
      orphans := h.orphans
      activeIds := ?_
      queuedIds := h.queuedIds
      ended := fun p hp => ⟨(h.ended p hp).1, Nat.le_trans (h.ended p hp).2 hgrows⟩
      threads := ?_
      returned := fun r hr => Nat.le_trans (h.returned r hr) hgrows }
  · have hsingle := h.single
    simpa only [State.ends, List.length_set] using hsingle
  · rw [← h.conserved]
    simp [State.executedParts, State.pending, CallData.pending, hactive, hwire]
  · intro e he
    rcases List.mem_append.mp he with hold | hnew
    · exact h.merges e hold
    · rw [List.mem_singleton.mp hnew]
      exact hsound.merges m (by simp [hwire])
  · intro d hd
    rw [hset] at hd
    rw [List.mem_singleton.mp hd]
    refine ⟨fun hbroken => ?_, fun m' hm' => hsound.merges m' ?_, fun hdone' => ?_,
      hsound.progress⟩
    · have hnil := (hsound.intact hbroken).1
      simp [hwire] at hnil
    · rw [hwire]
      exact List.mem_cons_of_mem m hm'
    · simp [hdone] at hdone'
  · intro d hd
    rw [hset] at hd
    rw [List.mem_singleton.mp hd]
    exact h.activeIds c hmem
  · intro thread
    have hpc := h.threads thread
    cases hcase : s.pcs thread with
    | flushed kind mark =>
      rw [hcase] at hpc
      exact Nat.le_trans hpc hgrows
    | _ => rwa [hcase] at hpc

/-- The end of the server's handler keeps the invariant. -/
theorem Inv.finish (h : Inv s) {i : ℕ} {c : CallData} (hc : s.active[i]? = some c)
    (hwire : c.stream.wire = [])
    (hclosed : c.stream.halfClosed = true ∨ c.stream.broken = true) :
    Inv { s with
      active := s.active.set i { c with stream := { c.stream with serverDone := true } } } := by
  have hsound := h.sound c (List.mem_of_getElem? hc)
  have hdone : CallData.Sound { c with stream := { c.stream with serverDone := true } } :=
    ⟨hsound.intact, hsound.merges, fun _ => ⟨hwire, hclosed⟩, hsound.progress⟩
  exact h.setActive hc hdone rfl rfl s.cacheSize

/-- The invariant does not look at the server's state. -/
theorem Inv.withServer (h : Inv s) (w : σ) : Inv { s with server := w } := { h with }

/-- What follows a completed flush keeps the invariant. -/
theorem Inv.finishFlush (h : Inv s) (server : Server σ) (ok : Bool) (kind : FlushKind) :
    Inv (s.finishFlush server ok kind).2 := by
  cases kind with
  | flush path fi =>
    cases ok with
    | true => exact h.withServer _
    | false => exact h
  | fsync path isdatasync fi =>
    cases ok with
    | true => exact h.withServer _
    | false => exact h
  | destroy =>
    have hends : State.ends { s with channel := s.channel ++ [.terminated] } = s.ends := by
      simp [State.ends]
    exact h.signal hends s.terminated

/-- The transport of no call fails in the step. -/
def Action.Intact : Action → Prop
  | .fail _ => False
  | _ => True

/-- The step fails no stream that has something to deliver. -/
def Harmless (s : State σ) : Action → Prop
  | .fail i => ∀ c, s.active[i]? = some c → c.Delivered
  | _ => True

/-- A step in which no transport fails is harmless. -/
theorem Action.Intact.harmless {a : Action} (h : a.Intact) (s : State σ) : Harmless s a := by
  cases a with
  | fail i => exact h.elim
  | _ => trivial

/-- The failure of a stream that has delivered everything keeps the invariant, and so does
what the transport loses on it afterwards. -/
theorem Inv.setBroken (h : Inv s) {i : ℕ} {c : CallData} (hc : s.active[i]? = some c)
    (hdelivered : c.Delivered) {wire : List Message} {broken : Bool} (hwire : wire = [])
    (hbroken : broken = true) :
    Inv { s with
      active := s.active.set i { c with stream := { c.stream with wire, broken } } } := by
  subst hwire
  subst hbroken
  have hsound := h.sound c (List.mem_of_getElem? hc)
  have hmerges : ∀ m ∈ ([] : List Message), Merges m.request m.parts :=
    fun m hm => absurd hm List.not_mem_nil
  have hbroken : CallData.Sound { c with stream := { c.stream with wire := [], broken := true } } :=
    ⟨fun _ => ⟨rfl, hdelivered.2⟩, hmerges, fun _ => ⟨rfl, Or.inr rfl⟩, hsound.progress⟩
  refine h.setActive hc hbroken rfl ?_ s.cacheSize
  simp [CallData.pending, hdelivered.1]

/-- The end of the server's handler of a stream that the client has left keeps the invariant. -/
theorem Inv.finishOrphan (h : Inv s) (i : ℕ) {stream : Stream} (hwire : stream.wire = []) :
    Inv { s with orphans := s.orphans.set i { stream with serverDone := true } } := by
  have horphans : ∀ o ∈ s.orphans.set i { stream with serverDone := true }, o.wire = [] := by
    intro o ho
    rcases List.mem_or_eq_of_mem_set ho with hold | rfl
    · exact h.orphans o hold
    · exact hwire
  exact { h with orphans := horphans }

/-- A resolved call has been executed. -/
theorem Inv.executed_of_isResolved (h : Inv s) {call : ℕ} (hresolved : s.isResolved call = true) :
    s.markOf call ≤ s.executedParts.length := by
  simp only [State.isResolved, List.any_eq_true, beq_iff_eq] at hresolved
  obtain ⟨p, hp, rfl⟩ := hresolved
  exact (h.ended p (List.mem_append_right _ hp)).2

/-- What a completed flush leaves of the state besides the server and the channel. -/
theorem finishFlush_executed (server : Server σ) (ok : Bool) (kind : FlushKind) :
    (s.finishFlush server ok kind).2.executed = s.executed ∧
      (s.finishFlush server ok kind).2.returned = s.returned := by
  cases kind <;> cases ok <;> exact ⟨rfl, rfl⟩

/-- The return of a flush keeps the invariant. -/
theorem Inv.flushReturn (h : Inv s) (server : Server σ) (ok : Bool) {thread mark : ℕ}
    {kind : FlushKind} (hpc : s.pcs thread = .flushed kind mark) :
    Inv ({ (s.finishFlush server ok kind).2 with
      returned := (kind, mark, (s.finishFlush server ok kind).1) ::
        (s.finishFlush server ok kind).2.returned }.goto thread .idle) := by
  have hthread := h.threads thread
  rw [hpc] at hthread
  obtain ⟨hexecuted, hold⟩ := finishFlush_executed (s := s) server ok kind
  have hfinish := h.finishFlush server ok kind
  have hlogged : ∀ r ∈ (kind, mark, (s.finishFlush server ok kind).1) ::
      (s.finishFlush server ok kind).2.returned,
      r.2.1 ≤ (s.finishFlush server ok kind).2.executedParts.length := by
    intro r hr
    simp only [State.executedParts, hexecuted]
    rcases List.mem_cons.mp hr with rfl | hr
    · exact hthread
    · exact h.returned r (hold ▸ hr)
  have hreturned : Inv { (s.finishFlush server ok kind).2 with
      returned := (kind, mark, (s.finishFlush server ok kind).1) ::
        (s.finishFlush server ok kind).2.returned } :=
    { hfinish with returned := hlogged }
  exact hreturned.goto trivial

/-- **The invariant is kept** by every harmless step. -/
theorem Inv.step (h : Inv s) {config : ClientConfig} {server : Server σ} {a : Action}
    (hharmless : Harmless s a) (hstep : s.step config server a = some t) : Inv t := by
  cases steps_of_step hstep with
  | @writeLock thread =>
    have hlocked : Inv { s with lock := some thread } := { h with }
    exact hlocked.goto trivial
  | writeWait => exact h.scheduleFlush.goto trivial
  | writeFlush => exact h.scheduleFlush.goto trivial
  | writeReady => exact h.goto trivial
  | writeGet => exact h.goto trivial
  | writeAppend => exact h.writeAppend _ _
  | flushSchedule =>
    refine h.scheduleFlush.goto ⟨?_, Nat.lt_succ_self _⟩
    exact (Function.update_self s.nextCall s.appended.length s.markOf).symm
  | @flushGet thread call mark kind hpc hresolved =>
    have hthread := h.threads thread
    rw [hpc] at hthread
    apply h.goto
    show mark ≤ s.executedParts.length
    rw [hthread.1]
    exact h.executed_of_isResolved hresolved
  | flushReturn hpc => exact h.flushReturn server _ hpc
  | timer => exact h.scheduleFlush
  | @receive event channel hreceived hchannel =>
    refine h.signal ?_ s.terminated
    cases event <;> simp [State.ends, hreceived, hchannel]
  | handle hreceived => exact h.handle hreceived
  | proceed hc hunfinished => exact h.proceed _ hc hunfinished _
  | endCall hc hfinished hdone => exact h.endCall hc hfinished hdone _
  | resolve hp => exact h.resolve hp
  | execute hc hwire hdone => exact h.execute hc hwire hdone _ _
  | finish hc hwire hclosed => exact h.finish hc hwire hclosed
  | executeOrphan hstream hwire =>
    rw [h.orphans _ (List.mem_of_getElem? hstream)] at hwire
    cases hwire
  | finishOrphan _ hwire => exact h.finishOrphan _ hwire
  | fail hc => exact h.setBroken hc (hharmless _ hc) (hharmless _ hc).1 rfl
  | lose hc hbroken =>
    have hsound := h.sound _ (List.mem_of_getElem? hc)
    exact h.setBroken hc (hsound.intact hbroken) rfl hbroken

/-- Every state of a run whose steps are all harmless satisfies the invariant. -/
theorem inv_run {config : ClientConfig} {server : Server σ} {w : σ} {actions : List Action}
    (hrun : Transition.run (State.step config server) (State.initial w) actions = some s)
    (hmeets : Transition.Meets (State.step config server) Harmless (State.initial w) actions) :
    Inv s :=
  Transition.invariant (fun _ _ _ h hok hstep => h.step hok hstep) hrun hmeets (inv_initial w)

end RSafeFS.AsyncClient
