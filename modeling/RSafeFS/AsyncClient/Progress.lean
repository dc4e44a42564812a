import RSafeFS.AsyncClient.Session

/-!
# Every operation can complete

The scheduler is woken for every queued call, and every call that was made is queued, in
flight or ended. So from every state the pipeline can be driven until all calls have ended:
a measure of the remaining work goes down with each step. A caller that waits for a call is
thereby released, and can issue its next operation.
-/

namespace RSafeFS.AsyncClient

variable {σ : Type} {config : ClientConfig} {server : Server σ} {s t : State σ} {a : Action}

/-- The calls made that are queued, in flight, or ended. -/
def State.known (s : State σ) : List ℕ :=
  s.calls.map CallData.id ++ s.active.map CallData.id ++ (s.ending ++ s.promises).map Prod.fst

/-- The scheduler runs, is woken for the queued calls, and no call is lost. -/
structure Awake (s : State σ) : Prop where
  running : s.terminated = false
  unstopped : .terminated ∉ s.channel ∧ s.received ≠ some .terminated
  wake : s.calls ≠ [] → s.flushing = true ∨ .flushRequest ∈ s.channel ∨
    s.received = some .flushRequest
  tracked : ∀ id < s.nextCall, id ∈ s.known
  sending : ∀ c ∈ s.active, c.callStatus = .write → 0 < c.nBlocksSent

/-- The start of a run. -/
theorem awake_initial (w : σ) : Awake (State.initial w) where
  running := rfl
  unstopped := ⟨List.not_mem_nil, by simp [State.initial]⟩
  wake h := absurd rfl h
  tracked _ h := absurd h (Nat.not_lt_zero _)
  sending _ h := absurd h List.not_mem_nil

/-- A scheduled call is known, and its request wakes the scheduler. -/
theorem Awake.scheduleFlush (h : Awake s) : Awake s.scheduleFlush where
  running := h.running
  unstopped := by simpa [State.scheduleFlush] using h.unstopped
  wake _ := Or.inr (Or.inl (by simp [State.scheduleFlush]))
  tracked id hid := by
    rcases Nat.lt_succ_iff_lt_or_eq.mp hid with hold | hnew
    · have hknown := h.tracked id hold
      simp only [State.known, State.scheduleFlush, List.map_append, List.mem_append] at hknown ⊢
      tauto
    · simp [State.known, State.scheduleFlush, hnew]
  sending := h.sending

/-- A call in flight can change to one with its number. -/
theorem Awake.setActive (h : Awake s) (hinv : Inv s) {i : ℕ} {c d : CallData}
    (hc : s.active[i]? = some c) (hid : d.id = c.id)
    (hsending : d.callStatus = .write → 0 < d.nBlocksSent) (cacheSize : ℕ)
    (executed : List (Message × ℤ)) (w : σ) :
    Awake { s with active := s.active.set i d, cacheSize, executed, server := w } := by
  obtain ⟨hactive, rfl, -, -⟩ := hinv.active_eq hc
  refine { h with tracked := ?_, sending := ?_ }
  · intro id hlt
    have hknown := h.tracked id hlt
    simpa [State.known, hactive, hid] using hknown
  · intro e he
    simp only [hactive, List.set_cons_zero, List.mem_singleton] at he
    rw [he]
    exact hsending

/-- What happens on the stream of a call in flight leaves the scheduler awake. -/
theorem Awake.setStream (h : Awake s) (hinv : Inv s) {i : ℕ} {c : CallData}
    (hc : s.active[i]? = some c) (stream : Stream) (executed : List (Message × ℤ)) (w : σ) :
    Awake { s with active := s.active.set i { c with stream }, executed, server := w } := by
  have hsending : c.callStatus = .write → 0 < c.nBlocksSent :=
    h.sending c (List.mem_of_getElem? hc)
  exact h.setActive hinv (d := { c with stream }) hc rfl hsending s.cacheSize executed w

/-- A call that the scheduler starts is in flight or has ended. -/
theorem Awake.start {c : CallData} {calls : List CallData} (h : Awake s)
    (hcalls : s.calls = c :: calls) (hcreate : c.callStatus = .create) :
    Awake ({ s with calls, flushing := true, received := none }.start c) := by
  have htracked := h.tracked
  simp only [State.known, hcalls] at htracked
  unfold State.start
  split
  · refine ⟨h.running, ⟨by simpa using h.unstopped.1, by simp⟩, fun _ => Or.inl rfl, ?_, h.sending⟩
    intro id hid
    have hknown := htracked id hid
    simp only [State.known, List.map_append, List.map_cons, List.map_nil, List.mem_append,
      List.mem_cons] at hknown ⊢
    tauto
  · refine ⟨h.running, ⟨h.unstopped.1, by simp⟩, fun _ => Or.inl rfl, ?_, ?_⟩
    · intro id hid
      have hknown := htracked id hid
      simp only [State.known, List.map_append, List.map_cons, List.map_nil, List.mem_append,
        List.mem_cons] at hknown ⊢
      tauto
    · intro d hd hwrite
      rcases List.mem_append.mp hd with hold | hnew
      · exact h.sending d hold hwrite
      · rw [List.mem_singleton.mp hnew, hcreate] at hwrite
        cases hwrite

/-- Every turn of the scheduler leaves it awake. -/
theorem Awake.handle (h : Awake s) (hinv : Inv s) {event : Event}
    (hreceived : s.received = some event) :
    Awake ({ s with received := none }.handle event) := by
  have hcreate : ∀ c ∈ s.calls, c.callStatus = .create := by
    intro c hc
    rw [hinv.queued c hc]
  have hfirst {c : CallData} {calls : List CallData} (hcalls : s.calls = c :: calls) :
      c.callStatus = .create := hcreate c (by rw [hcalls]; exact List.mem_cons_self)
  cases event with
  | callEnded =>
    unfold State.handle
    dsimp only
    split
    · next hcalls =>
      exact { h with unstopped := ⟨h.unstopped.1, by simp⟩, wake := fun hne => absurd hcalls hne }
    · next c calls hcalls => exact h.start hcalls (hfirst hcalls)
  | flushRequest =>
    unfold State.handle
    dsimp only
    split
    · next hcalls =>
      exact { h with unstopped := ⟨h.unstopped.1, by simp⟩, wake := fun hne => absurd hcalls hne }
    · next c calls hcalls =>
      split
      · next hflushing =>
        exact { h with unstopped := ⟨h.unstopped.1, by simp⟩, wake := fun _ => Or.inl hflushing }
      · exact h.start hcalls (hfirst hcalls)
  | terminated => exact absurd hreceived h.unstopped.2

/-- A call that is sending has sent something. -/
theorem proceed_sending {c : CallData} (maxBlockSize : ℕ)
    (h : (c.proceed maxBlockSize).callStatus = .write) :
    0 < (c.proceed maxBlockSize).nBlocksSent := by
  have hsend (d : CallData) (hd : d.blocks ≠ []) : 0 < (d.sendBlock maxBlockSize).nBlocksSent := by
    obtain ⟨firstBlock, rest, hcons⟩ := List.exists_cons_of_ne_nil hd
    simp [CallData.sendBlock, hcons, nBlocksToSend]
  unfold CallData.proceed at h ⊢
  split at h
  · split at h
    · cases h
    · next hne =>
      rw [if_neg hne]
      exact hsend _ hne
  · dsimp only at h ⊢
    split at h
    · cases h
    · next hne =>
      rw [if_neg hne]
      exact hsend _ hne
  · cases h
  · next hfinished =>
    rw [hfinished] at h
    cases h

/-- The end of a call leaves the scheduler awake. -/
theorem Awake.endCall (h : Awake s) (hinv : Inv s) {i : ℕ} {c : CallData}
    (hc : s.active[i]? = some c) (status : Bool) : Awake (s.endCall i c status) := by
  obtain ⟨hactive, rfl, hflushing, -⟩ := hinv.active_eq hc
  refine ⟨h.running, ⟨by simpa [State.endCall] using h.unstopped.1, h.unstopped.2⟩,
    fun _ => Or.inl hflushing, ?_, ?_⟩
  · intro id hid
    have hknown := h.tracked id hid
    simp only [State.known, State.endCall, hactive, List.map_append, List.map_cons,
      List.map_nil, List.eraseIdx_zero, List.tail_cons, List.mem_append,
      List.mem_cons] at hknown ⊢
    tauto
  · intro d hd
    simp [State.endCall, hactive] at hd

/-- Setting a promise leaves the scheduler awake. -/
theorem Awake.resolve (h : Awake s) {i : ℕ} {p : ℕ × Bool} (hp : s.ending[i]? = some p) :
    Awake { s with ending := s.ending.eraseIdx i, promises := s.promises ++ [p] } := by
  refine { h with tracked := fun id hid => ?_ }
  have hknown := h.tracked id hid
  have hending : id ∈ s.ending.map Prod.fst →
      id = p.1 ∨ id ∈ (s.ending.eraseIdx i).map Prod.fst := by
    obtain ⟨hi, hget⟩ := List.getElem?_eq_some_iff.mp hp
    have hperm := (List.getElem_cons_eraseIdx_perm hi).map Prod.fst
    rw [hget] at hperm
    exact fun hmem => List.mem_cons.mp (hperm.symm.subset hmem)
  simp only [State.known, List.map_append, List.map_cons, List.map_nil, List.mem_append,
    List.mem_singleton] at hknown ⊢
  tauto

/-- An event that the scheduler receives is still to be handled. -/
theorem Awake.receive (h : Awake s) {event : Event} {channel : List Event}
    (hreceived : s.received = none) (hchannel : s.channel = event :: channel) :
    Awake { s with channel, received := some event } := by
  obtain ⟨hunstopped, -⟩ := h.unstopped
  rw [hchannel, List.mem_cons, not_or] at hunstopped
  refine { h with unstopped := ⟨hunstopped.2, ?_⟩, wake := fun hcalls => ?_ }
  · exact fun heq => hunstopped.1 (Option.some.inj heq).symm
  · rcases h.wake hcalls with hflushing | hsent | hnone
    · exact Or.inl hflushing
    · rw [hchannel, List.mem_cons] at hsent
      rcases hsent with rfl | hrest
      · exact Or.inr (Or.inr rfl)
      · exact Or.inr (Or.inl hrest)
    · rw [hreceived] at hnone
      cases hnone

/-- The caller can go on from where it is. -/
def CallerReady (s : State σ) : Prop :=
  match s.pcs 0 with
  | .idle => s.lock = none
  | .locked _ | .ready _ => True
  | .waiting call _ => call < s.nextCall
  | .flushing _ kind _ | .flushed kind _ => s.lock = none ∧ kind ≠ .destroy

/-- A session that has not come to a standstill. -/
structure Live (s : State σ) : Prop extends Inv s, Awake s where
  caller : CallerReady s

/-- What moves neither the caller nor the lock leaves the caller ready. -/
theorem CallerReady.frame (h : CallerReady s) (hpcs : t.pcs = s.pcs) (hlock : t.lock = s.lock)
    (hnext : s.nextCall ≤ t.nextCall) : CallerReady t := by
  unfold CallerReady at h ⊢
  rw [hpcs, hlock]
  cases hpc : s.pcs 0 with
  | waiting call b =>
    rw [hpc] at h
    exact Nat.lt_of_lt_of_le h hnext
  | _ =>
    rw [hpc] at h
    exact h

/-- Every continuing step of the pipeline leaves the scheduler awake. -/
theorem Live.awake_step (h : Live s) (hcontinues : a.continues = true)
    (hstep : s.step config server a = some t) : Awake t := by
  have hawake := h.toAwake
  cases steps_of_step hstep with
  | writeLock => cases hcontinues
  | flushSchedule => cases hcontinues
  | writeWait => exact { hawake.scheduleFlush with }
  | writeFlush => exact { hawake.scheduleFlush with }
  | timer => exact hawake.scheduleFlush
  | @flushReturn thread mark ok kind hpc =>
    have hthread : thread = 0 := by simpa [Action.continues] using hcontinues
    have hcaller := h.caller
    unfold CallerReady at hcaller
    rw [← hthread, hpc] at hcaller
    cases kind with
    | destroy => exact absurd rfl hcaller.2
    | _ => cases ok <;> exact { hawake with }
  | receive hreceived hchannel => exact hawake.receive hreceived hchannel
  | handle hreceived => exact hawake.handle h.toInv hreceived
  | proceed hc =>
    exact hawake.setActive h.toInv hc (proceed_id _ _) (proceed_sending _) _ s.executed s.server
  | endCall hc => exact hawake.endCall h.toInv hc _
  | resolve hp => exact hawake.resolve hp
  | execute hc => exact hawake.setStream h.toInv hc _ _ _
  | finish hc => exact hawake.setStream h.toInv hc _ s.executed s.server
  | fail hc => exact hawake.setStream h.toInv hc _ s.executed s.server
  | lose hc => exact hawake.setStream h.toInv hc _ s.executed s.server
  | _ => exact { hawake with }

/-- Every continuing step leaves the caller ready. -/
theorem Live.caller_step (h : Live s) (hcontinues : a.continues = true)
    (hstep : s.step config server a = some t) : CallerReady t := by
  have hthread {thread : ℕ} (h : (thread == 0) = true) : thread = 0 := by simpa using h
  have hcaller := h.caller
  cases steps_of_step hstep with
  | writeLock => cases hcontinues
  | flushSchedule => cases hcontinues
  | writeWait =>
    obtain rfl := hthread hcontinues
    simp [CallerReady, State.goto, State.scheduleFlush]
  | writeFlush =>
    obtain rfl := hthread hcontinues
    simp [CallerReady]
  | writeReady =>
    obtain rfl := hthread hcontinues
    simp [CallerReady]
  | writeGet =>
    obtain rfl := hthread hcontinues
    simp [CallerReady]
  | writeAppend =>
    obtain rfl := hthread hcontinues
    simp [CallerReady, State.writeAppend, State.goto]
  | flushGet hpc =>
    obtain rfl := hthread hcontinues
    unfold CallerReady at hcaller ⊢
    rw [hpc] at hcaller
    rw [goto_pcs_self]
    exact hcaller
  | @flushReturn _ _ ok kind hpc =>
    obtain rfl := hthread hcontinues
    unfold CallerReady at hcaller ⊢
    rw [hpc] at hcaller
    rw [goto_pcs_self]
    cases kind <;> cases ok <;> exact hcaller.1
  | timer => exact hcaller.frame rfl rfl (Nat.le_succ _)
  | @handle event =>
    have hsame := handle_undisturbed (s := { s with received := none }) event
    exact hcaller.frame hsame.pcs hsame.lock (Nat.le_of_eq hsame.nextCall.symm)
  | _ => exact hcaller.frame rfl rfl (Nat.le_refl _)

/-- A session stays live in every continuing step in which no transport fails. -/
theorem Live.step (h : Live s) (hintact : a.Intact) (hcontinues : a.continues = true)
    (hstep : s.step config server a = some t) : Live t :=
  { h.toInv.step (hintact.harmless s) hstep, h.awake_step hcontinues hstep with
    caller := h.caller_step hcontinues hstep }

/-- A bound on the events before the end of a call, besides those of its blocks. -/
def CallStatus.rank : CallStatus → ℕ
  | .create => 9
  | .write => 7
  | .writesDone => 6
  | .finished => 5

/-- The work on a call in flight. A block costs a message on the wire and an event. -/
def CallData.work (c : CallData) : ℕ :=
  2 * c.blocks.length + c.stream.wire.length + c.callStatus.rank +
    if c.stream.serverDone then 0 else 1

/-- The work before all calls have ended. -/
def State.work (s : State σ) : ℕ :=
  (s.calls.map fun c => 2 * c.blocks.length + 12).sum + (s.active.map CallData.work).sum +
    2 * s.channel.length + s.received.toList.length + s.ending.length

/-- All calls have ended. -/
def State.Drained (s : State σ) : Prop := s.calls = [] ∧ s.active = [] ∧ s.ending = []

/-- Sending a request costs at most a message on the wire. -/
theorem sendBlock_work (maxBlockSize : ℕ) (c : CallData) :
    (c.sendBlock maxBlockSize).work ≤ c.work + 1 := by
  unfold CallData.sendBlock
  split
  · exact Nat.le_succ _
  · unfold Stream.write CallData.work
    split
    · exact Nat.le_succ _
    · simp only [List.length_append, List.length_singleton]
      omega

/-- Every event of a call before the last brings it closer to its end. -/
theorem proceed_work {c : CallData} (maxBlockSize : ℕ) (hunfinished : c.callStatus ≠ .finished)
    (hsending : c.callStatus = .write → 0 < c.nBlocksSent) :
    (c.proceed maxBlockSize).work < c.work := by
  unfold CallData.proceed
  cases hcase : c.callStatus with
  | create =>
    dsimp only
    split
    · simp [CallData.work, hcase, CallStatus.rank]
    · have hsend := sendBlock_work maxBlockSize { c with callStatus := .write }
      have hrank : CallData.work { c with callStatus := .write } + 2 = c.work := by
        simp only [CallData.work, hcase, CallStatus.rank]
        omega
      omega
  | write =>
    have hsent := hsending hcase
    dsimp only
    split
    · simp only [CallData.work, hcase, CallStatus.rank, List.length_drop]
      omega
    · next hne =>
      have hlength := List.length_pos_iff.mpr hne
      rw [List.length_drop] at hlength
      have hsend := sendBlock_work maxBlockSize
        { c with blocks := c.blocks.drop c.nBlocksSent, nBlocksSent := 0 }
      have hdrop : CallData.work { c with
          blocks := c.blocks.drop c.nBlocksSent, nBlocksSent := 0 } + 2 ≤ c.work := by
        simp only [CallData.work, List.length_drop]
        omega
      simp only [hcase] at hsend hdrop
      omega
  | writesDone => simp [CallData.work, hcase, CallStatus.rank]
  | finished => exact absurd hcase hunfinished

/-- Starting a queued call takes more off the queue than it adds. -/
theorem start_work {c : CallData} {calls : List CallData} (hcalls : s.calls = c :: calls)
    (hc : c = ⟨c.id, c.blocks, .create, 0, {}⟩) (hreceived : s.received ≠ none) :
    ({ s with calls, flushing := true, received := none }.start c).work < s.work := by
  obtain ⟨event, hevent⟩ := Option.ne_none_iff_exists'.mp hreceived
  have hwork : c.work = 2 * c.blocks.length + 10 := by
    rw [hc]
    rfl
  unfold State.start
  split
  · simp only [State.work, hcalls, hevent, List.map_cons, List.sum_cons, List.length_append,
      List.length_singleton, Option.toList_none, Option.toList_some, List.length_nil]
    omega
  · simp only [State.work, hcalls, hevent, hwork, List.map_cons, List.map_append, List.map_nil,
      List.sum_cons, List.sum_append, List.sum_nil, List.length_singleton, Option.toList_none,
      Option.toList_some, List.length_nil]
    omega

/-- Every turn of the scheduler brings the end closer. -/
theorem Live.handle_work (h : Live s) {event : Event} (hreceived : s.received = some event) :
    ({ s with received := none }.handle event).work < s.work := by
  have hsome : s.received ≠ none := by simp [hreceived]
  have hfirst {c : CallData} {calls : List CallData} (hcalls : s.calls = c :: calls) :
      c = ⟨c.id, c.blocks, .create, 0, {}⟩ :=
    h.queued c (by rw [hcalls]; exact List.mem_cons_self)
  cases event with
  | callEnded =>
    unfold State.handle
    dsimp only
    split
    · simp [State.work, hreceived]
    · next c calls hcalls => exact start_work hcalls (hfirst hcalls) hsome
  | flushRequest =>
    unfold State.handle
    dsimp only
    split
    · simp [State.work, hreceived]
    · next c calls hcalls =>
      split
      · simp [State.work, hreceived]
      · exact start_work hcalls (hfirst hcalls) hsome
  | terminated => exact absurd hreceived h.unstopped.2

/-- The machinery behind the caller takes a step that brings the end of all calls closer. -/
structure Advances (config : ClientConfig) (server : Server σ) (s : State σ) (a : Action)
    (t : State σ) : Prop where
  steps : Steps config server s a t
  intact : a.Intact
  continues : a.continues = true
  work : t.work < s.work
  pcs : t.pcs = s.pcs
  nextCall : t.nextCall = s.nextCall

/-- A call in flight can advance. -/
theorem Live.advances_active (h : Live s) (config : ClientConfig) (server : Server σ)
    {c : CallData} (hactive : s.active = [c]) : ∃ a t, Advances config server s a t := by
  have hmem : c ∈ s.active := by simp [hactive]
  have hget : s.active[0]? = some c := by simp [hactive]
  have hsound := h.sound c hmem
  cases hwire : c.stream.wire with
  | cons m wire =>
    have hdone : c.stream.serverDone = false := by
      cases hserver : c.stream.serverDone with
      | false => rfl
      | true =>
        have hnil := (hsound.consumed hserver).1
        rw [hwire] at hnil
        cases hnil
    refine ⟨_, _, .execute hget hwire hdone, trivial, rfl, ?_, rfl, rfl⟩
    simp [State.work, CallData.work, hactive, hwire]
  | nil =>
    by_cases hfinished : c.callStatus = .finished
    · cases hserver : c.stream.serverDone with
      | true =>
        refine ⟨.proceed 0 true, _, .endCall hget hfinished (Or.inr hserver), trivial, rfl, ?_,
          rfl, rfl⟩
        simp only [State.work, State.endCall, CallData.work, hactive, hfinished,
          CallStatus.rank, List.eraseIdx_zero, List.tail_cons, List.map_nil, List.sum_nil,
          List.map_cons, List.sum_cons, List.length_append, List.length_singleton]
        omega
      | false =>
        have hprogress := hsound.progress
        rw [hfinished] at hprogress
        refine ⟨_, _, .finish hget hwire (Or.inl hprogress.2) hserver, trivial, rfl, ?_, rfl, rfl⟩
        simp [State.work, CallData.work, hactive, hserver]
    · have hproceed := proceed_work config.blockSize hfinished (h.sending c hmem)
      refine ⟨.proceed 0 true, _, .proceed hget hfinished (Or.inl rfl), trivial, rfl, ?_, rfl, rfl⟩
      simp only [State.work, hactive, List.set_cons_zero, List.map_cons, List.map_nil,
        List.sum_cons, List.sum_nil]
      omega

/-- **No standstill.** As long as a call has not ended, the machinery can advance. -/
theorem Live.advances (h : Live s) (config : ClientConfig) (server : Server σ)
    (hbusy : ¬ s.Drained) : ∃ a t, Advances config server s a t := by
  cases hreceived : s.received with
  | some event =>
    have hsame := handle_undisturbed (s := { s with received := none }) event
    exact ⟨_, _, .handle hreceived, trivial, rfl, h.handle_work hreceived, hsame.pcs,
      hsame.nextCall⟩
  | none =>
    cases hending : s.ending with
    | cons p ending =>
      have hget : s.ending[0]? = some p := by simp [hending]
      refine ⟨_, _, .resolve hget, trivial, rfl, ?_, rfl, rfl⟩
      simp [State.work, hending]
    | nil =>
      cases hactive : s.active with
      | cons c rest =>
        have hget : s.active[0]? = some c := by simp [hactive]
        exact h.advances_active config server (h.active_eq hget).1
      | nil =>
        cases hchannel : s.channel with
        | cons event channel =>
          refine ⟨_, _, .receive hreceived hchannel h.running, trivial, rfl, ?_, rfl, rfl⟩
          simp only [State.work, hreceived, hchannel, Option.toList_none, Option.toList_some,
            List.length_nil, List.length_cons]
          omega
        | nil =>
          -- Nothing is left to wake the scheduler, so nothing is queued.
          have hcalls : s.calls ≠ [] := fun hnil => hbusy ⟨hnil, hactive, hending⟩
          rcases h.wake hcalls with hflushing | hsent | hsent
          · have hsingle := h.single
            simp [State.ends, hactive, hchannel, hreceived, hflushing] at hsingle
          · simp [hchannel] at hsent
          · simp [hreceived] at hsent

/-- The pipeline can be driven until all calls have ended. -/
theorem Live.drain (h : Live s) (config : ClientConfig) (server : Server σ) :
    ∃ actions t, Transition.run (State.step config server) s actions = some t ∧
      (∀ a ∈ actions, a.Intact ∧ a.continues = true) ∧ Live t ∧ t.Drained ∧ t.pcs = s.pcs ∧
      t.nextCall = s.nextCall := by
  induction hwork : s.work using Nat.strongRecOn generalizing s with
  | ind n ih =>
    by_cases hdrained : s.Drained
    · exact ⟨[], s, rfl, fun a ha => absurd ha List.not_mem_nil, h, hdrained, rfl, rfl⟩
    · obtain ⟨a, m, hadvances⟩ := h.advances config server hdrained
      have hstep : s.step config server a = some m := hadvances.steps.step_eq
      have hlive : Live m := h.step hadvances.intact hadvances.continues hstep
      obtain ⟨actions, t, hrun, hactions, hlive', hdrained', hpcs, hnext⟩ :=
        ih m.work (hwork ▸ hadvances.work) hlive rfl
      refine ⟨a :: actions, t, Transition.run_cons.mpr ⟨m, hstep, hrun⟩, ?_, hlive',
        hdrained', hpcs.trans hadvances.pcs, hnext.trans hadvances.nextCall⟩
      intro b hb
      rcases List.mem_cons.mp hb with rfl | hb
      · exact ⟨hadvances.intact, hadvances.continues⟩
      · exact hactions b hb

/-- When all calls have ended, every call made is resolved. -/
theorem Live.resolved_of_drained (h : Live s) (hdrained : s.Drained) {call : ℕ}
    (hcall : call < s.nextCall) : s.isResolved call = true := by
  obtain ⟨hcalls, hactive, hending⟩ := hdrained
  have hknown := h.tracked call hcall
  simp only [State.known, hcalls, hactive, hending, List.map_nil, List.nil_append,
    List.mem_map] at hknown
  obtain ⟨p, hp, rfl⟩ := hknown
  simp only [State.isResolved, List.any_eq_true, beq_iff_eq]
  exact ⟨p, hp, rfl⟩

/-- The operation in progress can return, without another being begun. -/
def Returns (config : ClientConfig) (server : Server σ) (s : State σ) : Prop :=
  ∃ actions t, Transition.run (State.step config server) s actions = some t ∧
    (∀ a ∈ actions, a.Intact ∧ a.continues = true) ∧ Live t ∧ t.pcs 0 = .idle

/-- An operation can return if it can after some steps. -/
theorem Returns.of_run {actions : List Action}
    (hrun : Transition.run (State.step config server) s actions = some t)
    (hactions : ∀ a ∈ actions, a.Intact ∧ a.continues = true) (h : Returns config server t) :
    Returns config server s := by
  obtain ⟨rest, t', hrest, hmem, hlive, hidle⟩ := h
  refine ⟨actions ++ rest, t', Transition.run_append.mpr ⟨t, hrun, hrest⟩, ?_, hlive, hidle⟩
  intro a ha
  rcases List.mem_append.mp ha with hfirst | hlast
  · exact hactions a hfirst
  · exact hmem a hlast

/-- An operation can return if it can after a step of its own. -/
theorem Live.returns_of_steps (h : Live s) (hsteps : Steps config server s a t)
    (hintact : a.Intact) (hcontinues : a.continues = true)
    (hnext : Live t → Returns config server t) : Returns config server s := by
  have hlive : Live t := h.step hintact hcontinues hsteps.step_eq
  have hrun : Transition.run (State.step config server) s [a] = some t :=
    Transition.run_cons.mpr ⟨t, hsteps.step_eq, rfl⟩
  refine (hnext hlive).of_run hrun fun b hb => ?_
  rw [List.mem_singleton.mp hb]
  exact ⟨hintact, hcontinues⟩

/-- An operation that waits for a call can return if it can once the call is resolved. -/
theorem Live.returns_of_resolved (h : Live s) {call : ℕ} (hcall : call < s.nextCall)
    (hnext : ∀ t, Live t → t.pcs = s.pcs → t.isResolved call = true → Returns config server t) :
    Returns config server s := by
  obtain ⟨actions, t, hrun, hactions, hlive, hdrained, hpcs, hcalls⟩ := h.drain config server
  have hresolved := hlive.resolved_of_drained hdrained (hcalls ▸ hcall)
  exact (hnext t hlive hpcs hresolved).of_run hrun hactions

/-- Nothing is to be done for a caller that has no operation in progress. -/
theorem Live.returns_idle (h : Live s) (hpc : s.pcs 0 = .idle) : Returns config server s :=
  ⟨[], s, rfl, fun _ ha => absurd ha List.not_mem_nil, h, hpc⟩

/-- A write that has its place in the order can return. -/
theorem Live.returns_ready (h : Live s) {b : Block} (hpc : s.pcs 0 = .ready b) :
    Returns config server s :=
  h.returns_of_steps (.writeAppend hpc) trivial rfl
    fun hlive => hlive.returns_idle (goto_pcs_self _ _ _)

/-- A write that waits for its flush can return. -/
theorem Live.returns_waiting (h : Live s) {call : ℕ} {b : Block}
    (hpc : s.pcs 0 = .waiting call b) : Returns config server s := by
  have hcall : call < s.nextCall := by
    have hcaller := h.caller
    unfold CallerReady at hcaller
    rwa [hpc] at hcaller
  refine h.returns_of_resolved hcall fun t hlive hpcs hresolved => ?_
  have hpc' : t.pcs 0 = .waiting call b := by rw [hpcs, hpc]
  exact hlive.returns_of_steps (.writeGet hpc' hresolved) trivial rfl
    fun hready => hready.returns_ready (goto_pcs_self _ _ _)

/-- A write that has the lock can return. -/
theorem Live.returns_locked (h : Live s) {b : Block} (hpc : s.pcs 0 = .locked b) :
    Returns config server s := by
  by_cases hfull : s.cacheSize > config.cacheSize
  · exact h.returns_of_steps (.writeWait hpc hfull) trivial rfl
      fun hlive => hlive.returns_waiting (goto_pcs_self _ _ _)
  · have hroom : s.cacheSize ≤ config.cacheSize := Nat.not_lt.mp hfull
    cases hover : config.overThreshold s.blocksQueueSize with
    | true =>
      exact h.returns_of_steps (.writeFlush hpc hroom hover) trivial rfl
        fun hlive => hlive.returns_ready (goto_pcs_self _ _ _)
    | false =>
      exact h.returns_of_steps (.writeReady hpc hroom hover) trivial rfl
        fun hlive => hlive.returns_ready (goto_pcs_self _ _ _)

/-- A flush that has got its result can return. -/
theorem Live.returns_flushed (h : Live s) {kind : FlushKind} {mark : ℕ}
    (hpc : s.pcs 0 = .flushed kind mark) : Returns config server s :=
  h.returns_of_steps (a := .flushReturn 0 true) (.flushReturn hpc) trivial rfl
    fun hlive => hlive.returns_idle (goto_pcs_self _ _ _)

/-- A flush that waits for its call can return. -/
theorem Live.returns_flushing (h : Live s) {call mark : ℕ} {kind : FlushKind}
    (hpc : s.pcs 0 = .flushing call kind mark) : Returns config server s := by
  have hcall : call < s.nextCall := by
    have hthread := h.threads 0
    rw [hpc] at hthread
    exact hthread.2
  refine h.returns_of_resolved hcall fun t hlive hpcs hresolved => ?_
  have hpc' : t.pcs 0 = .flushing call kind mark := by rw [hpcs, hpc]
  exact hlive.returns_of_steps (.flushGet hpc' hresolved) trivial rfl
    fun hflushed => hflushed.returns_flushed (goto_pcs_self _ _ _)

/-- **Every operation can return.** -/
theorem Live.returns (h : Live s) (config : ClientConfig) (server : Server σ) :
    Returns config server s := by
  cases hpc : s.pcs 0 with
  | idle => exact h.returns_idle hpc
  | locked b => exact h.returns_locked hpc
  | waiting call b => exact h.returns_waiting hpc
  | ready b => exact h.returns_ready hpc
  | flushing call kind mark => exact h.returns_flushing hpc
  | flushed kind mark => exact h.returns_flushed hpc

section Session

variable {stat : ℕ → Bytes → Stat} {x y : Session}

/-- A caller without an operation in progress can issue one, and the session stays live. -/
theorem Live.issue (h : Live x.core) (hpc : x.core.pcs 0 = .idle) (config : ClientConfig)
    (stat : ℕ → Bytes → Stat) (r : Request) (todo : List Request) :
    ∃ y, x.issue config stat r todo = some y ∧ Live y.core ∧ y.todo = todo := by
  have hlock : x.core.lock = none := by
    have hcaller := h.caller
    unfold CallerReady at hcaller
    rwa [hpc] at hcaller
  -- A flush begins with a call of its own.
  have hflush (kind : FlushKind) (hkind : kind ≠ .destroy) :
      ∃ core, x.core.step config fileServer (.flushSchedule 0 kind) = some core ∧ Live core := by
    have hsteps : Steps config fileServer x.core (.flushSchedule 0 kind) _ :=
      .flushSchedule hpc hlock
    have hinv := h.toInv.step (a := .flushSchedule 0 kind) trivial hsteps.step_eq
    refine ⟨_, hsteps.step_eq, { hinv, h.toAwake.scheduleFlush with caller := ?_ }⟩
    unfold CallerReady
    rw [goto_pcs_self]
    exact ⟨hlock, hkind⟩
  unfold Session.issue
  cases r with
  | write b =>
    have hsteps : Steps config fileServer x.core (.writeLock 0 b) _ := .writeLock hpc hlock
    have hinv := h.toInv.step (a := .writeLock 0 b) trivial hsteps.step_eq
    refine ⟨_, Option.map_eq_some_iff.mpr ⟨_, hsteps.step_eq, rfl⟩,
      { hinv, h.toAwake with caller := ?_ }, rfl⟩
    unfold CallerReady
    rw [goto_pcs_self]
    trivial
  | flush path fi =>
    obtain ⟨core, hstep, hlive⟩ := hflush (.flush path fi) (by simp)
    exact ⟨_, Option.map_eq_some_iff.mpr ⟨core, hstep, rfl⟩, hlive, rfl⟩
  | fsync path isdatasync fi =>
    obtain ⟨core, hstep, hlive⟩ := hflush (.fsync path isdatasync fi) (by simp)
    exact ⟨_, Option.map_eq_some_iff.mpr ⟨core, hstep, rfl⟩, hlive, rfl⟩
  | _ =>
    refine ⟨_, rfl, { h.toInv.withServer _, h.toAwake with caller := ?_ }, rfl⟩
    exact h.caller.frame rfl rfl (Nat.le_refl _)

/-- Every step of a session leaves it live. -/
theorem Live.session_step (h : Live x.core) {b : SessionAction} (hintact : b.Intact)
    (hstep : x.step config stat b = some y) : Live y.core := by
  cases b with
  | issue =>
    simp only [Session.step] at hstep
    split at hstep
    · next r todo htodo =>
      split at hstep
      · next hpc =>
        obtain ⟨z, hissue, hlive, -⟩ := h.issue hpc config stat r todo
        obtain rfl := Option.some.inj (hissue.symm.trans hstep)
        exact hlive
      · cases hstep
    · cases hstep
  | pipeline a =>
    simp only [Session.step] at hstep
    split at hstep
    · next hcontinues =>
      obtain ⟨core, hcore, rfl⟩ := Option.map_eq_some_iff.mp hstep
      exact h.step hintact hcontinues hcore
    · cases hstep

/-- The caller's operation in progress can return. -/
theorem Live.session_returns (h : Live x.core) (config : ClientConfig)
    (stat : ℕ → Bytes → Stat) :
    ∃ actions core, Transition.run (Session.step config stat) x actions = some { x with core } ∧
      (∀ b ∈ actions, b.Intact) ∧ Live core ∧ core.pcs 0 = .idle := by
  obtain ⟨actions, core, hrun, hactions, hlive, hidle⟩ := h.returns config fileServer
  have hstep (m : State FileTable) (a : Action) (m' : State FileTable)
      (hok : a.Intact ∧ a.continues = true) (h : m.step config fileServer a = some m') :
      Session.step config stat { x with core := m } (.pipeline a) = some { x with core := m' } := by
    simp [Session.step, hok.2, h]
  have hlift := Transition.run_lift (fun core => { x with core }) SessionAction.pipeline hstep hrun
    hactions
  refine ⟨actions.map .pipeline, core, hlift, ?_, hlive, hidle⟩
  intro b hb
  obtain ⟨a, ha, rfl⟩ := List.mem_map.mp hb
  exact (hactions a ha).1

/-- **Every session can be completed.** -/
theorem Live.session_completes (h : Live x.core) (config : ClientConfig)
    (stat : ℕ → Bytes → Stat) :
    ∃ actions y, Transition.run (Session.step config stat) x actions = some y ∧
      (∀ b ∈ actions, b.Intact) ∧ y.todo = [] ∧ y.core.pcs 0 = .idle := by
  induction htodo : x.todo generalizing x with
  | nil =>
    obtain ⟨actions, core, hrun, hactions, -, hidle⟩ := h.session_returns config stat
    exact ⟨actions, _, hrun, hactions, htodo, hidle⟩
  | cons r todo ih =>
    obtain ⟨actions, core, hrun, hactions, hlive, hidle⟩ := h.session_returns config stat
    obtain ⟨y, hissue, hlive', htodo'⟩ :=
      Live.issue (x := { x with core }) hlive hidle config stat r todo
    obtain ⟨rest, z, hrest, hmem, hempty, hidle'⟩ := ih hlive' htodo'
    have hstep : Session.step config stat { x with core } .issue = some y := by
      simp only [Session.step, htodo, hidle, if_true]
      exact hissue
    refine ⟨actions ++ .issue :: rest, z, ?_, ?_, hempty, hidle'⟩
    · exact Transition.run_append.mpr ⟨_, hrun, Transition.run_cons.mpr ⟨y, hstep, hrest⟩⟩
    · intro b hb
      rcases List.mem_append.mp hb with hfirst | hlast
      · exact hactions b hfirst
      rcases List.mem_cons.mp hlast with rfl | hlast
      · trivial
      · exact hmem b hlast

/-- The start of a session is live. -/
theorem live_initial (w : FileTable) : Live (State.initial w) :=
  { inv_initial w, awake_initial w with caller := rfl }

end Session

end RSafeFS.AsyncClient
