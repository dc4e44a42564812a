import RSafeFS.AsyncClient.WriteBehind

/-!
# The scheduler of the write-behind client

What the scheduler keeps in every run, also in one in which streams fail: one call is in
flight at a time, calls are started in the order of their making, and a queued call never
waits without an event that will have it started. After the last flush of the destructor
nothing is left to be sent when the scheduler ends.
-/

namespace RSafeFS.AsyncClient

variable {σ : Type} {config : ClientConfig} {server : Server σ} {s t : State σ} {a : Action}

/-- The calls in flight and those queued have the last numbers given, in their order, and the
calls that have ended have earlier ones. -/
def InOrder (s : State σ) : Prop :=
  ∃ first, first ≤ s.nextCall ∧
    (s.active ++ s.calls).map CallData.id = List.range' first (s.nextCall - first) ∧
    ∀ p ∈ s.ending ++ s.promises, p.1 < first

/-- The flag `flushing` accounts for the call in flight until its end is handled, and an
event that starts a call is on its way while calls are queued. -/
structure Serial (s : State σ) : Prop where
  single : s.active.length + s.ends = if s.flushing then 1 else 0
  wake : s.calls ≠ [] → s.flushing = true ∨ .flushRequest ∈ s.channel ∨
    s.received = some .flushRequest
  inOrder : InOrder s

/-- The start of a run. -/
theorem serial_initial (w : σ) : Serial (State.initial w) where
  single := rfl
  wake h := absurd rfl h
  inOrder := ⟨0, Nat.le_refl 0, rfl, fun _ hp => absurd hp List.not_mem_nil⟩

/-- Without the first, the numbers left begin one later. -/
theorem tail_range' {first next id : ℕ} {ids : List ℕ}
    (h : id :: ids = List.range' first (next - first)) :
    id = first ∧ first < next ∧ ids = List.range' (first + 1) (next - (first + 1)) := by
  cases hn : next - first with
  | zero => simp [hn] at h
  | succ n =>
    rw [hn, List.range'_succ, List.cons.injEq] at h
    obtain rfl : n = next - (first + 1) := by omega
    exact ⟨h.1, by omega, h.2⟩

theorem Serial.active_eq (h : Serial s) {i : ℕ} {c : CallData} (hc : s.active[i]? = some c) :
    s.active = [c] ∧ i = 0 ∧ s.flushing = true ∧ s.ends = 0 := active_eq_of_single h.single hc

/-- A scheduled call gets the next number, and its request wakes the scheduler. -/
theorem Serial.scheduleFlush (h : Serial s) : Serial s.scheduleFlush := by
  obtain ⟨first, hle, hids, hended⟩ := h.inOrder
  have hcount : (s.channel ++ [Event.flushRequest]).count .callEnded =
      s.channel.count .callEnded := by
    simp
  have hends : s.scheduleFlush.ends = s.ends := congrArg (· + _) hcount
  refine ⟨?_, fun _ => Or.inr (Or.inl (by simp [State.scheduleFlush])), first, ?_, ?_, hended⟩
  · rw [hends]
    exact h.single
  · exact Nat.le_succ_of_le hle
  · have hlast : s.nextCall + 1 - first = s.nextCall - first + 1 := by omega
    simp only [State.scheduleFlush, List.map_append, List.map_cons, List.map_nil] at hids ⊢
    rw [← List.append_assoc, hids, hlast, List.range'_concat]
    congr 2
    omega

/-- Events that are neither an end nor a request can come and go. -/
theorem Serial.signal (h : Serial s) {channel : List Event} {received : Option Event}
    (hends : State.ends { s with channel, received } = s.ends)
    (hwake : (.flushRequest ∈ s.channel ∨ s.received = some .flushRequest) →
      .flushRequest ∈ channel ∨ received = some .flushRequest) (terminated : Bool) :
    Serial { s with channel, received, terminated } := by
  refine ⟨?_, fun hcalls => (h.wake hcalls).imp_right hwake, h.inOrder⟩
  rw [show State.ends { s with channel, received, terminated } = s.ends from hends]
  exact h.single

/-- The scheduler starts the first queued call when none is in flight. -/
theorem InOrder.start (h : InOrder s) (hactive : s.active = []) (hends : s.ends = 0) {c : CallData}
    {calls : List CallData} (hcalls : s.calls = c :: calls) :
    Serial ({ s with calls, flushing := true }.start c) := by
  obtain ⟨first, hle, hids, hended⟩ := h
  rw [hactive, hcalls, List.nil_append, List.map_cons] at hids
  unfold State.start
  split
  · -- The call ends at once, and the numbers left begin behind it.
    obtain ⟨hfirst, hlt, hrest⟩ := tail_range' hids
    refine ⟨?_, fun _ => Or.inl rfl, first + 1, hlt, ?_, ?_⟩
    · simp only [State.ends, hactive, List.count_append, List.length_nil] at hends ⊢
      simp only [List.count_singleton_self, if_true]
      omega
    · rw [hactive]
      exact hrest
    · intro p hp
      simp only [List.mem_append, List.mem_singleton] at hp
      rcases hp with hp | hp | rfl
      · exact Nat.lt_succ_of_lt (hended p (List.mem_append_left _ hp))
      · exact Nat.lt_succ_of_lt (hended p (List.mem_append_right _ hp))
      · rw [hfirst]
        exact Nat.lt_succ_self _
  · refine ⟨?_, fun _ => Or.inl rfl, first, hle, ?_, hended⟩
    · simp only [State.ends, hactive, List.nil_append, List.length_singleton, if_true] at hends ⊢
      omega
    · simpa only [hactive, List.nil_append, List.cons_append, List.map_cons] using hids

/-- Every turn of the scheduler keeps the order. -/
theorem Serial.handle (h : Serial s) {event : Event} (hreceived : s.received = some event) :
    Serial ({ s with received := none }.handle event) := by
  cases event with
  | callEnded =>
    obtain ⟨hactive, hcount⟩ := active_eq_nil_of_callEnded h.single hreceived
    unfold State.handle
    dsimp only
    split
    · next hcalls =>
      exact { h with
        single := by simp [State.ends, hactive, hcount]
        wake := fun hne => absurd hcalls hne }
    · next c calls hcalls =>
      -- The end that is handled was the last one.
      have hends : State.ends { s with received := none } = 0 := by simp [State.ends, hcount]
      exact InOrder.start (s := { s with received := none }) h.inOrder hactive hends hcalls
  | flushRequest =>
    have hends : State.ends { s with received := none } = s.ends := by
      simp [State.ends, hreceived]
    have hsingle := h.single
    rw [← hends] at hsingle
    unfold State.handle
    dsimp only
    split
    · next hcalls => exact ⟨hsingle, fun hne => absurd hcalls hne, h.inOrder⟩
    · next c calls hcalls =>
      split
      · next hflushing => exact ⟨hsingle, fun _ => Or.inl hflushing, h.inOrder⟩
      · next hflushing =>
        rw [if_neg hflushing] at hsingle
        obtain ⟨hactive, hnone⟩ := Nat.add_eq_zero_iff.mp hsingle
        exact InOrder.start (s := { s with received := none }) h.inOrder
          (List.length_eq_zero_iff.mp hactive) hnone hcalls
  | terminated =>
    have hends : State.ends { s with received := none } = s.ends := by
      simp [State.ends, hreceived]
    have hsent : State.ends { s with channel := s.channel ++ [.terminated], received := none } =
        s.ends := by
      simp [State.ends, hreceived]
    have hrequest : ¬ s.received = some .flushRequest := by simp [hreceived]
    unfold State.handle
    dsimp only
    split
    · exact h.signal hends (fun hwake => Or.inl (hwake.resolve_right hrequest)) true
    · refine h.signal hsent (fun hwake => Or.inl ?_) s.terminated
      exact List.mem_append_left _ (hwake.resolve_right hrequest)

/-- A call in flight can change to one with its number. -/
theorem Serial.setActive (h : Serial s) {i : ℕ} {c d : CallData} (hc : s.active[i]? = some c)
    (hid : d.id = c.id) (cacheSize : ℕ) (executed : List (Message × ℤ)) (w : σ) :
    Serial { s with active := s.active.set i d, cacheSize, executed, server := w } := by
  obtain ⟨hactive, rfl, -, -⟩ := h.active_eq hc
  obtain ⟨first, hle, hids, hended⟩ := h.inOrder
  refine ⟨?_, h.wake, first, hle, ?_, hended⟩
  · have hsingle := h.single
    simpa only [State.ends, List.length_set] using hsingle
  · simpa only [hactive, List.set_cons_zero, List.cons_append, List.map_cons, hid] using hids

/-- The call that ends is the first of those left. -/
theorem Serial.endCall (h : Serial s) {i : ℕ} {c : CallData} (hc : s.active[i]? = some c)
    (status : Bool) : Serial (s.endCall i c status) := by
  obtain ⟨hactive, rfl, hflushing, hends⟩ := h.active_eq hc
  obtain ⟨first, hle, hids, hended⟩ := h.inOrder
  rw [hactive, List.cons_append, List.nil_append, List.map_cons] at hids
  obtain ⟨hfirst, hlt, hrest⟩ := tail_range' hids
  refine ⟨?_, fun _ => Or.inl hflushing, first + 1, hlt, ?_, ?_⟩
  · simp only [State.ends, State.endCall, hactive, hflushing, List.count_append,
      List.count_singleton_self] at hends ⊢
    simp only [List.eraseIdx_zero, List.tail_cons, List.length_nil, if_true]
    omega
  · simp only [State.endCall, hactive, List.eraseIdx_zero, List.tail_cons, List.nil_append]
    exact hrest
  · intro p hp
    simp only [State.endCall, List.mem_append, List.mem_singleton] at hp
    rcases hp with (hp | rfl) | hp
    · exact Nat.lt_succ_of_lt (hended p (List.mem_append_left _ hp))
    · rw [hfirst]
      exact Nat.lt_succ_self _
    · exact Nat.lt_succ_of_lt (hended p (List.mem_append_right _ hp))

/-- Setting a promise keeps the order. -/
theorem Serial.resolve (h : Serial s) {i : ℕ} {p : ℕ × Bool} (hp : s.ending[i]? = some p) :
    Serial { s with ending := s.ending.eraseIdx i, promises := s.promises ++ [p] } := by
  obtain ⟨first, hle, hids, hended⟩ := h.inOrder
  refine ⟨h.single, h.wake, first, hle, hids, fun q hq => hended q ?_⟩
  simp only [List.mem_append, List.mem_singleton] at hq ⊢
  rcases hq with hq | hq | rfl
  · exact Or.inl (List.mem_of_mem_eraseIdx hq)
  · exact Or.inr hq
  · exact Or.inl (List.mem_of_getElem? hp)

/-- What follows a completed flush keeps the order. -/
theorem Serial.finishFlush (h : Serial s) (server : Server σ) (ok : Bool) (kind : FlushKind) :
    Serial (s.finishFlush server ok kind).2 := by
  cases kind with
  | destroy =>
    have hends : State.ends { s with channel := s.channel ++ [.terminated] } = s.ends := by
      simp [State.ends]
    refine h.signal hends (fun hwake => ?_) s.terminated
    exact hwake.imp_left (List.mem_append_left _)
  | _ => cases ok <;> exact ⟨h.single, h.wake, h.inOrder⟩

/-- **Every step keeps the order**, whatever happens to the streams. -/
theorem Serial.step (h : Serial s) (hstep : s.step config server a = some t) : Serial t := by
  cases steps_of_step hstep with
  | writeWait =>
    obtain ⟨hsingle, hwake, hinOrder⟩ := h.scheduleFlush
    exact ⟨hsingle, hwake, hinOrder⟩
  | writeFlush =>
    obtain ⟨hsingle, hwake, hinOrder⟩ := h.scheduleFlush
    exact ⟨hsingle, hwake, hinOrder⟩
  | flushSchedule =>
    obtain ⟨hsingle, hwake, hinOrder⟩ := h.scheduleFlush
    exact ⟨hsingle, hwake, hinOrder⟩
  | timer => exact h.scheduleFlush
  | @flushReturn thread mark ok kind =>
    obtain ⟨hsingle, hwake, hinOrder⟩ := h.finishFlush server ok kind
    exact ⟨hsingle, hwake, hinOrder⟩
  | @receive event channel hreceived hchannel =>
    refine h.signal ?_ (fun hwake => ?_) s.terminated
    · cases event <;> simp [State.ends, hreceived, hchannel]
    · rw [hchannel, List.mem_cons, hreceived] at hwake
      rcases hwake with (rfl | hrest) | hnone
      · exact Or.inr rfl
      · exact Or.inl hrest
      · cases hnone
  | handle hreceived => exact h.handle hreceived
  | proceed hc => exact h.setActive hc (proceed_id _ _) _ s.executed s.server
  | endCall hc => exact h.endCall hc _
  | resolve hp => exact h.resolve hp
  | @execute i c m wire hc =>
    exact h.setActive (d := { c with stream := { c.stream with wire } }) hc rfl s.cacheSize _ _
  | @finish i c hc =>
    exact h.setActive (d := { c with stream := { c.stream with serverDone := true } }) hc rfl
      s.cacheSize s.executed s.server
  | @fail i c hc =>
    exact h.setActive (d := { c with stream := { c.stream with broken := true } }) hc rfl
      s.cacheSize s.executed s.server
  | @lose i c hc =>
    exact h.setActive (d := { c with stream := { c.stream with wire := [] } }) hc rfl
      s.cacheSize s.executed s.server
  | _ => exact ⟨h.single, h.wake, h.inOrder⟩

/-- The call whose `start` the step calls. -/
def State.starts (s : State σ) : Action → List ℕ
  | .handle =>
    match s.received, s.calls with
    | some .callEnded, c :: _ => [c.id]
    | some .flushRequest, c :: _ => if s.flushing then [] else [c.id]
    | _, _ => []
  | _ => []

/-- The calls that a run starts, in the order in which it does. -/
def startedIn (config : ClientConfig) (server : Server σ) : State σ → List Action → List ℕ
  | _, [] => []
  | s, a :: as =>
    s.starts a ++ match s.step config server a with
      | none => []
      | some t => startedIn config server t as

/-- Starting a call leaves the queue as it is. -/
theorem start_calls (s : State σ) (c : CallData) :
    (s.start c).calls = s.calls ∧ (s.start c).nextCall = s.nextCall := by
  unfold State.start
  split <;> exact ⟨rfl, rfl⟩

/-- What a turn of the scheduler takes from the queue, it starts. -/
theorem handle_calls {event : Event} (hreceived : s.received = some event) :
    s.calls.map CallData.id =
        s.starts .handle ++ ({ s with received := none }.handle event).calls.map CallData.id ∧
      ({ s with received := none }.handle event).nextCall = s.nextCall := by
  cases event with
  | callEnded =>
    cases hcalls : s.calls with
    | nil => simp [State.starts, State.handle, hreceived, hcalls]
    | cons c calls => simp [State.starts, State.handle, hreceived, hcalls, start_calls]
  | flushRequest =>
    cases hcalls : s.calls with
    | nil => simp [State.starts, State.handle, hreceived, hcalls]
    | cons c calls =>
      cases hflushing : s.flushing with
      | true => simp [State.starts, State.handle, hreceived, hcalls, hflushing]
      | false => simp [State.starts, State.handle, hreceived, hcalls, hflushing, start_calls]
  | terminated =>
    have hstarts : s.starts .handle = [] := by
      simp [State.starts, hreceived]
    rw [hstarts]
    unfold State.handle
    dsimp only
    split <;> exact ⟨rfl, rfl⟩

/-- A step starts calls from the front of the queue and makes calls at its end. -/
theorem starts_step (hstep : s.step config server a = some t) :
    ∃ n, t.nextCall = s.nextCall + n ∧
      s.calls.map CallData.id ++ List.range' s.nextCall n =
        s.starts a ++ t.calls.map CallData.id := by
  have hmade : s.scheduleFlush.calls.map CallData.id =
      s.calls.map CallData.id ++ List.range' s.nextCall 1 := by
    simp [State.scheduleFlush]
  cases steps_of_step hstep with
  | writeWait => exact ⟨1, rfl, hmade.symm⟩
  | writeFlush => exact ⟨1, rfl, hmade.symm⟩
  | flushSchedule => exact ⟨1, rfl, hmade.symm⟩
  | timer => exact ⟨1, rfl, hmade.symm⟩
  | @flushReturn thread mark ok kind =>
    refine ⟨0, ?_, ?_⟩ <;> cases kind <;> cases ok <;>
      simp [State.starts, State.finishFlush, State.goto]
  | handle hreceived =>
    obtain ⟨hcalls, hnext⟩ := handle_calls hreceived
    refine ⟨0, hnext, ?_⟩
    rw [List.range'_zero, List.append_nil]
    exact hcalls
  | _ => exact ⟨0, rfl, List.append_nil _⟩

/-- The calls queued before a run and those made in it are started by it or queued after it,
in this order. -/
theorem startedIn_run {actions : List Action}
    (hrun : Transition.run (State.step config server) s actions = some t) :
    ∃ n, t.nextCall = s.nextCall + n ∧
      s.calls.map CallData.id ++ List.range' s.nextCall n =
        startedIn config server s actions ++ t.calls.map CallData.id := by
  induction actions generalizing s with
  | nil =>
    obtain rfl := Option.some.inj hrun
    exact ⟨0, rfl, List.append_nil _⟩
  | cons a actions ih =>
    obtain ⟨m, hm, hrest⟩ := Transition.run_cons.mp hrun
    obtain ⟨n, hnext, hcalls⟩ := starts_step hm
    obtain ⟨k, hnext', hcalls'⟩ := ih hrest
    refine ⟨n + k, by omega, ?_⟩
    simp only [startedIn, hm, List.append_assoc]
    rw [← hcalls', ← List.append_assoc, ← hcalls, List.append_assoc, hnext, ← List.range'_append_1]

/-- Nothing is left to be sent but what the calls with earlier numbers hold. -/
structure Cleared (number : ℕ) (s : State σ) : Prop where
  blocks : s.blocks = []
  active : ∀ c ∈ s.active, c.id < number
  calls : ∀ c ∈ s.calls, number ≤ c.id → c.blocks = []

/-- A call made when there is nothing to send is empty. -/
theorem Cleared.scheduleFlush {number : ℕ} (h : Cleared number s) :
    Cleared number s.scheduleFlush := by
  refine ⟨rfl, h.active, fun c hc hnumber => ?_⟩
  simp only [State.scheduleFlush, List.mem_append, List.mem_singleton] at hc
  rcases hc with hold | rfl
  · exact h.calls c hold hnumber
  · exact h.blocks

/-- An empty call is not in flight after its start. -/
theorem Cleared.start {number : ℕ} (h : Cleared number s) {c : CallData} {calls : List CallData}
    (hcalls : s.calls = c :: calls) :
    Cleared number ({ s with calls, flushing := true }.start c) := by
  have hrest : ∀ d ∈ calls, number ≤ d.id → d.blocks = [] :=
    fun d hd => h.calls d (by rw [hcalls]; exact List.mem_cons_of_mem c hd)
  unfold State.start
  split
  · exact ⟨h.blocks, h.active, hrest⟩
  · next hne =>
    refine ⟨h.blocks, fun d hd => ?_, hrest⟩
    rcases List.mem_append.mp hd with hold | hnew
    · exact h.active d hold
    · rw [List.mem_singleton.mp hnew]
      by_contra hnumber
      exact hne (h.calls c (by rw [hcalls]; exact List.mem_cons_self) (Nat.not_lt.mp hnumber))

/-- Every turn of the scheduler leaves a cleared client cleared. -/
theorem Cleared.handle {number : ℕ} (h : Cleared number s) (event : Event) :
    Cleared number (s.handle event) := by
  cases event with
  | callEnded =>
    unfold State.handle
    dsimp only
    split
    · exact ⟨h.blocks, h.active, h.calls⟩
    · next c calls hcalls => exact h.start hcalls
  | flushRequest =>
    unfold State.handle
    dsimp only
    split
    · exact h
    · next c calls hcalls =>
      split
      · exact h
      · exact h.start hcalls
  | terminated =>
    unfold State.handle
    dsimp only
    split <;> exact ⟨h.blocks, h.active, h.calls⟩

/-- A call in flight can change to one with its number. -/
theorem Cleared.setActive {number : ℕ} (h : Cleared number s) {i : ℕ} {c d : CallData}
    (hc : s.active[i]? = some c) (hid : d.id = c.id) :
    ∀ e ∈ s.active.set i d, e.id < number := by
  intro e he
  rcases List.mem_or_eq_of_mem_set he with hold | rfl
  · exact h.active e hold
  · rw [hid]
    exact h.active c (List.mem_of_getElem? hc)

/-- Every step but an append leaves a cleared client cleared. -/
theorem Cleared.step {number : ℕ} (h : Cleared number s)
    (happend : ∀ thread, a ≠ .writeAppend thread) (hstep : s.step config server a = some t) :
    Cleared number t := by
  cases steps_of_step hstep with
  | writeAppend => exact absurd rfl (happend _)
  | writeWait => exact ⟨h.scheduleFlush.blocks, h.scheduleFlush.active, h.scheduleFlush.calls⟩
  | writeFlush => exact ⟨h.scheduleFlush.blocks, h.scheduleFlush.active, h.scheduleFlush.calls⟩
  | flushSchedule => exact ⟨h.scheduleFlush.blocks, h.scheduleFlush.active, h.scheduleFlush.calls⟩
  | timer => exact h.scheduleFlush
  | @flushReturn thread mark ok kind =>
    cases kind <;> cases ok <;> exact ⟨h.blocks, h.active, h.calls⟩
  | @handle event =>
    have hreceived : Cleared number { s with received := none } := ⟨h.blocks, h.active, h.calls⟩
    exact hreceived.handle event
  | proceed hc => exact ⟨h.blocks, h.setActive hc (proceed_id _ _), h.calls⟩
  | endCall => exact ⟨h.blocks, fun c hc => h.active c (List.mem_of_mem_eraseIdx hc), h.calls⟩
  | execute hc => exact ⟨h.blocks, h.setActive hc rfl, h.calls⟩
  | finish hc => exact ⟨h.blocks, h.setActive hc rfl, h.calls⟩
  | fail hc => exact ⟨h.blocks, h.setActive hc rfl, h.calls⟩
  | lose hc => exact ⟨h.blocks, h.setActive hc rfl, h.calls⟩
  | _ => exact ⟨h.blocks, h.active, h.calls⟩

/-- How far the destructor has come: it waits for its last flush, has got it, or has told the
scheduler to end. The number is that of the first call behind those it has to wait for. -/
inductive Destroying (s : State σ) : ℕ → Prop
  | flushing {thread call mark : ℕ} (hpc : s.pcs thread = .flushing call .destroy mark) :
      Destroying s (call + 1)
  | flushed {thread mark : ℕ} (hpc : s.pcs thread = .flushed .destroy mark) : Destroying s 0
  | sent (hsent : .terminated ∈ s.channel) : Destroying s 0
  | received (hreceived : s.received = some .terminated) : Destroying s 0
  | terminated (hterminated : s.terminated = true) : Destroying s 0

/-- A thread is where it was, or where it was moved to. -/
theorem pcs_of_goto {thread other : ℕ} {pc pc' : Pc} (h : (s.goto thread pc).pcs other = pc') :
    (other = thread ∧ pc' = pc) ∨ s.pcs other = pc' := by
  by_cases heq : other = thread
  · subst heq
    rw [goto_pcs_self] at h
    exact Or.inl ⟨rfl, h.symm⟩
  · have hsame : (s.goto thread pc).pcs other = s.pcs other := Function.update_of_ne heq _ _
    exact Or.inr (hsame.symm.trans h)

/-- The place of a destructor that waits for its last flush or has got it. -/
def Pc.Destroys : Pc → Prop
  | .flushing _ .destroy _ | .flushed .destroy _ => True
  | _ => False

/-- A destructor is where it was, or has just scheduled its last flush, or has waited for a
call that is resolved. -/
theorem pcs_destroys {thread : ℕ} {pc : Pc} (hstep : s.step config server a = some t)
    (hpc : t.pcs thread = pc) (hdestroys : pc.Destroys) :
    s.pcs thread = pc ∨
      (a = .flushSchedule thread .destroy ∧ ∃ mark, pc = .flushing s.nextCall .destroy mark) ∨
      ∃ call mark, s.pcs thread = .flushing call .destroy mark ∧ s.isResolved call = true ∧
        pc = .flushed .destroy mark := by
  have hmoved {thread' : ℕ} {pc' : Pc} {u : State σ} (hu : (u.goto thread' pc').pcs thread = pc)
      (hsame : u.pcs = s.pcs) (hnot : ¬ pc'.Destroys) : s.pcs thread = pc := by
    rcases pcs_of_goto hu with ⟨-, rfl⟩ | hold
    · exact absurd hdestroys hnot
    · rw [← hsame]
      exact hold
  cases steps_of_step hstep with
  | writeLock => exact Or.inl (hmoved hpc rfl id)
  | writeWait => exact Or.inl (hmoved hpc rfl id)
  | writeFlush => exact Or.inl (hmoved hpc rfl id)
  | writeReady => exact Or.inl (hmoved hpc rfl id)
  | writeGet => exact Or.inl (hmoved hpc rfl id)
  | writeAppend => exact Or.inl (hmoved hpc rfl id)
  | @flushSchedule thread' kind =>
    rcases pcs_of_goto hpc with ⟨rfl, rfl⟩ | hold
    · cases kind with
      | destroy => exact Or.inr (Or.inl ⟨rfl, _, rfl⟩)
      | _ => exact hdestroys.elim
    · exact Or.inl hold
  | @flushGet _ call mark kind hold hresolved =>
    rcases pcs_of_goto hpc with ⟨rfl, rfl⟩ | hsame
    · cases kind with
      | destroy => exact Or.inr (Or.inr ⟨call, mark, hold, hresolved, rfl⟩)
      | _ => exact hdestroys.elim
    · exact Or.inl hsame
  | @flushReturn _ _ ok kind =>
    refine Or.inl (hmoved hpc ?_ id)
    cases kind <;> cases ok <;> rfl
  | @handle event =>
    rw [(handle_undisturbed event).pcs] at hpc
    exact Or.inl hpc
  | _ => exact Or.inl hpc

/-- A turn of the scheduler receives nothing. -/
theorem handle_received (s : State σ) (event : Event) : (s.handle event).received = s.received := by
  have hstart (u : State σ) (c : CallData) : (u.start c).received = u.received := by
    unfold State.start
    split <;> rfl
  unfold State.handle
  split
  · split
    · rfl
    · exact hstart _ _
  · split
    · rfl
    · split
      · rfl
      · exact hstart _ _
  · split <;> rfl

/-- A turn of the scheduler sends or believes an end of the client only if it received one. -/
theorem handle_terminated {event : Event}
    (h : .terminated ∈ (s.handle event).channel ∨ (s.handle event).terminated = true) :
    .terminated ∈ s.channel ∨ s.terminated = true ∨ event = .terminated := by
  have hstart (calls : List CallData) (c : CallData)
      (hc : .terminated ∈ ({ s with calls, flushing := true }.start c).channel ∨
        ({ s with calls, flushing := true }.start c).terminated = true) :
      .terminated ∈ s.channel ∨ s.terminated = true ∨ event = .terminated := by
    unfold State.start at hc
    split at hc
    · simp only [List.mem_append, List.mem_singleton, reduceCtorEq, or_false] at hc
      exact hc.imp_right Or.inl
    · exact hc.imp_right Or.inl
  cases event with
  | callEnded =>
    unfold State.handle at h
    dsimp only at h
    split at h
    · exact h.imp_right Or.inl
    · exact hstart _ _ h
  | flushRequest =>
    unfold State.handle at h
    dsimp only at h
    split at h
    · exact h.imp_right Or.inl
    · split at h
      · exact h.imp_right Or.inl
      · exact hstart _ _ h
  | terminated => exact Or.inr (Or.inr rfl)

/-- The scheduler is told to end only by a destructor that has got its last flush. -/
theorem terminated_step (hstep : s.step config server a = some t)
    (h : .terminated ∈ t.channel ∨ t.received = some .terminated ∨ t.terminated = true) :
    Destroying s 0 := by
  have hsame (hs : .terminated ∈ s.channel ∨ s.received = some .terminated ∨
      s.terminated = true) : Destroying s 0 :=
    hs.elim .sent fun hs => hs.elim .received .terminated
  have hmade (ht : .terminated ∈ s.scheduleFlush.channel ∨ s.received = some .terminated ∨
      s.terminated = true) : Destroying s 0 := by
    simp only [State.scheduleFlush, List.mem_append, List.mem_singleton, reduceCtorEq,
      or_false] at ht
    exact hsame ht
  cases steps_of_step hstep with
  | writeWait => exact hmade h
  | writeFlush => exact hmade h
  | flushSchedule => exact hmade h
  | timer => exact hmade h
  | @flushReturn _ _ ok kind hpc =>
    cases kind with
    | destroy => exact .flushed hpc
    | _ => cases ok <;> exact hsame h
  | @receive event channel hreceived hchannel =>
    refine hsame ?_
    rw [hchannel, List.mem_cons]
    rcases h with hrest | hevent | hterminated
    · exact Or.inl (Or.inr hrest)
    · exact Or.inl (Or.inl (Option.some.inj hevent).symm)
    · exact Or.inr (Or.inr hterminated)
  | @handle event hreceived =>
    rcases h with hsent | hnow | hterminated
    · rcases handle_terminated (Or.inl hsent) with h | h | rfl
      · exact .sent h
      · exact .terminated h
      · exact .received hreceived
    · rw [handle_received] at hnow
      cases hnow
    · rcases handle_terminated (Or.inr hterminated) with h | h | rfl
      · exact .sent h
      · exact .terminated h
      · exact .received hreceived
  | endCall =>
    simp only [State.endCall, List.mem_append, List.mem_singleton, reduceCtorEq, or_false] at h
    exact hsame h
  | _ => exact hsame h

/-- The client is cleared as far as the destructor has come. -/
def Closing (s : State σ) : Prop := ∀ number, Destroying s number → Cleared number s

/-- A call that has ended leaves no call before it. -/
theorem InOrder.lt_of_isResolved (h : InOrder s) {call : ℕ} (hresolved : s.isResolved call = true) :
    ∀ c ∈ s.active ++ s.calls, call < c.id := by
  obtain ⟨first, -, hids, hended⟩ := h
  simp only [State.isResolved, List.any_eq_true, beq_iff_eq] at hresolved
  obtain ⟨p, hp, rfl⟩ := hresolved
  intro c hc
  have hmem : c.id ∈ List.range' first (s.nextCall - first) := hids ▸ List.mem_map_of_mem hc
  exact Nat.lt_of_lt_of_le (hended p (List.mem_append_right _ hp)) (List.mem_range'_1.mp hmem).1

/-- Numbers of calls are below the next one. -/
theorem InOrder.lt_nextCall (h : InOrder s) : ∀ c ∈ s.active ++ s.calls, c.id < s.nextCall := by
  obtain ⟨first, hle, hids, -⟩ := h
  intro c hc
  have hmem : c.id ∈ List.range' first (s.nextCall - first) := hids ▸ List.mem_map_of_mem hc
  have hlt := (List.mem_range'_1.mp hmem).2
  omega

/-- When the last flush has ended, nothing is left. -/
theorem Cleared.resolved {call : ℕ} (h : Cleared (call + 1) s) (hserial : Serial s)
    (hresolved : s.isResolved call = true) : Cleared 0 s := by
  have hlt := hserial.inOrder.lt_of_isResolved hresolved
  refine ⟨h.blocks, fun c hc => ?_, fun c hc _ => ?_⟩
  · have hactive := h.active c hc
    have hcall := hlt c (List.mem_append_left _ hc)
    omega
  · exact h.calls c hc (hlt c (List.mem_append_right _ hc))

/-- A call that takes all blocks leaves the client cleared behind it. -/
theorem InOrder.cleared_scheduleFlush (h : InOrder s) :
    Cleared (s.nextCall + 1) s.scheduleFlush := by
  have hlt := h.lt_nextCall
  refine ⟨rfl, fun c hc => ?_, fun c hc hle => ?_⟩
  · exact Nat.lt_succ_of_lt (hlt c (List.mem_append_left _ hc))
  · simp only [State.scheduleFlush, List.mem_append, List.mem_singleton] at hc
    rcases hc with hold | rfl
    · have hc := hlt c (List.mem_append_right _ hold)
      omega
    · exact absurd hle (Nat.not_succ_le_self _)

/-- Every step keeps the client cleared as far as the destructor has come, as long as no
write is appended behind its last flush. -/
theorem Closing.step (h : Closing s) (hserial : Serial s)
    (happend : ∀ thread, a = .writeAppend thread → ∀ number, ¬ Destroying s number)
    (hstep : s.step config server a = some t) : Closing t := by
  have hkept {number : ℕ} (hs : Destroying s number) : Cleared number t :=
    (h number hs).step (fun thread ha => happend thread ha number hs) hstep
  have hresolved {thread call mark : ℕ} (hpc : s.pcs thread = .flushing call .destroy mark)
      (hcall : s.isResolved call = true) : Cleared 0 t :=
    ((h _ (.flushing hpc)).resolved hserial hcall).step
      (fun thread' ha => happend thread' ha _ (.flushing hpc)) hstep
  intro number hnumber
  cases hnumber with
  | @flushing thread call mark hpc =>
    rcases pcs_destroys hstep hpc trivial with hold | ⟨rfl, mark', heq⟩ | ⟨_, _, _, _, heq⟩
    · exact hkept (.flushing hold)
    · obtain ⟨rfl, -, -⟩ := Pc.flushing.inj heq
      cases steps_of_step hstep with
      | flushSchedule =>
        obtain ⟨hblocks, hactive, hcalls⟩ := hserial.inOrder.cleared_scheduleFlush
        exact ⟨hblocks, hactive, hcalls⟩
    · cases heq
  | @flushed thread mark hpc =>
    rcases pcs_destroys hstep hpc trivial with hold | ⟨rfl, _, heq⟩ | ⟨call, _, hold, hcall, _⟩
    · exact hkept (.flushed hold)
    · cases heq
    · exact hresolved hold hcall
  | sent hsent => exact hkept (terminated_step hstep (Or.inl hsent))
  | received hreceived => exact hkept (terminated_step hstep (Or.inr (Or.inl hreceived)))
  | terminated hterminated => exact hkept (terminated_step hstep (Or.inr (Or.inr hterminated)))

/-- No write is appended once the destructor has scheduled its last flush. -/
def NoLateWrite (actions : List Action) : Prop :=
  ∀ before after thread, actions = before ++ .flushSchedule thread .destroy :: after →
    ∀ writer, .writeAppend writer ∉ after

/-- No write is late where all writes come before the destructor. -/
theorem noLateWrite_append {first last : List Action}
    (hfirst : ∀ thread, .flushSchedule thread .destroy ∉ first)
    (hlast : ∀ writer, .writeAppend writer ∉ last) : NoLateWrite (first ++ last) := by
  intro before after thread heq writer hmem
  rcases List.append_eq_append_iff.mp heq with ⟨rest, rfl, hlate⟩ | ⟨rest, rfl, hrest⟩
  · apply hlast writer
    rw [hlate]
    exact List.mem_append_right _ (List.mem_cons_of_mem _ hmem)
  · cases rest with
    | nil =>
      apply hlast writer
      rw [← show _ = last from hrest]
      exact List.mem_cons_of_mem _ hmem
    | cons a rest =>
      obtain ⟨rfl, -⟩ := List.cons.inj hrest
      exact hfirst thread (by simp)

/-- A destructor at work was so before the step, or schedules its last flush in it. -/
theorem destroying_step {number : ℕ} (hstep : s.step config server a = some t)
    (ht : Destroying t number) :
    (∃ n, Destroying s n) ∨ ∃ thread, a = .flushSchedule thread .destroy := by
  cases ht with
  | flushing hpc =>
    rcases pcs_destroys hstep hpc trivial with hold | ⟨rfl, -⟩ | ⟨_, _, hold, -⟩
    · exact Or.inl ⟨_, .flushing hold⟩
    · exact Or.inr ⟨_, rfl⟩
    · exact Or.inl ⟨_, .flushing hold⟩
  | flushed hpc =>
    rcases pcs_destroys hstep hpc trivial with hold | ⟨rfl, -⟩ | ⟨_, _, hold, -⟩
    · exact Or.inl ⟨_, .flushed hold⟩
    · exact Or.inr ⟨_, rfl⟩
    · exact Or.inl ⟨_, .flushing hold⟩
  | sent hsent => exact Or.inl ⟨0, terminated_step hstep (Or.inl hsent)⟩
  | received hreceived => exact Or.inl ⟨0, terminated_step hstep (Or.inr (Or.inl hreceived))⟩
  | terminated hterminated =>
    exact Or.inl ⟨0, terminated_step hstep (Or.inr (Or.inr hterminated))⟩

/-- In a run without late writes no step appends while the destructor is at work. -/
theorem NoLateWrite.meets {actions : List Action} (h : NoLateWrite actions)
    (hs : (∃ number, Destroying s number) → ∀ writer, .writeAppend writer ∉ actions) :
    Transition.Meets (State.step config server)
      (fun s a => ∀ thread, a = .writeAppend thread → ∀ number, ¬ Destroying s number) s
      actions := by
  induction actions generalizing s with
  | nil => trivial
  | cons a actions ih =>
    refine ⟨?_, fun t hstep => ih (fun before after thread heq => ?_) fun ⟨number, hnumber⟩ => ?_⟩
    · rintro thread rfl number hnumber
      exact hs ⟨number, hnumber⟩ thread List.mem_cons_self
    · exact h (a :: before) after thread (by rw [heq]; rfl)
    · rcases destroying_step hstep hnumber with hold | ⟨thread, rfl⟩
      · exact fun writer hmem => hs hold writer (List.mem_cons_of_mem a hmem)
      · exact h [] actions thread rfl

/-- The events that the scheduler has still to handle. -/
def State.unhandled (s : State σ) : List Event := s.received.toList ++ s.channel

/-- The ends among them are those that are counted. -/
theorem unhandled_count (s : State σ) : s.unhandled.count .callEnded = s.ends := by
  unfold State.unhandled State.ends
  rw [List.count_append, Nat.add_comm]
  cases s.received with
  | none => rfl
  | some event => cases event <;> rfl

/-- **The scheduler is safe.** In every state of every run: the calls in flight and the ends of
calls still to be handled are one if `flushing` and none otherwise; the calls were started in
the order of their making, each once, and the others are queued; and while calls are queued
an event that starts one is on its way. If no write is appended behind the last flush of the
destructor, then at the end of the scheduler no call is in flight and those left are empty. -/
theorem scheduler_safe {w : σ} {actions : List Action}
    (hrun : Transition.run (State.step config server) (State.initial w) actions = some s) :
    (s.active.length + s.unhandled.count .callEnded = if s.flushing then 1 else 0) ∧
    startedIn config server (State.initial w) actions ++ s.calls.map CallData.id =
      List.range s.nextCall ∧
    (s.terminated = false → s.calls ≠ [] →
      s.flushing = true ∨ .flushRequest ∈ s.unhandled ∨ .callEnded ∈ s.unhandled) ∧
    (NoLateWrite actions → s.terminated = true →
      s.active = [] ∧ ∀ c ∈ s.calls, c.blocks = []) := by
  have hserial := Transition.invariant_of_forall (fun _ _ _ h hstep => Serial.step h hstep) hrun
    (serial_initial w)
  refine ⟨?_, ?_, fun _ hcalls => ?_, fun hlate hterminated => ?_⟩
  · rw [unhandled_count]
    exact hserial.single
  · obtain ⟨n, hnext, hcalls⟩ := startedIn_run hrun
    rw [← hcalls, List.range_eq_range', hnext]
    simp [State.initial]
  · rcases hserial.wake hcalls with hflushing | hsent | hreceived
    · exact Or.inl hflushing
    · exact Or.inr (Or.inl (List.mem_append_right _ hsent))
    · exact Or.inr (Or.inl (List.mem_append_left _ (by simp [hreceived])))
  · have hidle : ¬ ∃ number, Destroying (State.initial w) number := by
      rintro ⟨number, hnumber⟩
      cases hnumber with
      | flushing hpc => cases hpc
      | flushed hpc => cases hpc
      | sent hsent => exact absurd hsent List.not_mem_nil
      | received hreceived => cases hreceived
      | terminated hterminated => cases hterminated
    have hboth := Transition.invariant
      (fun s a t (h : Serial s ∧ Closing s) hok hstep => ⟨h.1.step hstep, h.2.step h.1 hok hstep⟩)
      hrun (hlate.meets fun h => absurd h hidle)
      ⟨serial_initial w, fun number hnumber => absurd ⟨number, hnumber⟩ hidle⟩
    have hcleared := hboth.2 0 (.terminated hterminated)
    refine ⟨?_, fun c hc => hcleared.calls c hc (Nat.zero_le _)⟩
    rw [List.eq_nil_iff_forall_not_mem]
    exact fun c hc => absurd (hcleared.active c hc) (Nat.not_lt_zero _)

/-- A write and the destructor, with the timer going off while the last flush is in flight. -/
def writeThenDestroy : List Action :=
  [.writeLock 0 firstBlock, .writeCheck 0, .writeAppend 0, .flushSchedule 0 .destroy,
    .receive, .handle, .timer, .receive, .handle,
    .proceed 0 true, .serve 0, .proceed 0 true, .proceed 0 true, .serve 0, .proceed 0 true,
    .resolve 0, .flushGet 0, .flushReturn 0 true,
    .receive, .handle, .receive, .handle, .receive, .handle, .receive, .handle]

/-- The scheduler starts both calls and ends behind the second one. -/
theorem scheduler_safe_writeThenDestroy :
    ∃ s, Transition.run (State.step smallConfig handleServer) (State.initial fun _ => [])
        writeThenDestroy = some s ∧
      s.terminated = true ∧ s.active = [] ∧
      startedIn smallConfig handleServer (State.initial fun _ => []) writeThenDestroy = [0, 1] := by
  have hreaches : (Transition.run (State.step smallConfig handleServer)
      (State.initial fun _ => []) writeThenDestroy).any (fun s =>
        s.terminated = true ∧ s.calls = [] ∧ s.nextCall = 2) = true := by
    decide +kernel
  obtain ⟨s, hrun, hs⟩ := Option.any_eq_true _ _ |>.mp hreaches
  obtain ⟨hterminated, hcalls, hnext⟩ := of_decide_eq_true hs
  obtain ⟨-, hstarted, -, hend⟩ := scheduler_safe hrun
  rw [hcalls, hnext, List.map_nil, List.append_nil] at hstarted
  have hlate : NoLateWrite writeThenDestroy :=
    @noLateWrite_append (writeThenDestroy.take 3) (writeThenDestroy.drop 3)
      (by simp [writeThenDestroy]) (by simp [writeThenDestroy])
  exact ⟨s, hrun, hterminated, (hend hlate hterminated).1, hstarted⟩

end RSafeFS.AsyncClient
