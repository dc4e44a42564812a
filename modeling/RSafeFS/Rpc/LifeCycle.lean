import RSafeFS.Rpc.Handlers

/-!
# Life cycle of the handlers

An object waits for what its status says, and one that still waits for its call is in no
record. This gives the number of armed handlers and of finished calls in every run. That
every entry is called for a message of its own fails where a unary handler is told that no
call will come.
-/

namespace RSafeFS.Rpc

variable {M : Type} {s t : Server M}

/-- What an object waits for, by its status. -/
def CallData.pending : CallData → Pending
  | .unary _ .process => .request
  | .unary _ .finished => .finish
  | .bidiStream _ .create => .request
  | .bidiStream _ .read => .read
  | .bidiStream _ .write => .write
  | .bidiStream _ .finished => .finish
  | .acStreamWrite .create => .request
  | .acStreamWrite .read => .read
  | .acStreamWrite .finished => .finish

@[simp] theorem CallData.method_new (method : Method) : (CallData.new method).method = method := by
  cases method <;> rfl

@[simp] theorem CallData.pending_new (method : Method) :
    (CallData.new method).pending = .request := by
  cases method <;> rfl

theorem CallData.isUnary_iff {d : CallData} :
    d.isUnary = true ↔ ∃ method, d.method = .unary method := by
  cases d <;> simp [isUnary, method]

/-- An object that asks for something remembers it in its status, and asks for no other call. -/
theorem CallData.next_proceed {d next : CallData} {ok : Bool} {pending : Pending}
    (h : (d.proceed ok).next = some (next, pending)) :
    next.method = d.method ∧ next.pending = pending ∧ pending ≠ .request := by
  revert h
  fun_cases d.proceed ok <;> rintro ⟨⟩ <;> exact ⟨rfl, rfl, nofun⟩

/-- An object makes another of its class exactly when it waited for a call. -/
theorem CallData.armed_proceed (d : CallData) (ok : Bool) :
    (d.proceed ok).armed = if d.pending = .request then some d.method else none := by
  fun_cases d.proceed ok <;> rfl

/-- A unary handler calls its entry when it waited for a call, a stream handler when it is
told that a message has come. -/
theorem CallData.invoked_proceed (d : CallData) (ok : Bool) :
    (d.proceed ok).invoked =
      if d.pending = .read && ok || d.pending = .request && d.isUnary then some d.method.op
      else none := by
  fun_cases d.proceed ok <;> simp [pending, isUnary, method, Method.op]

/-- A unary handler finishes its call when it has processed it. -/
theorem CallData.finish_proceed {d : CallData} (hunary : d.isUnary = true) (ok : Bool) :
    (d.proceed ok).next.map Prod.snd = some .finish ↔ d.pending = .request := by
  cases d with
  | unary method status => cases status <;> simp [proceed, pending]
  | bidiStream => cases hunary
  | acStreamWrite => cases hunary

/-- Every accepted unary call is finished once, every accepted call makes one new handler of
its class and queue, and the number of armed handlers stays the same. -/
structure Balanced (nQueues : ℕ) (s : Server M) : Prop where
  finished : ∀ call ∈ s.accepted, (∃ method, call.method = .unary method) →
    s.finished.count call.handler = 1
  rearmed : ∀ call ∈ s.accepted, (s.rearmed.filter fun r => r.handler = call.handler) = [call]
  armed : ∀ method, ∀ queue < max 1 nQueues, s.armed method queue = 20

/-- Entries are called for the messages received, once for each and with its arguments; and
the calls and handlers are balanced. -/
structure LifeCycle (nQueues : ℕ) (s : Server M) : Prop extends Balanced nQueues s where
  invoked : s.invoked = s.received.map fun r => ⟨r.handler, r.method.op, r.message⟩

/-- A handler that waits for a call, or that is not made yet. -/
def Server.Waiting (s : Server M) (id : ℕ) : Prop :=
  s.handlers[id]? = none ∨ ∃ h : Handler M, s.handlers[id]? = some (some h) ∧ h.pending = .request

/-- The records do not mention the handler. -/
structure Server.Unused (s : Server M) (id : ℕ) : Prop where
  accepted : ∀ call ∈ s.accepted, call.handler ≠ id
  rearmed : ∀ call ∈ s.rearmed, call.handler ≠ id
  finished : id ∉ s.finished

/-- The invariant of every run. -/
structure Consistent (nQueues : ℕ) (s : Server M) : Prop extends Balanced nQueues s where
  pending : ∀ (id : ℕ) (h : Handler M), s.handlers[id]? = some (some h) → h.data.pending = h.pending
  unused : ∀ id, s.Waiting id → s.Unused id
  method : ∀ call ∈ s.accepted, ∀ h : Handler M, s.handlers[call.handler]? = some (some h) →
    h.data.method = call.method

/-- A handler with an accepted call is not armed any more. -/
theorem Consistent.pending_ne {nQueues id : ℕ} {h : Handler M}
    (hs : Consistent nQueues s) (hid : s.handlers[id]? = some (some h))
    {call : Call} (hcall : call ∈ s.accepted) (heq : call.handler = id) : h.pending ≠ .request := by
  intro hpending
  exact (hs.unused id (Or.inr ⟨h, hid, hpending⟩)).accepted call hcall heq

section Complete

variable {nQueues id : ℕ} {h : Handler M} {ok : Bool} {message : M} [Inhabited M]

/-- The handlers after an event: the one of the event has gone on, and a new one may have
been made. -/
theorem handlers_complete (hid : s.handlers[id]? = some (some h)) {id' : ℕ} {h' : Handler M}
    (hid' : (s.complete id h ok message).handlers[id']? = some (some h')) :
    (id' = id ∧ h'.data.method = h.data.method ∧ h'.data.pending = h'.pending ∧
        h'.pending ≠ .request) ∨
      (id' ≠ id ∧ s.handlers[id']? = some (some h')) ∨
      (id' ≠ id ∧ s.handlers[id']? = none ∧ ∃ method queue, h' = .new method queue) := by
  have hlt : id < s.handlers.length := (List.getElem?_eq_some_iff.mp hid).1
  by_cases hne : id' = id
  · subst hne
    left
    simp only [Server.complete] at hid'
    rw [List.getElem?_append_left (by simpa using hlt), List.getElem?_set_self hlt] at hid'
    obtain ⟨⟨data, pending⟩, hnext, rfl⟩ := Option.map_eq_some_iff.mp (Option.some.inj hid')
    exact ⟨rfl, CallData.next_proceed hnext⟩
  · right
    simp only [Server.complete] at hid'
    rcases Nat.lt_or_ge id' s.handlers.length with hlt' | hge
    · left
      rw [List.getElem?_append_left (by simpa using hlt'),
        List.getElem?_set_ne (Ne.symm hne)] at hid'
      exact ⟨hne, hid'⟩
    · right
      rw [List.getElem?_append_right (by simpa using hge)] at hid'
      have hmem := List.mem_of_getElem? hid'
      simp only [Option.mem_toList, Option.map_eq_some_iff] at hmem
      obtain ⟨method, _, hnew⟩ := hmem
      refine ⟨hne, ?_, method, h.queue, (Option.some.inj hnew).symm⟩
      simpa using hge

/-- A handler that still waits for a call was not the one of the event. -/
theorem waiting_complete (hid : s.handlers[id]? = some (some h)) {id' : ℕ}
    (hwaiting : (s.complete id h ok message).Waiting id') : id' ≠ id ∧ s.Waiting id' := by
  have hlt : id < s.handlers.length := (List.getElem?_eq_some_iff.mp hid).1
  rcases hwaiting with hnone | ⟨h', hid', hpending⟩
  · rw [List.getElem?_eq_none_iff] at hnone
    simp only [Server.complete, List.length_append, List.length_set] at hnone
    refine ⟨by omega, Or.inl (List.getElem?_eq_none_iff.mpr (by omega))⟩
  · rcases handlers_complete hid hid' with ⟨rfl, _, _, hne⟩ | ⟨hne, hold⟩ | ⟨hne, hold, _⟩
    · exact absurd hpending hne
    · exact ⟨hne, Or.inr ⟨h', hold, hpending⟩⟩
    · exact ⟨hne, Or.inl hold⟩

/-- The calls accepted after an event: a new one is that of the handler of the event. -/
theorem accepted_complete {call : Call} (hcall : call ∈ (s.complete id h ok message).accepted) :
    call ∈ s.accepted ∨ h.pending = .request ∧ call = ⟨id, h.data.method, h.queue⟩ := by
  simp only [Server.complete] at hcall
  split at hcall
  · next hok =>
    simp only [Bool.and_eq_true, decide_eq_true_eq] at hok
    rcases List.mem_cons.mp hcall with rfl | hold
    · exact Or.inr ⟨hok.2, rfl⟩
    · exact Or.inl hold
  · exact Or.inl hcall

/-- An event is recorded for its handler alone. -/
theorem Server.Unused.complete {id' : ℕ} (hunused : s.Unused id') (hne : id' ≠ id) :
    (s.complete id h ok message).Unused id' where
  accepted call hcall := by
    rcases accepted_complete hcall with hold | ⟨_, rfl⟩
    · exact hunused.accepted call hold
    · exact hne.symm
  rearmed call hcall := by
    simp only [Server.complete, List.mem_append, Option.mem_toList, Option.map_eq_some_iff] at hcall
    rcases hcall with ⟨_, _, rfl⟩ | hold
    · exact hne.symm
    · exact hunused.rearmed call hold
  finished := by
    simp only [Server.complete]
    split
    · simp [hne, hunused.finished]
    · exact hunused.finished

/-- An event makes no new handler unless its own was armed. -/
theorem rearmed_complete (hs : Consistent nQueues s) (hid : s.handlers[id]? = some (some h)) :
    (s.complete id h ok message).rearmed =
      if h.pending = .request then ⟨id, h.data.method, h.queue⟩ :: s.rearmed else s.rearmed := by
  simp only [Server.complete, CallData.armed_proceed, hs.pending id h hid]
  split <;> rfl

/-- A unary handler is finished by the event that finds it armed. -/
theorem finished_complete (hs : Consistent nQueues s) (hid : s.handlers[id]? = some (some h))
    (hunary : h.data.isUnary = true) :
    (s.complete id h ok message).finished =
      if h.pending = .request then id :: s.finished else s.finished := by
  simp only [Server.complete, CallData.finish_proceed hunary, hs.pending id h hid]

/-- Every accepted unary call is finished once. -/
theorem Consistent.finished_complete (hs : Consistent nQueues s)
    (hid : s.handlers[id]? = some (some h)) {call : Call}
    (hcall : call ∈ (s.complete id h ok message).accepted)
    (hmethod : ∃ method, call.method = .unary method) :
    (s.complete id h ok message).finished.count call.handler = 1 := by
  rcases accepted_complete hcall with hold | ⟨hpending, rfl⟩
  · by_cases heq : call.handler = id
    · have hunary : h.data.isUnary = true := by
        rw [CallData.isUnary_iff, hs.method call hold h (heq ▸ hid)]
        exact hmethod
      rw [Rpc.finished_complete hs hid hunary, if_neg (hs.pending_ne hid hold heq)]
      exact hs.finished call hold hmethod
    · have hcount : (s.complete id h ok message).finished.count call.handler =
          s.finished.count call.handler := by
        simp only [Server.complete]
        split
        · exact List.count_cons_of_ne (Ne.symm heq)
        · rfl
      rw [hcount]
      exact hs.finished call hold hmethod
  · have hunused := (hs.unused id (Or.inr ⟨h, hid, hpending⟩)).finished
    rw [Rpc.finished_complete hs hid (CallData.isUnary_iff.mpr hmethod), if_pos hpending]
    simp [List.count_eq_zero.mpr hunused]

/-- Every accepted call makes one new handler. -/
theorem Consistent.rearmed_complete (hs : Consistent nQueues s)
    (hid : s.handlers[id]? = some (some h)) {call : Call}
    (hcall : call ∈ (s.complete id h ok message).accepted) :
    ((s.complete id h ok message).rearmed.filter fun r => r.handler = call.handler) = [call] := by
  rw [Rpc.rearmed_complete hs hid]
  rcases accepted_complete hcall with hold | ⟨hpending, rfl⟩
  · have hrearmed := hs.rearmed call hold
    split
    · next hpending =>
      have hne : id ≠ call.handler := fun heq => hs.pending_ne hid hold heq.symm hpending
      rw [List.filter_cons_of_neg (by simpa using hne)]
      exact hrearmed
    · exact hrearmed
  · have hunused := (hs.unused id (Or.inr ⟨h, hid, hpending⟩)).rearmed
    rw [if_pos hpending, List.filter_cons_of_pos (by simp), List.filter_eq_nil_iff.mpr]
    simpa using hunused

/-- An armed handler is replaced by a new one of its class and queue. -/
theorem armed_complete (hs : Consistent nQueues s) (hid : s.handlers[id]? = some (some h))
    (method : Method) (queue : ℕ) :
    (s.complete id h ok message).armed method queue = s.armed method queue := by
  obtain ⟨hlt, hget⟩ := List.getElem?_eq_some_iff.mp hid
  -- the handler of the event is armed no more
  have hnext : ∀ request : M, (((h.data.proceed ok).next.map fun next =>
      (⟨next.1, h.queue, request, next.2⟩ : Handler M)).any fun h => h.isArmed method queue) =
        false := by
    intro request
    cases hproceed : (h.data.proceed ok).next with
    | none => rfl
    | some next => simp [Handler.isArmed, (CallData.next_proceed hproceed).2.2]
  have hnew : (((h.data.proceed ok).armed.map fun method =>
      some (Handler.new (M := M) method h.queue)).toList.countP
        fun h => h.any fun h => h.isArmed method queue) =
          if h.isArmed method queue then 1 else 0 := by
    rw [CallData.armed_proceed, hs.pending id h hid]
    by_cases hpending : h.pending = .request
    · simp [hpending, Handler.isArmed, Handler.new]
    · simp [hpending, Handler.isArmed]
  have hpos : h.isArmed method queue = true →
      0 < s.handlers.countP fun h => h.any fun h => h.isArmed method queue :=
    fun harmed => List.countP_pos_iff.mpr ⟨some h, List.mem_of_getElem? hid, harmed⟩
  simp only [Server.armed, Server.complete, List.countP_append, List.countP_set hlt, hget, hnext,
    hnew, Option.any_some]
  split
  · next harmed =>
    have hpos := hpos harmed
    simp only [Bool.false_eq_true, if_false]
    omega
  · simp

/-- An event keeps the calls of entries and the messages in step exactly when it brings a
message to every unary handler that was armed. -/
theorem invoked_complete_iff (hs : Consistent nQueues s) (hid : s.handlers[id]? = some (some h))
    (ok : Bool) (message : M)
    (hinvoked : s.invoked = s.received.map fun r => ⟨r.handler, r.method.op, r.message⟩) :
    ((s.complete id h ok message).invoked = (s.complete id h ok message).received.map
        fun r => ⟨r.handler, r.method.op, r.message⟩) ↔
      (h.pending = .request → h.data.isUnary = true → ok = true) := by
  simp only [Server.complete, CallData.invoked_proceed, hs.pending id h hid,
    Handler.awaitsMessage, hinvoked]
  by_cases hrequest : h.pending = .request
  · by_cases hunary : h.data.isUnary = true
    · cases ok with
      | true => simp [hrequest, hunary]
      | false =>
        -- the entry is called although nothing was received
        refine iff_of_false (fun heq => ?_) (by simp [hrequest, hunary])
        simpa [hrequest, hunary] using congrArg List.length heq
    · simp [hrequest, hunary]
  · by_cases hread : h.pending = .read
    · cases ok <;> simp [hread]
    · simp [hrequest, hread]

/-- **Step lemma.** Every event keeps the invariant. -/
theorem Consistent.complete (hs : Consistent nQueues s) (hid : s.handlers[id]? = some (some h)) :
    Consistent nQueues (s.complete id h ok message) where
  finished _ hcall hmethod := hs.finished_complete hid hcall hmethod
  rearmed _ hcall := hs.rearmed_complete hid hcall
  armed method queue hqueue := by
    rw [armed_complete hs hid]
    exact hs.armed method queue hqueue
  pending id' h' hid' := by
    rcases handlers_complete hid hid' with
      ⟨_, _, hpending, _⟩ | ⟨_, hold⟩ | ⟨_, _, method, queue, rfl⟩
    · exact hpending
    · exact hs.pending id' h' hold
    · simp [Handler.new]
  unused id' hwaiting := by
    obtain ⟨hne, hold⟩ := waiting_complete hid hwaiting
    exact (hs.unused id' hold).complete hne
  method call hcall h' hid' := by
    rcases accepted_complete hcall with hold | ⟨_, rfl⟩
    · rcases handlers_complete hid hid' with ⟨heq, hmethod, _⟩ | ⟨_, hsame⟩ | ⟨_, hnone, _⟩
      · rw [hmethod]
        exact hs.method call hold h (heq ▸ hid)
      · exact hs.method call hold h' hsame
      · exact absurd rfl ((hs.unused _ (Or.inl hnone)).accepted call hold)
    · rcases handlers_complete hid hid' with ⟨_, hmethod, _⟩ | ⟨hne, _⟩ | ⟨hne, _⟩
      · exact hmethod
      · exact absurd rfl hne
      · exact absurd rfl hne

end Complete

variable [Inhabited M]

theorem Consistent.step {nQueues : ℕ} {event : Completion M} (hs : Consistent nQueues s)
    (hstep : s.step event = some t) : Consistent nQueues t := by
  simp only [Server.step] at hstep
  split at hstep
  · next h hid =>
    obtain rfl := Option.some.inj hstep
    exact hs.complete hid
  · cases hstep

/-- The event does not tell an armed unary handler that no call will come. -/
def Unrefused (s : Server M) (event : Completion M) : Prop :=
  ∀ h : Handler M, s.handlers[event.handler]? = some (some h) → h.pending = .request →
    h.data.isUnary = true → event.ok = true

theorem LifeCycle.step_iff {nQueues : ℕ} {event : Completion M} (h : LifeCycle nQueues s)
    (hs : Consistent nQueues s) (hstep : s.step event = some t) :
    LifeCycle nQueues t ↔ Unrefused s event := by
  have hbalanced := (hs.step hstep).toBalanced
  simp only [Server.step] at hstep
  split at hstep
  · next handler hid =>
    obtain rfl := Option.some.inj hstep
    have hiff := invoked_complete_iff hs hid event.ok event.message h.invoked
    constructor
    · intro ht handler' hid' hpending hunary
      obtain rfl : handler = handler' := by simpa [hid] using hid'
      exact hiff.mp ht.invoked hpending hunary
    · intro hok
      exact ⟨hbalanced, hiff.mpr fun hpending hunary => hok handler hid hpending hunary⟩
  · cases hstep

/-- `server::run` names every class once. -/
theorem Method.count_all (method : Method) : Method.all.count method = 1 := by
  cases method with
  | unary method => cases method <;> rfl
  | bidiStream method => cases method <;> rfl
  | acStreamWrite => rfl

/-- The handlers that `server::run` makes for one queue. -/
theorem armed_round (method : Method) (queue queue' : ℕ) :
    (((List.range 20).flatMap fun _ => Method.all.map fun method =>
      some (Handler.new (M := M) method queue')).countP
        fun h => h.any fun h => h.isArmed method queue) = if queue' = queue then 20 else 0 := by
  have hround : ((Method.all.map fun method => some (Handler.new (M := M) method queue')).countP
      fun h => h.any fun h => h.isArmed method queue) = if queue' = queue then 1 else 0 := by
    rw [List.countP_map]
    split
    · next heq =>
      have hcount := Method.count_all method
      rw [List.count] at hcount
      simpa [Function.comp_def, Handler.isArmed, Handler.new, heq, beq_eq_decide] using hcount
    · next hne => simp [Function.comp_def, Handler.isArmed, Handler.new, hne]
  rw [List.countP_flatMap]
  simp only [Function.comp_def, hround]
  split <;> rfl

theorem sum_rounds (n queue : ℕ) :
    ((List.range n).map fun queue' => if queue' = queue then 20 else 0).sum =
      if queue < n then 20 else 0 := by
  induction n with
  | zero => rfl
  | succ n ih =>
    rw [List.range_succ, List.map_append, List.sum_append, ih]
    simp only [List.map_cons, List.map_nil, List.sum_cons, List.sum_nil]
    split <;> split <;> split <;> omega

/-- On every queue there are 20 armed handlers of each class. -/
theorem armed_run (nQueues : ℕ) (method : Method) {queue : ℕ} (hqueue : queue < max 1 nQueues) :
    (Server.run (M := M) nQueues).armed method queue = 20 := by
  simp only [Server.armed, Server.run]
  rw [List.countP_flatMap]
  simp only [Function.comp_def, armed_round]
  rw [sum_rounds, if_pos hqueue]

theorem consistent_run (nQueues : ℕ) : Consistent nQueues (Server.run (M := M) nQueues) where
  finished := nofun
  rearmed := nofun
  armed method queue hqueue := armed_run nQueues method hqueue
  pending id h hid := by
    have hmem := List.mem_of_getElem? hid
    simp only [Server.run, List.mem_flatMap, List.mem_map, Option.some.injEq] at hmem
    obtain ⟨queue, _, _, _, method, _, rfl⟩ := hmem
    simp [Handler.new]
  unused _ _ := ⟨nofun, nofun, nofun⟩
  method := nofun

/-- **Life cycle.** In every run, entries are called for the messages received and the calls
and handlers are balanced in every state exactly when no armed unary handler is told that no
call will come. -/
theorem lifeCycle_iff_unrefused {nQueues : ℕ} {events : List (Completion M)}
    (hrun : Transition.run Server.step (Server.run nQueues) events = some s) :
    Transition.Always Server.step (LifeCycle nQueues) (Server.run nQueues) events ↔
      Transition.Meets Server.step Unrefused (Server.run nQueues) events := by
  have hconsistent : ∀ (s : Server M) event t, Consistent nQueues s → s.step event = some t →
      Consistent nQueues t := fun _ _ _ hs hstep => hs.step hstep
  have hstart := consistent_run (M := M) nQueues
  rw [← Transition.always_and_iff hconsistent hstart]
  refine Transition.always_iff_meets (fun s event t h hstep => ?_) hrun
    ⟨⟨hstart.toBalanced, rfl⟩, hstart⟩
  rw [← h.1.step_iff h.2 hstep]
  exact and_iff_left (h.2.step hstep)

/-- Handler 14 of a server answers a call of `chmod`, and handler 32 two messages of a stream
that then ends. Of a message only the path is kept. -/
def twoCalls : List (Completion PathName) :=
  [⟨14, true, ['/', 'f']⟩, ⟨32, true, []⟩, ⟨32, true, ['/', 'g']⟩, ⟨14, true, []⟩, ⟨32, true, []⟩,
    ⟨32, true, ['/', 'g']⟩, ⟨32, false, []⟩, ⟨32, false, []⟩, ⟨32, true, []⟩]

theorem lifeCycle_twoCalls :
    Transition.Always Server.step (LifeCycle 1) (Server.run 1) twoCalls := by
  obtain ⟨s, hrun⟩ : ∃ s, Transition.run Server.step (Server.run 1) twoCalls = some s := ⟨_, rfl⟩
  refine (lifeCycle_iff_unrefused hrun).mpr ?_
  have hok : ∀ {s : Server PathName} {id : ℕ} {message : PathName},
      Unrefused s ⟨id, true, message⟩ := fun _ _ _ _ => rfl
  refine .cons hok rfl (.cons hok rfl (.cons hok rfl (.cons hok rfl (.cons hok rfl (.cons hok rfl
    (.cons ?_ rfl (.cons ?_ rfl (.cons hok rfl trivial))))))))
  · rintro handler ⟨⟩ ⟨⟩
  · rintro handler ⟨⟩ ⟨⟩

/-- A server that shuts down completes its armed handlers without a call. The one for `chmod`
then calls its entry with an empty path. -/
theorem not_lifeCycle : ¬ ∀ (nQueues : ℕ) (events : List (Completion PathName))
    (s : Server PathName), Transition.run Server.step (Server.run nQueues) events = some s →
      LifeCycle nQueues s := by
  intro hall
  have hinvoked := (hall 1 [⟨14, false, []⟩] _ rfl).invoked
  cases hinvoked

end RSafeFS.Rpc
