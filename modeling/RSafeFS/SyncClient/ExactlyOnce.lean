import RSafeFS.SyncClient.Matching

/-!
# How often a request is executed

A request travels on a stream at most once and as a unary one at most once, and nothing
tells the server that the two are the same. The invariant accounts for every request that
was written to a stream: it is on its way to the server or has been executed, or it was
lost with the stream.
-/

namespace RSafeFS.SyncClient

variable {s t : Streams}

/-- How often the server has executed the request of a call that came on the given way. -/
def Streams.execs (s : Streams) (c : ℕ) (via : Option ℕ) : ℕ :=
  s.executed.countP fun x => x.call = c ∧ x.via = via

/-- How often the server has executed the request of a call. -/
def Streams.executions (s : Streams) (c : ℕ) : ℕ := s.executed.countP fun x => x.call = c

/-- The requests of a call that an entry has carried and not lost. -/
def Streams.carried (s : Streams) (c id : ℕ) : ℕ :=
  (s.entries id).toServer.countP (fun m => m.1 = c) + s.execs c (some id)

/-- The call has not written its request to a stream. -/
def Pc.Early : Pc → Prop
  | .unstarted | .looking | .found _ | .writing _ => True
  | _ => False

/-- How often the unary request of a call at this place may have been executed. -/
def Pc.Unary : Pc → ℕ → Prop
  | .served _, n | .creating _ (some _), n | .returned (some _), n => n = 1
  | .returned none, n => n ≤ 1
  | _, n => n = 0

/-- The invariant of a run. -/
structure Counted (s : Streams) : Prop where
  stream : ∀ c id, s.carried c id ≤ 1
  other : ∀ c id, s.sentOn c ≠ some id → s.carried c id = 0
  unsent : ∀ c, (s.pcs c).Early → s.sentOn c = none
  unary : ∀ c, (s.pcs c).Unary (s.execs c none)

/-- A step of a call that puts no request on a stream and executes none. -/
theorem Counted.of_step (h : Counted s) {c : ℕ} {pc pc' : Pc} (hpc : s.pcs c = pc)
    (hpcs : t.pcs = Function.update s.pcs c pc') (hsent : t.sentOn = s.sentOn)
    (hexecuted : t.executed = s.executed) (hcarried : ∀ c id, t.carried c id ≤ s.carried c id)
    (hearly : pc'.Early → pc.Early) (hunary : ∀ n, pc.Unary n → pc'.Unary n) : Counted t := by
  refine ⟨fun c' id => Nat.le_trans (hcarried c' id) (h.stream c' id), fun c' id hc' => ?_,
    fun c' hc' => ?_, fun c' => ?_⟩
  · rw [hsent] at hc'
    exact Nat.eq_zero_of_le_zero ((hcarried c' id).trans_eq (h.other c' id hc'))
  · rw [hsent]
    rw [hpcs] at hc'
    by_cases heq : c' = c
    · subst heq
      rw [Function.update_self] at hc'
      exact h.unsent c' (by rw [hpc]; exact hearly hc')
    · rw [Function.update_of_ne heq] at hc'
      exact h.unsent c' hc'
  · have hsame : t.execs c' none = s.execs c' none := by rw [Streams.execs, hexecuted]; rfl
    rw [hsame, hpcs]
    by_cases heq : c' = c
    · subst heq
      rw [Function.update_self]
      exact hunary _ (by rw [← hpc]; exact h.unary c')
    · rw [Function.update_of_ne heq]
      exact h.unary c'

/-- A change of an entry that brings no request to the server. -/
theorem carried_set_le {s' : Streams} {id : ℕ} {e : Entry} (hentries : s'.entries = s.entries)
    (hexecuted : s'.executed = s.executed) (hserver : e.toServer.Sublist (s.entries id).toServer)
    (c id' : ℕ) : (s'.set id e).carried c id' ≤ s.carried c id' := by
  have hexecs : (s'.set id e).execs c (some id') = s.execs c (some id') := by
    simp only [Streams.execs, Streams.set, hexecuted]
  rw [Streams.carried, Streams.carried, hexecs]
  refine Nat.add_le_add_right ?_ _
  simp only [Streams.set, hentries]
  by_cases hid : id' = id
  · subst hid
    rw [Function.update_self]
    exact hserver.countP_le
  · rw [Function.update_of_ne hid]

/-- A step of the server or the transport that executes nothing. -/
theorem Counted.server (h : Counted s) (hpcs : t.pcs = s.pcs) (hsent : t.sentOn = s.sentOn)
    (hexecuted : t.executed = s.executed) (hcarried : ∀ c id, t.carried c id ≤ s.carried c id) :
    Counted t := by
  refine h.of_step (c := 0) rfl ?_ hsent hexecuted hcarried (fun hearly => hearly) fun _ hn => hn
  rw [hpcs, Function.update_eq_self]

/-- A call without a request on a stream writes it to one. -/
theorem Counted.write (h : Counted s) {c id : ℕ} (request : Request) {e : Entry}
    (hpc : s.pcs c = .writing id)
    (hserver : e.toServer = (s.entries id).toServer ∨
      e.toServer = (s.entries id).toServer ++ [(c, request)]) :
    Counted ({ s with sentOn := Function.update s.sentOn c (some id) }.set id e |>.goto c
      (.written id)) := by
  have hnone : s.sentOn c = none := h.unsent c (by rw [hpc]; trivial)
  have hcarried : ∀ c' id', ({ s with sentOn := Function.update s.sentOn c (some id) }.set id e |>.goto c
      (.written id)).carried c' id' ≤ s.carried c' id' + if c' = c ∧ id' = id then 1 else 0 := by
    intro c' id'
    simp only [Streams.carried, Streams.execs, Streams.goto, Streams.set]
    by_cases hid : id' = id
    · subst hid
      rw [Function.update_self, Nat.add_right_comm]
      refine Nat.add_le_add_right ?_ _
      rcases hserver with heq | heq
      · rw [heq]
        exact Nat.le_add_right _ _
      · rw [heq, List.countP_append, List.countP_singleton]
        simp [eq_comm]
    · rw [Function.update_of_ne hid, if_neg fun hboth => hid hboth.2]
      exact le_rfl
  refine ⟨fun c' id' => ?_, fun c' id' hc' => ?_, fun c' hc' => ?_, fun c' => ?_⟩
  · refine Nat.le_trans (hcarried c' id') ?_
    split
    · next hboth =>
      rw [hboth.1, h.other c id' (by simp [hnone])]
    · exact h.stream c' id'
  · have hold : s.sentOn c' ≠ some id' := by
      by_cases heq : c' = c
      · simp [heq, hnone]
      · simpa [Streams.goto, Streams.set, Function.update_of_ne heq] using hc'
    have hne : ¬ (c' = c ∧ id' = id) := by
      rintro ⟨rfl, rfl⟩
      simp [Streams.goto, Streams.set] at hc'
    have hle := hcarried c' id'
    rw [if_neg hne, h.other c' id' hold] at hle
    exact Nat.eq_zero_of_le_zero hle
  · by_cases heq : c' = c
    · subst heq
      simp [Streams.goto, Pc.Early] at hc'
    · simp only [Streams.goto, Streams.set, Function.update_of_ne heq] at hc' ⊢
      exact h.unsent c' hc'
  · have hunary := h.unary c'
    by_cases heq : c' = c
    · subst heq
      rw [hpc] at hunary
      simpa [Streams.goto, Streams.set, Streams.execs, Pc.Unary] using hunary
    · simpa [Streams.goto, Streams.set, Streams.execs, Function.update_of_ne heq] using hunary

/-- The execution of a request that came on a stream, or as a unary one, adds to the count of
that way alone. -/
theorem countP_executed_cons (executed : List Execution) (x : Execution) (c : ℕ) (via : Option ℕ) :
    (x :: executed).countP (fun y => y.call = c ∧ y.via = via) =
      executed.countP (fun y => y.call = c ∧ y.via = via) +
        if x.call = c ∧ x.via = via then 1 else 0 := by
  rw [List.countP_cons]
  simp

/-- The handler of a stream executes the first request. -/
theorem Counted.receive (h : Counted s) {c id : ℕ} {request : Request} {reply : Reply} {e : Entry}
    (hserver : (s.entries id).toServer = (c, request) :: e.toServer) :
    Counted ({ s with executed := ⟨c, some id, request, reply⟩ :: s.executed }.set id e) := by
  have hcarried : ∀ c' id', ({ s with executed := ⟨c, some id, request, reply⟩ :: s.executed }.set id
      e).carried c' id' = s.carried c' id' := by
    intro c' id'
    simp only [Streams.carried, Streams.execs, Streams.set, countP_executed_cons]
    by_cases hid : id' = id
    · subst hid
      rw [Function.update_self, hserver, List.countP_cons]
      simp only [and_true, decide_eq_true_eq]
      omega
    · rw [Function.update_of_ne hid, if_neg (by simp [Ne.symm hid]), Nat.add_zero]
  refine ⟨fun c' id' => ?_, fun c' id' hc' => ?_, h.unsent, fun c' => ?_⟩
  · rw [hcarried]
    exact h.stream c' id'
  · rw [hcarried]
    exact h.other c' id' hc'
  · have hunary := h.unary c'
    simpa only [Streams.execs, Streams.set, countP_executed_cons, reduceCtorEq, and_false, if_false,
      Nat.add_zero] using hunary

/-- The server executes a unary request. -/
theorem Counted.serve (h : Counted s) {c : ℕ} {request : Request} {reply : Reply}
    (hpc : s.pcs c = .calling) :
    Counted ({ s with executed := ⟨c, none, request, reply⟩ :: s.executed }.goto c
      (.served reply)) := by
  have hcarried : ∀ c' id, ({ s with executed := ⟨c, none, request, reply⟩ :: s.executed }.goto c
      (.served reply)).carried c' id = s.carried c' id := by
    intro c' id
    simp only [Streams.carried, Streams.execs, Streams.goto, countP_executed_cons, reduceCtorEq,
      and_false, if_false, Nat.add_zero]
  refine ⟨fun c' id => ?_, fun c' id hc' => ?_, fun c' hc' => ?_, fun c' => ?_⟩
  · rw [hcarried]
    exact h.stream c' id
  · rw [hcarried]
    exact h.other c' id hc'
  · by_cases heq : c' = c
    · subst heq
      simp [Streams.goto, Pc.Early] at hc'
    · simp only [Streams.goto, Function.update_of_ne heq] at hc'
      exact h.unsent c' hc'
  · have hunary := h.unary c'
    simp only [Streams.execs, Streams.goto, countP_executed_cons] at hunary ⊢
    by_cases heq : c' = c
    · subst heq
      rw [hpc] at hunary
      simpa [Pc.Unary] using hunary
    · simpa [Function.update_of_ne heq, Ne.symm heq] using hunary

/-- **Step lemma.** Every step keeps the account. -/
theorem Counted.step (h : Counted s) {a : Action} (hstep : s.step a = some t) : Counted t := by
  cases steps_of_step hstep with
  | started hpc hplace =>
    refine h.of_step hpc rfl rfl rfl (fun _ _ => le_rfl) (fun _ => trivial) fun n hn => ?_
    rcases hplace with rfl | rfl
    · exact hn
    · exact hn
  | move hpc hmove =>
    refine h.of_step hpc rfl rfl rfl (fun _ _ => le_rfl) (fun hearly => ?_) fun n hn => ?_
    · cases hmove with
      | found => trivial
      | _ => exact hearly.elim
    · cases hmove with
      | released | failed => exact Nat.le_trans (Nat.le_of_eq hn) (Nat.zero_le 1)
      | lost => exact Nat.le_of_eq hn
      | @present kind todo reply =>
        cases reply with
        | none => exact hn
        | some reply => exact hn
      | @created reply =>
        cases reply with
        | none => exact Nat.le_trans (Nat.le_of_eq hn) (Nat.zero_le 1)
        | some reply => exact hn
      | _ => exact hn
  | misuse => exact h.server rfl rfl rfl fun _ _ => le_rfl
  | lockWrite hpc =>
    exact h.of_step hpc rfl rfl rfl (carried_set_le rfl rfl (List.Sublist.refl _)) (fun _ => trivial)
      fun _ hn => hn
  | @write c id ok res kind request hpc hcall =>
    refine h.write request hpc ?_
    dsimp only
    split
    · exact Or.inl rfl
    · exact Or.inr rfl
  | unlockWriteFailed hpc | lockRead hpc | unlockWrite hpc | read hpc | readFailed hpc
  | unlockReadFailed hpc | unlockReplied hpc | erase hpc =>
    exact h.of_step hpc rfl rfl rfl (carried_set_le rfl rfl (List.Sublist.refl _)) (fun h => h.elim)
      fun _ hn => hn
  | @emplace c ok res kind todo reply hpc =>
    refine h.of_step hpc rfl rfl rfl (carried_set_le rfl rfl (List.nil_sublist _)) (fun h => h.elim)
      fun n hn => ?_
    cases reply with
    | none => exact hn
    | some reply => exact hn
  | serve hpc hcall => exact h.serve hpc
  | receive hhandler hserver => exact h.receive hserver
  | accept | sent | close =>
    exact h.server rfl rfl rfl (carried_set_le rfl rfl (List.Sublist.refl _))
  | broke => exact h.server rfl rfl rfl (carried_set_le rfl rfl (List.take_sublist _ _))

theorem counted_of_run {actions : List Action}
    (hrun : Transition.run Streams.step Streams.initial actions = some s) : Counted s := by
  refine Transition.invariant_of_forall (fun s a t h hstep => h.step hstep) hrun ?_
  exact ⟨fun _ _ => Nat.zero_le 1, fun _ _ _ => rfl, fun _ _ => rfl, fun _ => rfl⟩

/-- An execution counts on its way. -/
theorem execs_pos {x : Execution} (hx : x ∈ s.executed) : 0 < s.execs x.call x.via :=
  List.countP_pos_iff.mpr ⟨x, hx, by simp⟩

/-- A request comes on at most one stream. -/
theorem Counted.via_eq (h : Counted s) {x : Execution} (hx : x ∈ s.executed) {id : ℕ}
    (hvia : x.via = some id) : s.sentOn x.call = some id := by
  by_contra hne
  have hzero := h.other x.call id hne
  have hpos := execs_pos hx
  rw [hvia] at hpos
  rw [Streams.carried] at hzero
  omega

/-- The executions of a request are its executions on the two ways. -/
theorem Counted.executions_eq (h : Counted s) (c : ℕ) :
    s.executions c = s.execs c none + (s.sentOn c).elim 0 fun id => s.execs c (some id) := by
  have hsplit := List.countP_eq_countP_filter_add s.executed (fun x => x.call = c)
    (fun x => x.via = none)
  rw [Streams.executions, hsplit, List.countP_filter, List.countP_filter]
  congr 1
  · simp only [Streams.execs, Bool.decide_and]
  · cases hsent : s.sentOn c with
    | none =>
      refine List.countP_eq_zero.mpr fun x hx hcond => ?_
      simp only [Bool.and_eq_true, decide_eq_true_eq] at hcond
      obtain ⟨id, hvia⟩ := Option.ne_none_iff_exists'.mp (by simpa using hcond.2)
      have hid := h.via_eq hx hvia
      rw [hcond.1, hsent] at hid
      cases hid
    | some id =>
      refine List.countP_congr fun x hx => ?_
      simp only [Bool.and_eq_true, decide_eq_true_eq, Bool.not_eq_true', decide_eq_false_iff_not]
      refine and_congr_right fun hcall => ⟨fun hvia => ?_, fun hvia => by simp [hvia]⟩
      obtain ⟨id', hid'⟩ := Option.ne_none_iff_exists'.mp hvia
      have hid := h.via_eq hx hid'
      rw [hcall, hsent] at hid
      rw [hid', hid]

/-- **Executions.** In every run in which streams break at any point, a `read` or `write` that
returns a reply has been executed once or twice, and exactly once unless it wrote its
request to a stream and did not read the reply from it. -/
theorem executed_once_or_twice {actions : List Action}
    (hrun : Transition.run Streams.step Streams.initial actions = some s) {c : ℕ} {reply : Reply}
    (hreply : s.pcs c = .streamed reply ∨ s.pcs c = .returned (some reply)) :
    1 ≤ s.executions c ∧ s.executions c ≤ 2 ∧
      (s.sentOn c = none ∨ s.pcs c = .streamed reply → s.executions c = 1) := by
  obtain ⟨⟨_, _, hqueued⟩, hrecorded⟩ := known_locks_queued hrun
  have hcounted := counted_of_run hrun
  have hunary := hcounted.unary c
  rw [hcounted.executions_eq c]
  rcases hreply with hpc | hpc
  · obtain ⟨id, hreceived⟩ := hrecorded c reply (by rw [hpc]; rfl)
    obtain ⟨request, hexecuted⟩ := hqueued.received _ hreceived
    have hpos := execs_pos hexecuted
    have hsent := hcounted.via_eq hexecuted rfl
    have hle := hcounted.stream c id
    rw [hpc] at hunary
    replace hunary : s.execs c none = 0 := hunary
    dsimp only at hpos hsent
    rw [Streams.carried] at hle
    rw [hsent, hunary, Option.elim_some]
    omega
  · rw [hpc] at hunary
    replace hunary : s.execs c none = 1 := hunary
    cases hsent : s.sentOn c with
    | none => simp [hunary]
    | some id =>
      have hle := hcounted.stream c id
      rw [Streams.carried] at hle
      rw [Option.elim_some, hunary]
      refine ⟨by omega, by omega, ?_⟩
      rintro (hnone | hstreamed)
      · cases hnone
      · rw [hpc] at hstreamed
        cases hstreamed

/-- The request is executed, and then the stream breaks and the reply is lost. -/
def replyLost : List Action :=
  [.start 1 (oneByte 0), onward 1, onward 1, onward 1, .accept 0, .receive 0 (marked 10),
    .break 0 0 0, onward 1, onward 1, onward 1, onward 1, onward 1, onward 1, onward 1,
    .serve 1 (marked 20), onward 1, onward 1, onward 1]

theorem executed_once_or_twice_replyLost :
    ∃ s, Transition.run Streams.step Streams.initial (openForWriting ++ replyLost) = some s ∧
      s.pcs 1 = .returned (some (marked 20)) ∧ 1 ≤ s.executions 1 ∧ s.executions 1 ≤ 2 := by
  obtain ⟨s, hrun, hpc⟩ : ∃ s, Transition.run Streams.step Streams.initial
      (openForWriting ++ replyLost) = some s ∧ s.pcs 1 = .returned (some (marked 20)) := ⟨_, rfl, rfl⟩
  obtain ⟨hone, htwo, _⟩ := executed_once_or_twice hrun (Or.inr hpc)
  exact ⟨s, hrun, hpc, hone, htwo⟩

/-- The request is executed twice. -/
theorem not_executed_once : ¬ ∀ (actions : List Action) (s : Streams) (c : ℕ) (reply : Reply),
    Transition.run Streams.step Streams.initial actions = some s →
    s.pcs c = .streamed reply ∨ s.pcs c = .returned (some reply) → 0 ≤ reply.result →
      s.executions c = 1 := by
  intro hall
  have honce := hall (openForWriting ++ replyLost) _ 1 (marked 20) rfl (Or.inr rfl) (by decide)
  exact absurd honce (by decide)

end RSafeFS.SyncClient
