import RSafeFS.SyncClient.Locks

/-!
# Replies and requests on a stream

At most two calls at a time have a request out on a stream: the one that holds `mtx_read_`
and waits for its reply, and the one that has written its request and still holds
`mtx_write_`. The messages under way belong to these two, in this order, so that the call
that reads gets its own reply. Once the stream has broken, the replies that are left are
those of the first of them.
-/

namespace RSafeFS.SyncClient

variable {s t : Streams}

/-- The calls whose replies are still to come, in the order of their requests. -/
def Entry.outstanding (e : Entry) : List ℕ := e.awaited.toList ++ e.written.toList

/-- The call whose reply the handler is sending. -/
def Handler.calls : Handler → List ℕ
  | .writing c _ => [c]
  | _ => []

/-- The call has been made, with this request. -/
def Issued (s : Streams) (c : ℕ) (request : Request) : Prop :=
  s.pcs c ≠ .unstarted ∧ ∃ kind, s.calls c = .transfer kind request

/-- The server has executed a request of the call that came on the entry, with this reply. -/
def Answered (executed : List Execution) (id c : ℕ) (reply : Reply) : Prop :=
  ∃ request, ⟨c, some id, request, reply⟩ ∈ executed

/-- The messages under way on an entry are those of the outstanding calls in their order, all
of them while the stream is intact, and each of them is what it should be. -/
structure Entry.Sound (issued : ℕ → Request → Prop) (executed : List Execution) (id : ℕ) (e : Entry) :
    Prop where
  intact : e.broken = false → e.toClient.map Prod.fst ++ e.handler.calls ++
    e.toServer.map Prod.fst = e.outstanding
  order : e.toClient.map Prod.fst <+: e.outstanding
  requests : ∀ m ∈ e.toServer, issued m.1 m.2
  handler : ∀ c reply, e.handler = .writing c reply → Answered executed id c reply
  replies : ∀ m ∈ e.toClient, Answered executed id m.1 m.2

/-- The invariant of a run, over the locks. -/
structure Queued (s : Streams) : Prop where
  entries : ∀ id, (s.entries id).Sound (Issued s) s.executed id
  executed : ∀ e ∈ s.executed, Issued s e.call e.request
  received : ∀ m ∈ s.received, Answered s.executed m.2.1 m.1 m.2.2

/-- What a call asks for is fixed once it has been made. -/
theorem started_step {a : Action} (hstep : s.step a = some t) {c : ℕ} (hc : s.pcs c ≠ .unstarted) :
    t.pcs c ≠ .unstarted ∧ t.calls c = s.calls c := by
  have hgoto : ∀ {s' : Streams} {c' : ℕ} {pc : Pc}, s'.pcs = s.pcs → s'.calls = s.calls →
      pc ≠ .unstarted → (s'.goto c' pc).pcs c ≠ .unstarted ∧ (s'.goto c' pc).calls c = s.calls c := by
    intro s' c' pc hpcs hcalls hpc
    refine ⟨?_, by rw [Streams.goto, hcalls]⟩
    by_cases heq : c = c'
    · subst heq
      simpa [Streams.goto] using hpc
    · simpa [Streams.goto, Function.update_of_ne heq, hpcs] using hc
  cases steps_of_step hstep with
  | @started c' call pc hpc hplace =>
    have hne : c ≠ c' := by
      rintro rfl
      exact hc hpc
    simpa [Streams.goto, Function.update_of_ne hne] using hc
  | move hpc hmove => exact hgoto rfl rfl (by cases hmove <;> simp)
  | misuse huses herased => exact ⟨hc, rfl⟩
  | lockWrite | write | unlockWriteFailed | lockRead | unlockWrite | read | readFailed
  | unlockReadFailed | unlockReplied | erase | emplace | serve => exact hgoto rfl rfl (by simp)
  | accept | receive | sent | close | broke => exact ⟨hc, rfl⟩

theorem Issued.step {a : Action} (hstep : s.step a = some t) {c : ℕ} {request : Request}
    (h : Issued s c request) : Issued t c request := by
  obtain ⟨hpc, hcall⟩ := started_step hstep h.1
  exact ⟨hpc, by rw [hcall]; exact h.2⟩

section Sound

variable {issued issued' : ℕ → Request → Prop} {executed executed' : List Execution} {id : ℕ}
  {e : Entry}

/-- More calls and more executions keep an entry sound. -/
theorem Entry.Sound.mono (h : e.Sound issued executed id)
    (hissued : ∀ c request, issued c request → issued' c request)
    (hexecuted : ∀ x ∈ executed, x ∈ executed') : e.Sound issued' executed' id :=
  ⟨h.intact, h.order, fun m hm => hissued _ _ (h.requests m hm),
    fun c reply hc => (h.handler c reply hc).imp fun _ => hexecuted _,
    fun m hm => (h.replies m hm).imp fun _ => hexecuted _⟩

/-- Locks and flags do not matter. -/
theorem Entry.Sound.of_same {e' : Entry} (h : e.Sound issued executed id)
    (hserver : e'.toServer = e.toServer) (hclient : e'.toClient = e.toClient)
    (hhandler : e'.handler = e.handler) (hbroken : e'.broken = e.broken)
    (houtstanding : e'.outstanding = e.outstanding) : e'.Sound issued executed id := by
  refine ⟨?_, ?_, ?_, ?_, ?_⟩
  · rw [hserver, hclient, hhandler, hbroken, houtstanding]
    exact h.intact
  · rw [hclient, houtstanding]
    exact h.order
  · rw [hserver]
    exact h.requests
  · rw [hhandler]
    exact h.handler
  · rw [hclient]
    exact h.replies

theorem Entry.sound_new (kind : Kind) (path : PathName) :
    (Entry.new kind path).Sound issued executed id :=
  ⟨fun _ => rfl, List.nil_prefix, nofun, nofun, nofun⟩

/-- The holder of `mtx_write_` writes a request. -/
theorem Entry.Sound.write (h : e.Sound issued executed id) (hnone : e.written = none) {c : ℕ}
    {request : Request} (hissued : issued c request) :
    { e with
      toServer := if e.broken then e.toServer else e.toServer ++ [(c, request)]
      written := some c }.Sound issued executed id := by
  have houtstanding : e.awaited.toList ++ [c] = e.outstanding ++ [c] := by
    simp [Entry.outstanding, hnone]
  refine ⟨fun hbroken => ?_, ?_, fun m hm => ?_, h.handler, h.replies⟩
  · change e.broken = false at hbroken
    change _ = e.awaited.toList ++ [c]
    rw [houtstanding, ← h.intact hbroken]
    simp [hbroken]
  · change _ <+: e.awaited.toList ++ [c]
    rw [houtstanding]
    exact h.order.trans (List.prefix_append _ _)
  · dsimp only at hm
    split at hm
    · exact h.requests m hm
    · rcases List.mem_append.mp hm with hold | hnew
      · exact h.requests m hold
      · obtain rfl := List.mem_singleton.mp hnew
        exact hissued

/-- The call that waits for its reply reads the first one, which is its own. -/
theorem Entry.Sound.read (h : e.Sound issued executed id) {c c' : ℕ} (hawaited : e.awaited = some c)
    {reply : Reply} {toClient : List (ℕ × Reply)} (hclient : e.toClient = (c', reply) :: toClient) :
    c' = c ∧ { e with toClient, awaited := none }.Sound issued executed id := by
  have houtstanding : e.outstanding = c :: e.written.toList := by
    simp [Entry.outstanding, hawaited]
  have horder := h.order
  rw [houtstanding, hclient, List.map_cons, List.cons_prefix_cons] at horder
  refine ⟨horder.1, fun hbroken => ?_, horder.2, h.requests, h.handler, fun m hm => ?_⟩
  · have hall := h.intact hbroken
    rw [houtstanding, hclient, List.map_cons, List.cons_append, List.cons_append] at hall
    exact (List.cons.inj hall).2
  · exact h.replies m (by rw [hclient]; exact List.mem_cons_of_mem _ hm)

/-- The handler receives the first request and executes it. -/
theorem Entry.Sound.receive (h : e.Sound issued executed id) {c : ℕ} {request : Request}
    {reply : Reply} {toServer : List (ℕ × Request)} (hhandler : e.handler = .reading)
    (hserver : e.toServer = (c, request) :: toServer) :
    { e with toServer, handler := .writing c reply }.Sound issued
      (⟨c, some id, request, reply⟩ :: executed) id := by
  have hmore := h.mono (fun _ _ hissued => hissued)
    fun x hx => List.mem_cons_of_mem (⟨c, some id, request, reply⟩ : Execution) hx
  refine ⟨fun hbroken => ?_, h.order, fun m hm => ?_, fun c' reply' hc => ?_, hmore.replies⟩
  · have hall := h.intact hbroken
    simpa [hhandler, hserver, Handler.calls, Entry.outstanding] using hall
  · exact h.requests m (by rw [hserver]; exact List.mem_cons_of_mem _ hm)
  · obtain ⟨rfl, rfl⟩ := Handler.writing.inj hc
    exact ⟨request, List.mem_cons_self⟩

/-- The handler's reply is sent. -/
theorem Entry.Sound.sent (h : e.Sound issued executed id) {c : ℕ} {reply : Reply}
    (hhandler : e.handler = .writing c reply) :
    { e with
      toClient := if e.broken then e.toClient else e.toClient ++ [(c, reply)]
      handler := .reading }.Sound issued executed id := by
  refine ⟨fun hbroken => ?_, ?_, h.requests, nofun, fun m hm => ?_⟩
  · change e.broken = false at hbroken
    have hall := h.intact hbroken
    simpa [hhandler, hbroken, Handler.calls, Entry.outstanding] using hall
  · dsimp only
    split
    · exact h.order
    · next hbroken =>
      have hall := h.intact (by simpa using hbroken)
      rw [hhandler, Handler.calls] at hall
      change _ <+: e.outstanding
      rw [← hall, List.map_append]
      exact List.prefix_append _ _
  · dsimp only at hm
    split at hm
    · exact h.replies m hm
    · rcases List.mem_append.mp hm with hold | hnew
      · exact h.replies m hold
      · obtain rfl := List.mem_singleton.mp hnew
        exact h.handler c reply hhandler

/-- The stream breaks. -/
theorem Entry.Sound.broke (h : e.Sound issued executed id) (keepServer keepClient : ℕ) :
    { e with
      toServer := e.toServer.take keepServer
      toClient := e.toClient.take keepClient
      broken := true }.Sound issued executed id := by
  refine ⟨nofun, ?_, fun m hm => h.requests m (List.mem_of_mem_take hm), h.handler,
    fun m hm => h.replies m (List.mem_of_mem_take hm)⟩
  dsimp only
  rw [List.map_take]
  exact (List.take_prefix _ _).trans h.order

end Sound

/-- A step on one entry keeps the invariant if the entry stays sound and every new record is
right. -/
theorem Queued.of_step (h : Queued s) {a : Action} (hstep : s.step a = some t) {id : ℕ} {e : Entry}
    (hentries : t.entries = Function.update s.entries id e)
    (hsound : e.Sound (Issued t) t.executed id) (hmore : ∀ x ∈ s.executed, x ∈ t.executed)
    (hexecuted : ∀ x ∈ t.executed, x ∈ s.executed ∨ Issued t x.call x.request)
    (hreceived : ∀ m ∈ t.received, m ∈ s.received ∨ Answered t.executed m.2.1 m.1 m.2.2) :
    Queued t := by
  refine ⟨fun id' => ?_, fun x hx => ?_, fun m hm => ?_⟩
  · rw [hentries]
    by_cases hid : id' = id
    · subst hid
      rwa [Function.update_self]
    · rw [Function.update_of_ne hid]
      exact (h.entries id').mono (fun _ _ => Issued.step hstep) hmore
  · rcases hexecuted x hx with hold | hnew
    · exact (h.executed x hold).step hstep
    · exact hnew
  · rcases hreceived m hm with hold | hnew
    · exact (h.received m hold).imp fun _ => hmore _
    · exact hnew

/-- A step on one entry that adds no record. -/
theorem Queued.set (h : Queued s) {a : Action} (hstep : s.step a = some t) {id : ℕ} {e : Entry}
    (hentries : t.entries = Function.update s.entries id e)
    (hsound : e.Sound (Issued s) s.executed id) (hexecuted : t.executed = s.executed)
    (hreceived : t.received = s.received) : Queued t := by
  refine h.of_step hstep hentries ?_ ?_ ?_ ?_
  · rw [hexecuted]
    exact hsound.mono (fun _ _ => Issued.step hstep) fun _ hx => hx
  · rw [hexecuted]
    exact fun _ hx => hx
  · rw [hexecuted]
    exact fun _ => Or.inl
  · rw [hreceived]
    exact fun _ => Or.inl

/-- A step that changes no entry and adds no record. -/
theorem Queued.of_same (h : Queued s) {a : Action} (hstep : s.step a = some t)
    (hentries : t.entries = s.entries) (hexecuted : t.executed = s.executed)
    (hreceived : t.received = s.received) : Queued t := by
  refine h.set hstep ?_ (h.entries 0) hexecuted hreceived
  rw [hentries, Function.update_eq_self]

/-- **Step lemma.** Every step keeps the invariant. -/
theorem Queued.step (h : Queued s) (hlocks : Locks s) {a : Action} (hstep : s.step a = some t) :
    Queued t := by
  cases steps_of_step hstep with
  | started | move | misuse => exact h.of_same hstep rfl rfl rfl
  | lockWrite | unlockWriteFailed | unlockWrite | unlockReadFailed | unlockReplied | erase =>
    exact h.set hstep rfl ((h.entries _).of_same rfl rfl rfl rfl rfl) rfl rfl
  | @write c id ok res kind request hpc hcall =>
    have hagrees := hlocks c id
    rw [hpc] at hagrees
    have hnone : (s.entries id).written = none := by
      rw [Option.eq_none_iff_forall_ne_some]
      intro c' hwritten
      obtain rfl := hlocks.written_eq hwritten (hagrees.write rfl)
      simpa using hagrees.written.mp hwritten
    have hissued : Issued s c request := ⟨by rw [hpc]; simp, kind, hcall⟩
    exact h.set hstep rfl ((h.entries id).write hnone hissued) rfl rfl
  | @lockRead c id ok res hpc hfree =>
    have hwritten := (hlocks c id).written.mpr hpc
    have hnone : (s.entries id).awaited = none := by
      rw [Option.eq_none_iff_forall_ne_some]
      intro c' hawaited
      have hheld := hlocks.awaited_eq hawaited
      simp [hfree] at hheld
    refine h.set hstep rfl ((h.entries id).of_same rfl rfl rfl rfl ?_) rfl rfl
    simp [Entry.outstanding, hwritten, hnone]
  | @read c c' id ok res reply toClient hpc hclient =>
    have hawaited := (hlocks c id).awaited.mpr (Or.inr hpc)
    obtain ⟨rfl, hsound⟩ := (h.entries id).read hawaited hclient
    refine h.of_step hstep rfl (hsound.mono (fun _ _ => Issued.step hstep) fun _ hx => hx)
      (fun _ hx => hx) (fun _ => Or.inl) fun m hm => ?_
    rcases List.mem_cons.mp hm with rfl | hold
    · exact Or.inr ((h.entries id).replies (c', reply) (by rw [hclient]; exact List.mem_cons_self))
    · exact Or.inl hold
  | @readFailed c id ok res hpc hclient hbroken =>
    have hsound := h.entries id
    refine h.set hstep rfl ⟨fun hintact => ?_, ?_, hsound.requests, hsound.handler, hsound.replies⟩
      rfl rfl
    · simp [hbroken] at hintact
    · dsimp only
      rw [hclient]
      exact List.nil_prefix
  | emplace hpc => exact h.set hstep rfl (Entry.sound_new _ _) rfl rfl
  | @serve c reply kind request hpc hcall =>
    have hissued : Issued s c request := ⟨by rw [hpc]; simp, kind, hcall⟩
    refine h.of_step hstep (Function.update_eq_self 0 s.entries).symm
      ((h.entries 0).mono (fun _ _ => Issued.step hstep) fun _ => List.mem_cons_of_mem _)
      (fun _ => List.mem_cons_of_mem _) (fun x hx => ?_) fun _ => Or.inl
    rcases List.mem_cons.mp hx with rfl | hold
    · exact Or.inr (hissued.step hstep)
    · exact Or.inl hold
  | @accept id hhandler =>
    have hsound := h.entries id
    refine h.set hstep rfl ⟨fun hbroken => ?_, hsound.order, hsound.requests, nofun, hsound.replies⟩
      rfl rfl
    have hall := hsound.intact hbroken
    simpa [hhandler, Handler.calls, Entry.outstanding] using hall
  | @receive id c reply request toServer hhandler hserver =>
    have hissued := (h.entries id).requests (c, request) (by rw [hserver]; exact List.mem_cons_self)
    refine h.of_step hstep rfl
      (((h.entries id).receive hhandler hserver).mono (fun _ _ => Issued.step hstep) fun _ hx => hx)
      (fun _ => List.mem_cons_of_mem _) (fun x hx => ?_) fun _ => Or.inl
    rcases List.mem_cons.mp hx with rfl | hold
    · exact Or.inr (hissued.step hstep)
    · exact Or.inl hold
  | sent hhandler => exact h.set hstep rfl ((h.entries _).sent hhandler) rfl rfl
  | @close id hhandler =>
    have hsound := h.entries id
    refine h.set hstep rfl ⟨fun hbroken => ?_, hsound.order, hsound.requests, nofun, hsound.replies⟩
      rfl rfl
    have hall := hsound.intact hbroken
    simpa [hhandler, Handler.calls, Entry.outstanding] using hall
  | broke => exact h.set hstep rfl ((h.entries _).broke _ _) rfl rfl

/-- The reply that a call has read from a stream. -/
def Pc.reply : Pc → Option Reply
  | .replied _ reply | .streamed reply => some reply
  | _ => none

/-- Every reply that a call has from a stream is recorded. -/
def Recorded (s : Streams) : Prop :=
  ∀ c reply, (s.pcs c).reply = some reply → ∃ id, (c, id, reply) ∈ s.received

/-- A call moves to a place where it has no reply, or has the reply that it had. -/
theorem Recorded.of_step (h : Recorded s) {c : ℕ} {pc pc' : Pc} (hpc : s.pcs c = pc)
    (hpcs : t.pcs = Function.update s.pcs c pc') (hreceived : t.received = s.received)
    (hreply : pc'.reply = none ∨ pc'.reply = pc.reply) : Recorded t := by
  intro c' reply hc'
  rw [hpcs] at hc'
  rw [hreceived]
  by_cases heq : c' = c
  · subst heq
    rw [Function.update_self] at hc'
    rcases hreply with hnone | hsame
    · simp [hnone] at hc'
    · exact h c' reply (by rw [hpc, ← hsame]; exact hc')
  · rw [Function.update_of_ne heq] at hc'
    exact h c' reply hc'

theorem Recorded.step (h : Recorded s) {a : Action} (hstep : s.step a = some t) : Recorded t := by
  cases steps_of_step hstep with
  | started hpc hplace =>
    refine h.of_step hpc rfl rfl (Or.inl ?_)
    rcases hplace with rfl | rfl
    · rfl
    · rfl
  | move hpc hmove => exact h.of_step hpc rfl rfl (Or.inl (by cases hmove <;> rfl))
  | misuse => exact h
  | lockWrite hpc | write hpc | unlockWriteFailed hpc | lockRead hpc | unlockWrite hpc
  | readFailed hpc | unlockReadFailed hpc | erase hpc | emplace hpc | serve hpc =>
    exact h.of_step hpc rfl rfl (Or.inl rfl)
  | @read c c' id ok res reply toClient hpc hclient =>
    intro c₁ reply₁ hc₁
    by_cases heq : c₁ = c
    · subst heq
      simp only [Streams.goto, Function.update_self] at hc₁
      obtain rfl := Option.some.inj hc₁
      exact ⟨id, List.mem_cons_self⟩
    · simp only [Streams.goto, Streams.set, Function.update_of_ne heq] at hc₁
      exact (h c₁ reply₁ hc₁).imp fun _ => List.mem_cons_of_mem _
  | unlockReplied hpc => exact h.of_step hpc rfl rfl (Or.inr rfl)
  | accept | receive | sent | close | broke => exact h

/-- **Run lemma.** The invariants hold in every state of every run. -/
theorem known_locks_queued {actions : List Action}
    (hrun : Transition.run Streams.step Streams.initial actions = some s) :
    (Known s ∧ Locks s ∧ Queued s) ∧ Recorded s := by
  refine ⟨Transition.invariant_of_forall (I := fun s => Known s ∧ Locks s ∧ Queued s)
    (fun s a t h hstep => ⟨h.1.step hstep, h.2.1.step h.1 hstep, h.2.2.step h.2.1 hstep⟩) hrun
    ⟨known_initial, locks_initial, fun id => Entry.sound_new _ _, nofun, nofun⟩, ?_⟩
  exact Transition.invariant_of_forall (fun s a t h hstep => h.step hstep) hrun nofun

/-- **Matching.** In every run of any number of calls, whether or not streams break, the reply
that a call reads from a stream, and returns, is the server's reply to the call's own
request. -/
theorem reply_matches {actions : List Action}
    (hrun : Transition.run Streams.step Streams.initial actions = some s) {c : ℕ} {reply : Reply}
    (hreply : (∃ id, s.pcs c = .replied id reply) ∨ s.pcs c = .streamed reply) :
    ∃ id kind request, s.calls c = .transfer kind request ∧
      ⟨c, some id, request, reply⟩ ∈ s.executed := by
  obtain ⟨⟨_, _, hqueued⟩, hrecorded⟩ := known_locks_queued hrun
  obtain ⟨id, hreceived⟩ : ∃ id, (c, id, reply) ∈ s.received := by
    rcases hreply with ⟨id, hpc⟩ | hpc
    · exact hrecorded c reply (by rw [hpc]; rfl)
    · exact hrecorded c reply (by rw [hpc]; rfl)
  obtain ⟨request, hexecuted⟩ := hqueued.received _ hreceived
  obtain ⟨_, kind, hcall⟩ := hqueued.executed _ hexecuted
  exact ⟨id, kind, request, hcall, hexecuted⟩

/-- Two writes, the second on the stream before the reply to the first. -/
def pipelined : List Action :=
  [.start 1 (oneByte 0), .start 2 (oneByte 1), onward 1, onward 2, onward 1, onward 1, onward 1,
    onward 1, .accept 0, onward 2, onward 2, .receive 0 (marked 10), .sent 0,
    .receive 0 (marked 20), .sent 0, onward 1, onward 1, onward 2, onward 2, onward 2, onward 2]

/-- The second of the two gets the second reply. -/
theorem reply_matches_pipelined :
    ∃ s, Transition.run Streams.step Streams.initial (openForWriting ++ pipelined) = some s ∧
      s.pcs 2 = .streamed (marked 20) ∧ ∃ id kind request, s.calls 2 = .transfer kind request ∧
        ⟨2, some id, request, marked 20⟩ ∈ s.executed := by
  obtain ⟨s, hrun, hpc⟩ : ∃ s, Transition.run Streams.step Streams.initial
      (openForWriting ++ pipelined) = some s ∧ s.pcs 2 = .streamed (marked 20) := ⟨_, rfl, rfl⟩
  exact ⟨s, hrun, hpc, reply_matches hrun (Or.inr hpc)⟩

end RSafeFS.SyncClient
