import RSafeFS.SyncClient.Matching

/-!
# Streams of failed opens

`open` and `create` ask for streams whenever the server's result is not `-1`. The server
returns a failed `open` as the negated error number, and only that of `EPERM` is `-1`, so
every other failed open leaves streams in the client that no release will remove. The runs of
this file record how calls are answered and when they end.
-/

namespace RSafeFS.SyncClient

/-- What a call has seen: the result of an `open` or `create`, the answer to a `read` or
`write`, the answer to a `release`, before it removes the streams, and its end. -/
inductive CallEvent where
  | answered (c : ℕ) (res : ℤ)
  | transferred (c : ℕ)
  | releasing (c : ℕ)
  | ended (c : ℕ)
  deriving DecidableEq, Repr

/-- The call is over. -/
def Pc.isOver : Pc → Bool
  | .streamed _ | .returned _ => true
  | _ => false

/-- The answer that a call takes in its next step. -/
def answerOf (s : Streams) (c : ℕ) (ok : Bool) (res : ℤ) : List CallEvent :=
  match s.pcs c, s.calls c with
  | .calling, .open _ _ => if ok then [.answered c res] else []
  | .calling, .release _ => if ok then [.releasing c] else []
  | .served _, _ => if ok then [.transferred c] else []
  | .replied _ _, _ => [.transferred c]
  | _, _ => []

/-- The events of a step, the latest first. -/
def eventsOf (s t : Streams) : Action → List CallEvent
  | .advance c ok res => (if (t.pcs c).isOver then [.ended c] else []) ++ answerOf s c ok res
  | _ => []

/-- The client with a record of its calls, the latest event first. -/
structure Observed where
  streams : Streams
  history : List CallEvent

/-- The client as constructed. -/
def Observed.initial : Observed := ⟨.initial, []⟩

/-- A step, with its events. -/
def Observed.step (o : Observed) (a : Action) : Option Observed :=
  (o.streams.step a).map fun t => ⟨t, eventsOf o.streams t a ++ o.history⟩

/-- The call is an `open` or `create` that succeeded, or a `read` or `write` that was answered. -/
def Succeeded (history : List CallEvent) (c : ℕ) : Prop :=
  (∃ res, 0 ≤ res ∧ .answered c res ∈ history) ∨ .transferred c ∈ history

/-- The call is an `open` or `create` that failed. -/
def Refused (history : List CallEvent) (c : ℕ) : Prop :=
  ∃ res, res < 0 ∧ .answered c res ∈ history

/-- The call was over when the release was answered. -/
def EndedBefore (history : List CallEvent) (c r : ℕ) : Prop :=
  ∃ later earlier, history = later ++ .releasing r :: earlier ∧ .ended c ∈ earlier

/-- Some call of the path succeeded since every release of it that has succeeded and ended. -/
def Justified (o : Observed) (path : PathName) : Prop :=
  ∃ c, (o.streams.calls c).path = path ∧ Succeeded o.history c ∧
    ∀ r, o.streams.calls r = .release path → .releasing r ∈ o.history → .ended r ∈ o.history →
      ¬ EndedBefore o.history c r

/-- The step adds a stream for an `open` or `create` that failed. -/
def AddsForRefused (o : Observed) : Action → Prop
  | .advance c _ _ => Refused o.history c ∧ ∃ kind todo reply,
      o.streams.pcs c = .creating (kind :: todo) reply ∧
        o.streams.table kind (o.streams.calls c).path = none
  | _ => False

variable {s t : Streams} {c : ℕ} {ok : Bool} {res : ℤ}

/-- Where a call is after it has moved. -/
theorem goto_pcs {pc : Pc} : (s.goto c pc).pcs c = pc := Function.update_self _ _ _

theorem goto_inj {pc pc' : Pc} (h : some (s.goto c pc) = some (s.goto c pc')) : pc = pc' := by
  have hpc : (s.goto c pc).pcs c = pc := goto_pcs
  rw [← hpc, Option.some.inj h, goto_pcs]

/-- A call takes its step while the behaviour is defined. -/
theorem advance_of_step (hstep : s.step (.advance c ok res) = some t) :
    s.advance c ok res (s.pcs c) = some t := by
  unfold Streams.step at hstep
  split at hstep
  · cases hstep
  · exact hstep

/-- A call that takes a step has been made and is not over. -/
theorem running_of_step (hstep : s.step (.advance c ok res) = some t) :
    s.pcs c ≠ .unstarted ∧ (s.pcs c).isOver = false := by
  have hadvance := advance_of_step hstep
  cases hpc : s.pcs c with
  | unstarted | streamed | returned =>
    rw [hpc] at hadvance
    cases hadvance
  | _ => exact ⟨nofun, rfl⟩

/-- One critical section of `remove_streams` leaves its table without the path. -/
theorem removing_step {kind : Kind} {todo : List Kind} {retry : Bool}
    (hpc : s.pcs c = .removing (kind :: todo) retry)
    (hstep : s.step (.advance c ok res) = some t) :
    t.pcs c = .removing todo retry ∧ t.table kind (s.calls c).path = none := by
  have hadvance := advance_of_step hstep
  simp only [hpc, Streams.advance, Streams.remove] at hadvance
  split at hadvance
  · next hnone =>
    obtain rfl := Option.some.inj hadvance
    exact ⟨Function.update_self _ _ _, hnone⟩
  · next id hid =>
    split at hadvance
    · obtain rfl := Option.some.inj hadvance
      refine ⟨Function.update_self _ _ _, ?_⟩
      change (s.link kind (s.calls c).path none).table kind (s.calls c).path = none
      rw [link_table, if_pos ⟨rfl, rfl⟩]
    · cases hadvance

/-- One critical section of `create_streams` adds an entry where there is none. -/
theorem creating_step {kind : Kind} {todo : List Kind} {reply : Option Reply}
    (hpc : s.pcs c = .creating (kind :: todo) reply)
    (hstep : s.step (.advance c ok res) = some t) :
    t.pcs c = .creating todo reply ∧ t.misused = s.misused ∧ t.calls = s.calls ∧
      ∀ kind' path, t.table kind' path =
        if kind' = kind ∧ path = (s.calls c).path ∧ s.table kind path = none then some s.next
        else s.table kind' path := by
  have hadvance := advance_of_step hstep
  simp only [hpc, Streams.advance, Streams.tryEmplace] at hadvance
  split at hadvance
  · next id hid =>
    obtain rfl := Option.some.inj hadvance
    refine ⟨Function.update_self _ _ _, rfl, rfl, fun kind' path => ?_⟩
    rw [if_neg]
    · rfl
    · rintro ⟨-, rfl, hnone⟩
      rw [hid] at hnone
      cases hnone
  · next hnone =>
    obtain rfl := Option.some.inj hadvance
    refine ⟨Function.update_self _ _ _, rfl, rfl, fun kind' path => ?_⟩
    change (s.link kind (s.calls c).path (some s.next)).table kind' path = _
    rw [link_table]
    by_cases hsame : kind' = kind ∧ path = (s.calls c).path
    · obtain ⟨rfl, rfl⟩ := hsame
      rw [if_pos ⟨rfl, rfl⟩, if_pos ⟨rfl, rfl, hnone⟩]
    · rw [if_neg hsame, if_neg fun h => hsame ⟨h.1, h.2.1⟩]

/-- A table changes in the critical sections only. -/
theorem table_of_step {a : Action} (hstep : s.step a = some t) {kind : Kind} {path : PathName}
    {id : ℕ} (hid : t.table kind path = some id) :
    s.table kind path = some id ∨ ∃ c ok res todo reply, a = .advance c ok res ∧
      s.pcs c = .creating (kind :: todo) reply ∧ (s.calls c).path = path ∧
      s.table kind path = none := by
  have hcopy := hstep
  cases steps_of_step hcopy with
  | @erase c id' ok res kind' todo retry hpc =>
    left
    change (s.link kind' (s.calls c).path none).table kind path = some id at hid
    rw [link_table] at hid
    split at hid
    · cases hid
    · exact hid
  | @emplace c ok res kind' todo reply hpc =>
    obtain ⟨-, -, -, htable⟩ := creating_step hpc hstep
    rw [htable] at hid
    split at hid
    · next hsame =>
      obtain ⟨rfl, rfl, hnone⟩ := hsame
      exact Or.inr ⟨c, ok, res, todo, reply, rfl, hpc, rfl, hnone⟩
    · exact Or.inl hid
  | _ => exact Or.inl hid

/-- `create_streams` without other steps in between. It adds to no table in which the path
already is, and to each of the others. -/
theorem creating_run {todo : List Kind} {reply : Option Reply} (hmisused : s.misused = false)
    (hpc : s.pcs c = .creating todo reply) :
    ∃ t, Transition.run Streams.step s (List.replicate (todo.length + 1) (onward c)) = some t ∧
      t.pcs c = .returned reply ∧
      (∀ kind path, s.table kind path ≠ none → t.table kind path = s.table kind path) ∧
      (t.table = s.table ↔ ∀ kind ∈ todo, s.table kind (s.calls c).path ≠ none) := by
  induction todo generalizing s with
  | nil =>
    refine ⟨s.goto c (.returned reply), ?_, Function.update_self _ _ _, fun _ _ _ => rfl, ?_⟩
    · simp [Transition.run, Streams.step, onward, hmisused, hpc, Streams.advance]
    · exact iff_of_true rfl (by simp)
  | cons kind todo ih =>
    have hfirst : s.step (onward c) =
        some (s.tryEmplace c kind (s.calls c).path (.creating todo reply)) := by
      simp [Streams.step, onward, hmisused, hpc, Streams.advance]
    obtain ⟨hpc', hmisused', hcalls, htable⟩ := creating_step hpc hfirst
    obtain ⟨t, hrun, hover, hkept, hiff⟩ := ih (hmisused'.trans hmisused) hpc'
    rw [hcalls] at hiff
    have hsame : ∀ kind' path, s.table kind' path ≠ none →
        (s.tryEmplace c kind (s.calls c).path (.creating todo reply)).table kind' path =
          s.table kind' path := by
      intro kind' path hpresent
      rw [htable, if_neg]
      rintro ⟨rfl, -, hnone⟩
      exact hpresent hnone
    refine ⟨t, Transition.run_cons.mpr ⟨_, hfirst, hrun⟩, hover, fun kind' path hpresent => ?_, ?_⟩
    · rw [hkept kind' path (by rwa [hsame kind' path hpresent]), hsame kind' path hpresent]
    · by_cases hpresent : s.table kind (s.calls c).path = none
      · -- The new entry stays.
        have hnew : t.table kind (s.calls c).path = some s.next := by
          rw [hkept, htable, if_pos ⟨rfl, rfl, hpresent⟩]
          rw [htable, if_pos ⟨rfl, rfl, hpresent⟩]
          exact Option.some_ne_none _
        refine iff_of_false (fun heq => ?_) fun hall => hall kind List.mem_cons_self hpresent
        rw [heq, hpresent] at hnew
        cases hnew
      · have hall : (s.tryEmplace c kind (s.calls c).path (.creating todo reply)).table = s.table := by
          funext kind' path
          rw [htable, if_neg]
          rintro ⟨rfl, rfl, hnone⟩
          exact hpresent hnone
        rw [hall] at hiff
        rw [hiff, List.forall_mem_cons]
        exact (and_iff_right hpresent).symm

/-- An `open` or `create` that is answered, made in any state, leaves the tables as they are
exactly if its result is `-1` or they hold what its flags ask for. -/
theorem open_run (hmisused : s.misused = false) (hpc : s.pcs c = .unstarted)
    (path : PathName) (flags : ℤ) (res : ℤ) :
    ∃ n t, Transition.run Streams.step s (.start c (.open path flags) :: .advance c true res ::
        List.replicate n (onward c)) = some t ∧ t.pcs c = .returned none ∧
      (t.table = s.table ↔
        res = -1 ∨ ∀ kind ∈ streamKinds flags, s.table kind path ≠ none) := by
  let m := { s with calls := Function.update s.calls c (.open path flags) }.goto c .calling
  have hstart : s.step (.start c (.open path flags)) = some m := by
    simp [Streams.step, hmisused, hpc, m]
  by_cases hperm : res = -1
  · have hanswer : m.step (.advance c true res) = some (m.goto c (.returned none)) := by
      simp [Streams.step, Streams.advance, Streams.answer, Streams.goto, m, hmisused, hperm]
    refine ⟨0, m.goto c (.returned none), ?_, Function.update_self _ _ _,
      iff_of_true rfl (Or.inl hperm)⟩
    exact Transition.run_cons.mpr ⟨m, hstart, Transition.run_cons.mpr ⟨_, hanswer, rfl⟩⟩
  · have hanswer : m.step (.advance c true res) =
        some (m.goto c (.creating (streamKinds flags) none)) := by
      simp [Streams.step, Streams.advance, Streams.answer, Streams.goto, m, hmisused, hperm]
    obtain ⟨t, hrun, hover, -, hiff⟩ := creating_run (c := c)
      (s := m.goto c (.creating (streamKinds flags) none)) hmisused (Function.update_self _ _ _)
    have hpath : ((m.goto c (.creating (streamKinds flags) none)).calls c).path = path := by
      simp [Streams.goto, m, Call.path]
    rw [hpath] at hiff
    refine ⟨_, t, Transition.run_cons.mpr ⟨m, hstart, Transition.run_cons.mpr ⟨_, hanswer, hrun⟩⟩,
      hover, ?_⟩
    rw [or_iff_right hperm]
    exact hiff

/-- The call that an event is of. -/
def CallEvent.call : CallEvent → ℕ
  | .answered c _ | .transferred c | .releasing c | .ended c => c

/-- What an answer can be. -/
theorem answerOf_cases {event : CallEvent} (h : event ∈ answerOf s c ok res) :
    event = .answered c res ∨ event = .transferred c ∨
      event = .releasing c ∧ s.pcs c = .calling ∧ (∃ path, s.calls c = .release path) ∧
        ok = true := by
  unfold answerOf at h
  split at h
  · split at h
    · exact Or.inl (List.mem_singleton.mp h)
    · cases h
  · next path hpc hcall =>
    split at h
    · next hok => exact Or.inr (Or.inr ⟨List.mem_singleton.mp h, hpc, ⟨path, hcall⟩, hok⟩)
    · cases h
  · split at h
    · exact Or.inr (Or.inl (List.mem_singleton.mp h))
    · cases h
  · exact Or.inr (Or.inl (List.mem_singleton.mp h))
  · cases h

/-- The events of a step are those of the call that takes it: its end, or an answer. -/
theorem eventsOf_cases {a : Action} {event : CallEvent} (h : event ∈ eventsOf s t a) :
    ∃ ok res, a = .advance event.call ok res ∧
      (event = .ended event.call ∧ (t.pcs event.call).isOver = true ∨
        event ∈ answerOf s event.call ok res) := by
  cases a with
  | advance c ok res =>
    rcases List.mem_append.mp h with hended | hanswer
    · split at hended
      · next hover =>
        obtain rfl := List.mem_singleton.mp hended
        exact ⟨ok, res, rfl, Or.inl ⟨rfl, hover⟩⟩
      · cases hended
    · have hcall : event.call = c := by
        rcases answerOf_cases hanswer with rfl | rfl | ⟨rfl, -⟩ <;> rfl
      rw [hcall]
      exact ⟨ok, res, rfl, Or.inr hanswer⟩
  | _ => cases h

/-- A call that ends is over. -/
theorem isOver_of_mem {a : Action} (h : .ended c ∈ eventsOf s t a) :
    (t.pcs c).isOver = true := by
  obtain ⟨ok, res, -, ⟨-, hover⟩ | hanswer⟩ := eventsOf_cases h
  · exact hover
  · rcases answerOf_cases hanswer with heq | heq | ⟨heq, -⟩ <;> cases heq

/-- A release that is answered has both tables to go through. -/
theorem removing_of_mem {a : Action} {r : ℕ} (hstep : s.step a = some t)
    (h : .releasing r ∈ eventsOf s t a) : t.pcs r = .removing [.read, .write] false := by
  obtain ⟨ok, res, rfl, ⟨heq, -⟩ | hanswer⟩ := eventsOf_cases h
  · cases heq
  · rcases answerOf_cases hanswer with heq | heq | ⟨-, hpc, ⟨path, hcall⟩, rfl⟩
    · cases heq
    · cases heq
    · have hadvance := advance_of_step hstep
      rw [hpc] at hadvance
      simp only [CallEvent.call] at hcall
      simp only [CallEvent.call, Streams.advance, Streams.answer, hcall, if_true] at hadvance
      obtain rfl := Option.some.inj hadvance
      exact goto_pcs

/-- A call moves by its own steps, or where it is made or served. -/
theorem moved_of_step {a : Action} (hstep : s.step a = some t) (c : ℕ) :
    t.pcs c = s.pcs c ∨ (∃ ok res, a = .advance c ok res) ∨
      (s.pcs c = .unstarted ∧ (t.pcs c = .looking ∨ t.pcs c = .calling)) ∨
      (s.pcs c = .calling ∧ ∃ reply, t.pcs c = .served reply) := by
  cases steps_of_step hstep with
  | @started c' call pc hpc hplace =>
    by_cases heq : c = c'
    · subst heq
      refine Or.inr (Or.inr (Or.inl ⟨hpc, ?_⟩))
      simpa [Streams.goto] using hplace
    · exact Or.inl (Function.update_of_ne heq _ _)
  | @serve c' reply kind request hpc hcall =>
    by_cases heq : c = c'
    · subst heq
      exact Or.inr (Or.inr (Or.inr ⟨hpc, reply, Function.update_self _ _ _⟩))
    · exact Or.inl (Function.update_of_ne heq _ _)
  | misuse => exact Or.inl rfl
  | @move c' ok res | @lockWrite c' _ ok res | @write c' _ ok res | @unlockWriteFailed c' _ ok res
  | @lockRead c' _ ok res | @unlockWrite c' _ ok res | @read c' _ _ ok res
  | @readFailed c' _ ok res | @unlockReadFailed c' _ ok res | @unlockReplied c' _ ok res
  | @erase c' _ ok res | @emplace c' ok res =>
    by_cases heq : c = c'
    · subst heq
      exact Or.inr (Or.inl ⟨ok, res, rfl⟩)
    · exact Or.inl (Function.update_of_ne heq _ _)
  | accept | receive | sent | close | broke => exact Or.inl rfl

/-- A call that is over stays where it is. -/
theorem over_of_step {a : Action} (hstep : s.step a = some t) (hover : (s.pcs c).isOver = true) :
    t.pcs c = s.pcs c := by
  obtain hsame | ⟨ok, res, rfl⟩ | ⟨hpc, -⟩ | ⟨hpc, -⟩ := moved_of_step hstep c
  · exact hsame
  · have hrunning := (running_of_step hstep).2
    rw [hover] at hrunning
    cases hrunning
  · rw [hpc] at hover
    cases hover
  · rw [hpc] at hover
    cases hover

/-- A call that creates streams has been answered. -/
theorem answered_of_creating {a : Action} (hstep : s.step a = some t) {todo : List Kind}
    {reply : Option Reply} (hpc : t.pcs c = .creating todo reply) :
    (∃ todo' reply', s.pcs c = .creating todo' reply') ∨ Succeeded (eventsOf s t a) c ∨
      Refused (eventsOf s t a) c := by
  obtain hsame | ⟨ok, res, rfl⟩ | ⟨-, hstarted⟩ | ⟨-, reply', hserved⟩ := moved_of_step hstep c
  · exact Or.inl ⟨todo, reply, by rw [← hsame, hpc]⟩
  · have hevents : eventsOf s t (.advance c ok res) = answerOf s c ok res := by
      simp [eventsOf, hpc, Pc.isOver]
    rw [hevents]
    cases steps_of_step hstep with
    | move hwas hmove =>
      have hadvance := advance_of_step hstep
      rw [goto_pcs] at hpc
      subst hpc
      cases hmove with
      | opened =>
        rw [hwas] at hadvance
        simp only [Streams.advance, Streams.answer] at hadvance
        split at hadvance
        · split at hadvance
          · cases hadvance
          · cases goto_inj hadvance
        · next path flags hcall =>
          have hplace := goto_inj hadvance
          split at hplace
          · next hok =>
            have hanswer : .answered c res ∈ answerOf s c ok res := by
              simp [answerOf, hwas, hcall, hok.1]
            rcases lt_or_ge res 0 with hnegative | hnonneg
            · exact Or.inr (Or.inr ⟨res, hnegative, hanswer⟩)
            · exact Or.inr (Or.inl (Or.inl ⟨res, hnonneg, hanswer⟩))
          · cases hplace
        · have hplace := goto_inj hadvance
          split at hplace <;> cases hplace
      | answered =>
        rw [hwas] at hadvance
        simp only [Streams.advance] at hadvance
        split at hadvance
        · have hplace := goto_inj hadvance
          split at hplace
          · next hok => exact Or.inr (Or.inl (Or.inr (by simp [answerOf, hwas, hok])))
          · cases hplace
        · cases hadvance
      | present => exact Or.inl ⟨_, _, hwas⟩
    | emplace hwas => exact Or.inl ⟨_, _, hwas⟩
    | misuse => exact Or.inl ⟨todo, reply, hpc⟩
    | _ =>
      rw [goto_pcs] at hpc
      cases hpc
  · rw [hpc] at hstarted
    rcases hstarted with h | h <;> cases h
  · rw [hpc] at hserved
    cases hserved

section Histories

variable {events history : List CallEvent} {r : ℕ}

theorem Succeeded.append (h : Succeeded history c) : Succeeded (events ++ history) c := by
  rcases h with ⟨res, hres, hmem⟩ | hmem
  · exact Or.inl ⟨res, hres, List.mem_append_right _ hmem⟩
  · exact Or.inr (List.mem_append_right _ hmem)

theorem Succeeded.append_left (h : Succeeded events c) : Succeeded (events ++ history) c := by
  rcases h with ⟨res, hres, hmem⟩ | hmem
  · exact Or.inl ⟨res, hres, List.mem_append_left _ hmem⟩
  · exact Or.inr (List.mem_append_left _ hmem)

theorem Refused.append (h : Refused history c) : Refused (events ++ history) c := by
  obtain ⟨res, hres, hmem⟩ := h
  exact ⟨res, hres, List.mem_append_right _ hmem⟩

theorem Refused.append_left (h : Refused events c) : Refused (events ++ history) c := by
  obtain ⟨res, hres, hmem⟩ := h
  exact ⟨res, hres, List.mem_append_left _ hmem⟩

/-- A call that has succeeded has an event. -/
theorem Succeeded.exists_mem (h : Succeeded history c) : ∃ event ∈ history, event.call = c := by
  rcases h with ⟨res, _, hmem⟩ | hmem
  · exact ⟨_, hmem, rfl⟩
  · exact ⟨_, hmem, rfl⟩

/-- A call that was over when a release was answered has ended. -/
theorem EndedBefore.mem (h : EndedBefore history c r) : .ended c ∈ history := by
  obtain ⟨later, earlier, rfl, hmem⟩ := h
  exact List.mem_append_right _ (List.mem_cons_of_mem _ hmem)

/-- Events of a step in which the release is not answered leave the order as it is. -/
theorem EndedBefore.of_append (h : EndedBefore (events ++ history) c r)
    (hnot : .releasing r ∉ events) : EndedBefore history c r := by
  induction events with
  | nil => exact h
  | cons event events ih =>
    refine ih ?_ fun hmem => hnot (List.mem_cons_of_mem _ hmem)
    obtain ⟨later, earlier, heq, hmem⟩ := h
    cases later with
    | nil =>
      obtain ⟨rfl, -⟩ := List.cons.inj heq
      exact absurd List.mem_cons_self hnot
    | cons first later => exact ⟨later, earlier, (List.cons.inj heq).2, hmem⟩

end Histories

/-- A call that accounts for an entry: one of the path that has succeeded, and had not ended when
a release was answered that has been through the table. -/
structure Explains (o : Observed) (kind : Kind) (path : PathName) (c : ℕ) : Prop where
  about : (o.streams.calls c).path = path
  succeeded : Succeeded o.history c
  since : ∀ r, o.streams.calls r = .release path → .releasing r ∈ o.history →
    (∀ todo, o.streams.pcs r = .removing todo false → kind ∉ todo) → ¬ EndedBefore o.history c r

/-- The invariant of a run. -/
structure Traced (o : Observed) : Prop where
  begun : ∀ event ∈ o.history, o.streams.pcs event.call ≠ .unstarted
  ended : ∀ c, .ended c ∈ o.history → (o.streams.pcs c).isOver = true
  creating : ∀ c todo reply, o.streams.pcs c = .creating todo reply →
    Succeeded o.history c ∨ Refused o.history c
  entries : ∀ kind path id, o.streams.table kind path = some id → ∃ c, Explains o kind path c

variable {o o' : Observed} {a : Action}

/-- The client's step and the events of a step. -/
theorem Observed.step_eq_some (hstep : o.step a = some o') :
    o.streams.step a = some o'.streams ∧
      o'.history = eventsOf o.streams o'.streams a ++ o.history := by
  obtain ⟨t, ht, rfl⟩ := Option.map_eq_some_iff.mp hstep
  exact ⟨ht, rfl⟩

/-- A call of the path that accounts for an entry does so as long as the entry is there. -/
theorem Explains.step {kind : Kind} {path : PathName} {id : ℕ} (h : Explains o kind path c)
    (hbegun : ∀ event ∈ o.history, o.streams.pcs event.call ≠ .unstarted)
    (hstep : o.step a = some o') (hid : o'.streams.table kind path = some id) :
    Explains o' kind path c := by
  obtain ⟨hstreams, hhistory⟩ := Observed.step_eq_some hstep
  have hcalls : ∀ event ∈ o.history,
      o'.streams.calls event.call = o.streams.calls event.call := fun event hmem =>
    (started_step hstreams (hbegun event hmem)).2
  refine ⟨?_, by rw [hhistory]; exact h.succeeded.append, fun r hcall hmem hdone hbefore => ?_⟩
  · obtain ⟨event, hmem, rfl⟩ := h.succeeded.exists_mem
    rw [hcalls event hmem, h.about]
  · rw [hhistory] at hmem hbefore
    by_cases hnow : .releasing r ∈ eventsOf o.streams o'.streams a
    · -- The release has just been answered, so it has not been through the table.
      refine hdone _ (removing_of_mem hstreams hnow) ?_
      cases kind <;> simp
    · have hthen := (List.mem_append.mp hmem).resolve_left hnow
      have hcall' : o.streams.calls r = .release path := (hcalls _ hthen).symm.trans hcall
      refine h.since r hcall' hthen (fun todo hpc hkind => ?_) (hbefore.of_append hnow)
      -- The release is on its way to the table, and leaves it without the path.
      obtain hsame | ⟨ok, res, rfl⟩ | ⟨hwas, -⟩ | ⟨hwas, -⟩ := moved_of_step hstreams r
      · exact hdone todo (hsame.trans hpc) hkind
      · cases todo with
        | nil => cases hkind
        | cons kind' todo =>
          obtain ⟨hpc', hnone⟩ := removing_step hpc hstreams
          rcases List.mem_cons.mp hkind with rfl | hlater
          · rw [hcall', Call.path, hid] at hnone
            cases hnone
          · exact hdone todo hpc' hlater
      · rw [hpc] at hwas
        cases hwas
      · rw [hpc] at hwas
        cases hwas

/-- **Step lemma.** A step that adds no stream for a failed call keeps the invariant. -/
theorem Traced.step (h : Traced o) (hadds : ¬ AddsForRefused o a) (hstep : o.step a = some o') :
    Traced o' := by
  obtain ⟨hstreams, hhistory⟩ := Observed.step_eq_some hstep
  have hover : ∀ c, .ended c ∈ o'.history → (o'.streams.pcs c).isOver = true := by
    intro c hmem
    rw [hhistory] at hmem
    rcases List.mem_append.mp hmem with hnow | hthen
    · exact isOver_of_mem hnow
    · rw [over_of_step hstreams (h.ended c hthen)]
      exact h.ended c hthen
  refine ⟨fun event hmem => ?_, hover, fun c todo reply hpc => ?_, fun kind path id hid => ?_⟩
  · rw [hhistory] at hmem
    rcases List.mem_append.mp hmem with hnow | hthen
    · obtain ⟨ok, res, rfl, -⟩ := eventsOf_cases hnow
      exact (started_step hstreams (running_of_step hstreams).1).1
    · exact (started_step hstreams (h.begun event hthen)).1
  · rw [hhistory]
    obtain ⟨todo', reply', hwas⟩ | hsucceeded | hrefused := answered_of_creating hstreams hpc
    · exact (h.creating c todo' reply' hwas).imp Succeeded.append Refused.append
    · exact Or.inl hsucceeded.append_left
    · exact Or.inr hrefused.append_left
  · rcases table_of_step hstreams hid with hold | ⟨c, ok, res, todo, reply, rfl, hpc, rfl, hnone⟩
    · obtain ⟨c, hexplains⟩ := h.entries kind path id hold
      exact ⟨c, hexplains.step h.begun hstep hid⟩
    · obtain ⟨hpc', -, hcalls, -⟩ := creating_step hpc hstreams
      have hsucceeded : Succeeded o.history c :=
        (h.creating c _ reply hpc).resolve_right fun hrefused =>
          hadds ⟨hrefused, kind, todo, reply, hpc, hnone⟩
      refine ⟨c, by rw [hcalls], by rw [hhistory]; exact hsucceeded.append,
        fun r _ _ _ hbefore => ?_⟩
      -- The call that adds the entry has not ended.
      have hended := hover c hbefore.mem
      rw [hpc'] at hended
      cases hended

theorem traced_initial : Traced .initial := ⟨nofun, nofun, nofun, nofun⟩

/-- In a state of the invariant every entry is justified. -/
theorem Traced.justified (h : Traced o) {kind : Kind} {path : PathName} {id : ℕ}
    (hid : o.streams.table kind path = some id) : Justified o path := by
  obtain ⟨c, hexplains⟩ := h.entries kind path id hid
  refine ⟨c, hexplains.about, hexplains.succeeded, fun r hcall hmem hended => ?_⟩
  refine hexplains.since r hcall hmem fun todo hpc => ?_
  have hover := h.ended r hended
  rw [hpc] at hover
  cases hover

/-- **Failed opens.** In every state of a run, an `open` or `create` with a negative result leaves
the tables as they are exactly if the result is `-1` or they hold the streams that its flags ask
for. If no step of the run adds a stream for a failed call, a path has an entry only if a call of
it has succeeded since its last release. -/
theorem entries_justified {actions : List Action} {o : Observed}
    (hrun : Transition.run Observed.step .initial actions = some o) :
    (∀ (c : ℕ) (path : PathName) (flags res : ℤ), o.streams.misused = false →
      o.streams.pcs c = .unstarted → res < 0 →
      ∃ n t, Transition.run Streams.step o.streams (.start c (.open path flags) ::
          .advance c true res :: List.replicate n (onward c)) = some t ∧
        t.pcs c = .returned none ∧
        (t.table = o.streams.table ↔
          res = -1 ∨ ∀ kind ∈ streamKinds flags, o.streams.table kind path ≠ none)) ∧
    (Transition.Meets Observed.step (fun o a => ¬ AddsForRefused o a) .initial actions →
      ∀ kind path id, o.streams.table kind path = some id → Justified o path) := by
  refine ⟨fun c path flags res hmisused hpc _ => open_run hmisused hpc path flags res,
    fun hmeets kind path id hid => ?_⟩
  have htraced := Transition.invariant (fun o a o' h hadds hstep => Traced.step h hadds hstep) hrun
    hmeets traced_initial
  exact htraced.justified hid

/-- The path is opened for reading, as call 0, and released, as call 1, and then opened again,
as call 2. -/
def openedAgain : List Action :=
  [.start 0 (.open ['/', 'f'] 0), onward 0, onward 0, onward 0,
    .start 1 (.release ['/', 'f']), onward 1, onward 1, onward 1, onward 1,
    .start 2 (.open ['/', 'f'] 0), onward 2, onward 2, onward 2]

/-- The third call accounts for the entry that is left, and another `open` that fails leaves the
tables as they are. -/
theorem entries_justified_openedAgain :
    ∃ o n t, Transition.run Observed.step .initial openedAgain = some o ∧
      o.streams.table .read ['/', 'f'] = some 1 ∧ Justified o ['/', 'f'] ∧
      Transition.run Streams.step o.streams (.start 3 (.open ['/', 'f'] 0) ::
        .advance 3 true (-2) :: List.replicate n (onward 3)) = some t ∧
      t.table = o.streams.table := by
  obtain ⟨o, hrun, hid, hpc, hmisused⟩ : ∃ o, Transition.run Observed.step .initial openedAgain =
      some o ∧ o.streams.table .read ['/', 'f'] = some 1 ∧ o.streams.pcs 3 = .unstarted ∧
      o.streams.misused = false := ⟨_, rfl, rfl, rfl, rfl⟩
  obtain ⟨n, t, hopen, -, hiff⟩ :=
    (entries_justified hrun).1 3 ['/', 'f'] 0 (-2) hmisused hpc (by decide)
  refine ⟨o, n, t, hrun, hid, (entries_justified hrun).2 ?_ .read _ 1 hid, hopen,
    hiff.mpr (Or.inr fun kind hkind => ?_)⟩
  · have hpcs : ∀ {o : Observed} {c : ℕ} {pc : Pc}, o.streams.pcs c = pc →
        (∀ kind todo reply, pc ≠ .creating (kind :: todo) reply) →
        ¬ AddsForRefused o (onward c) := by
      rintro o c pc hpc hne ⟨-, kind, todo, reply, hcreating, -⟩
      exact hne kind todo reply (hpc.symm.trans hcreating)
    refine .cons id rfl (.cons (hpcs rfl nofun) rfl (.cons ?_ rfl (.cons (hpcs rfl nofun) rfl
      (.cons id rfl (.cons (hpcs rfl nofun) rfl (.cons (hpcs rfl nofun) rfl
        (.cons (hpcs rfl nofun) rfl (.cons (hpcs rfl nofun) rfl (.cons id rfl
          (.cons (hpcs rfl nofun) rfl (.cons ?_ rfl (.cons (hpcs rfl nofun) rfl trivial))))))))))))
    · rintro ⟨hrefused, -⟩
      change Refused [.answered 0 0] 0 at hrefused
      simp [Refused] at hrefused
    · rintro ⟨hrefused, -⟩
      change Refused [.answered 2 0, .ended 1, .releasing 1, .ended 0, .answered 0 0] 2 at hrefused
      simp [Refused] at hrefused
  · obtain rfl := List.mem_singleton.mp hkind
    rw [hid]
    exact Option.some_ne_none 1

/-- An `open` that fails for lack of the file leaves a stream that no call of its path accounts
for. -/
theorem not_entries_justified : ¬ ∀ (actions : List Action) (o : Observed),
    Transition.run Observed.step .initial actions = some o →
    ∀ kind path id, o.streams.table kind path = some id → Justified o path := by
  intro hall
  obtain ⟨c, -, hsucceeded, -⟩ := hall
    [.start 0 (.open ['/', 'f'] 0), .advance 0 true (-2), onward 0, onward 0] _ rfl .read
    ['/', 'f'] 0 rfl
  change Succeeded [.ended 0, .answered 0 (-2)] c at hsucceeded
  rcases hsucceeded with ⟨res, hres, hmem⟩ | hmem
  · obtain ⟨rfl, rfl⟩ : c = 0 ∧ res = -2 := by simpa using hmem
    exact absurd hres (by decide)
  · simp at hmem

end RSafeFS.SyncClient
