import RSafeFS.SyncClient.Tables

/-!
# No deadlock in the synchronous client

The invariants of `Locks` say what a call holds. For progress the converse is needed: a lock that
is held is held by a call at a place where it holds it, so that whoever waits for the lock can
be told which call to wait for. The chains end at calls that can go on and at handlers that
have a request to serve or a reply to send.
-/

namespace RSafeFS.SyncClient

variable {s t : Streams}

/-- A lock that is held is held by a call that is where it holds the lock. -/
structure Held (s : Streams) : Prop where
  write : ∀ id c, (s.entries id).mtxWrite = some c → (s.pcs c).holdsWrite = some id
  read : ∀ id c, (s.entries id).mtxRead = some c → (s.pcs c).holdsRead = some id

/-- A step of a call on one entry keeps the invariant if the call held locks of no other, and each
lock of the entry is let go, is taken by the call, or stays with its holder. -/
theorem Held.of_step (h : Held s) {c id : ℕ} {pc pc' : Pc} {e : Entry} (hpc : s.pcs c = pc)
    (hpcs : t.pcs = Function.update s.pcs c pc')
    (hentries : t.entries = Function.update s.entries id e) (honly : ∀ id', pc.Holds id' → id' = id)
    (hwrite : e.mtxWrite = none ∨ (e.mtxWrite = some c ∧ pc'.holdsWrite = some id) ∨
      (e.mtxWrite = (s.entries id).mtxWrite ∧
        (pc.holdsWrite = some id → pc'.holdsWrite = some id)))
    (hread : e.mtxRead = none ∨ (e.mtxRead = some c ∧ pc'.holdsRead = some id) ∨
      (e.mtxRead = (s.entries id).mtxRead ∧ (pc.holdsRead = some id → pc'.holdsRead = some id))) :
    Held t := by
  subst hpc
  constructor
  · intro id' c' hc'
    rw [hentries] at hc'
    rw [hpcs]
    by_cases hid : id' = id
    · subst hid
      rw [Function.update_self] at hc'
      rcases hwrite with hnone | ⟨hsome, hholds⟩ | ⟨hsame, hkeep⟩
      · simp [hnone] at hc'
      · obtain rfl := Option.some.inj (hsome.symm.trans hc')
        rwa [Function.update_self]
      · have hbefore := h.write id' c' (hsame ▸ hc')
        by_cases hc : c' = c
        · subst hc
          rw [Function.update_self]
          exact hkeep hbefore
        · rwa [Function.update_of_ne hc]
    · rw [Function.update_of_ne hid] at hc'
      have hbefore := h.write id' c' hc'
      have hne : c' ≠ c := by
        rintro rfl
        exact hid (honly id' (Or.inl hbefore))
      rwa [Function.update_of_ne hne]
  · intro id' c' hc'
    rw [hentries] at hc'
    rw [hpcs]
    by_cases hid : id' = id
    · subst hid
      rw [Function.update_self] at hc'
      rcases hread with hnone | ⟨hsome, hholds⟩ | ⟨hsame, hkeep⟩
      · simp [hnone] at hc'
      · obtain rfl := Option.some.inj (hsome.symm.trans hc')
        rwa [Function.update_self]
      · have hbefore := h.read id' c' (hsame ▸ hc')
        by_cases hc : c' = c
        · subst hc
          rw [Function.update_self]
          exact hkeep hbefore
        · rwa [Function.update_of_ne hc]
    · rw [Function.update_of_ne hid] at hc'
      have hbefore := h.read id' c' hc'
      have hne : c' ≠ c := by
        rintro rfl
        exact hid (honly id' (Or.inr hbefore))
      rwa [Function.update_of_ne hne]

/-- A step that changes neither a place nor a lock. -/
theorem Held.of_same (h : Held s) (hpcs : t.pcs = s.pcs)
    (hentries : ∀ id, (t.entries id).mtxWrite = (s.entries id).mtxWrite ∧
      (t.entries id).mtxRead = (s.entries id).mtxRead) : Held t := by
  constructor
  · intro id c hc
    rw [(hentries id).1] at hc
    rw [hpcs]
    exact h.write id c hc
  · intro id c hc
    rw [(hentries id).2] at hc
    rw [hpcs]
    exact h.read id c hc

/-- A change of an entry that leaves its locks as they are. -/
theorem Held.set (h : Held s) {s' : Streams} (hpcs : s'.pcs = s.pcs) (hentries : s'.entries = s.entries)
    {id : ℕ} {e : Entry} (hwrite : e.mtxWrite = (s.entries id).mtxWrite)
    (hread : e.mtxRead = (s.entries id).mtxRead) : Held (s'.set id e) := by
  apply h.of_same
  · exact hpcs
  · intro id'
    by_cases hid : id' = id
    · subst hid
      simp only [Streams.set, Function.update_self]
      exact ⟨hwrite, hread⟩
    · simp [Streams.set, Function.update_of_ne hid, hentries]

/-- A call without a lock moves. -/
theorem Held.goto (h : Held s) {s' : Streams} (hsame : s'.pcs = s.pcs ∧ s'.entries = s.entries)
    {c : ℕ} {pc : Pc} (hbefore : ∀ id, ¬ (s.pcs c).Holds id) : Held (s'.goto c pc) := by
  obtain ⟨hpcs, hentries⟩ := hsame
  have hne : ∀ {id c'}, (s.pcs c').Holds id → c' ≠ c := by
    rintro id c' hholds rfl
    exact hbefore id hholds
  constructor
  · intro id c' hc'
    have hholds := h.write id c' (hentries ▸ hc')
    simp only [Streams.goto, hpcs, Function.update_of_ne (hne (Or.inl hholds))]
    exact hholds
  · intro id c' hc'
    have hholds := h.read id c' (hentries ▸ hc')
    simp only [Streams.goto, hpcs, Function.update_of_ne (hne (Or.inr hholds))]
    exact hholds

/-- Every step keeps the holders where they hold their locks. -/
theorem Held.step (h : Held s) {a : Action} (hstep : s.step a = some t) : Held t := by
  cases steps_of_step hstep with
  | started hpc hplace =>
    apply h.goto
    · exact ⟨rfl, rfl⟩
    · simp [hpc]
  | @move c ok res pc pc' hpc hmove =>
    cases hmove with
    | @writeFailed id hbroken =>
      apply h.of_step (t := s.goto c (.writeFailed id)) hpc rfl (Function.update_eq_self id _).symm
      · simp
      · exact Or.inr (Or.inr ⟨rfl, fun hholds => hholds⟩)
      · exact Or.inr (Or.inr ⟨rfl, fun hholds => hholds⟩)
    | _ =>
      apply h.goto
      · exact ⟨rfl, rfl⟩
      · simp [hpc]
  | misuse huses herased => exact h.of_same rfl fun _ => ⟨rfl, rfl⟩
  | lockWrite hpc hfree =>
    apply h.of_step hpc rfl rfl
    · simp
    · exact Or.inr (Or.inl ⟨rfl, rfl⟩)
    · exact Or.inr (Or.inr ⟨rfl, nofun⟩)
  | write hpc hcall =>
    apply h.of_step hpc rfl rfl
    · simp
    · exact Or.inr (Or.inr ⟨rfl, fun hholds => hholds⟩)
    · exact Or.inr (Or.inr ⟨rfl, nofun⟩)
  | unlockWriteFailed hpc =>
    apply h.of_step hpc rfl rfl
    · simp
    · exact Or.inl rfl
    · exact Or.inr (Or.inr ⟨rfl, nofun⟩)
  | lockRead hpc hfree =>
    apply h.of_step hpc rfl rfl
    · simp
    · exact Or.inr (Or.inr ⟨rfl, fun hholds => hholds⟩)
    · exact Or.inr (Or.inl ⟨rfl, rfl⟩)
  | unlockWrite hpc =>
    apply h.of_step hpc rfl rfl
    · simp
    · exact Or.inl rfl
    · exact Or.inr (Or.inr ⟨rfl, fun hholds => hholds⟩)
  | read hpc hclient | readFailed hpc hclient hbroken =>
    apply h.of_step hpc rfl rfl
    · simp
    · exact Or.inr (Or.inr ⟨rfl, nofun⟩)
    · exact Or.inr (Or.inr ⟨rfl, fun hholds => hholds⟩)
  | unlockReadFailed hpc | unlockReplied hpc =>
    apply h.of_step hpc rfl rfl
    · simp
    · exact Or.inr (Or.inr ⟨rfl, nofun⟩)
    · exact Or.inl rfl
  | erase hpc hid hwrite hread =>
    apply h.of_step hpc rfl rfl
    · simp
    · exact Or.inl hwrite
    · exact Or.inl hread
  | emplace hpc =>
    apply h.of_step hpc rfl rfl
    · simp
    · exact Or.inl rfl
    · exact Or.inl rfl
  | serve hpc hcall =>
    apply h.goto
    · exact ⟨rfl, rfl⟩
    · simp [hpc]
  | accept | receive | sent | close | broke => refine h.set ?_ ?_ ?_ ?_ <;> rfl

/-- The call is a `read` or `write` by where it is. -/
def Pc.transfers : Pc → Bool
  | .looking | .found _ | .writing _ | .writeFailed _ | .written _ | .handing _ | .reading _
  | .readFailed _ | .replied _ _ | .streamed _ | .served _ => true
  | _ => false

/-- What a call is fits where it is. -/
def Typed (s : Streams) : Prop :=
  ∀ c, (s.pcs c).transfers = true → ∃ kind request, s.calls c = .transfer kind request

/-- A call moves to where it may be. -/
theorem Typed.goto (h : Typed s) {s' : Streams} (hsame : s'.pcs = s.pcs ∧ s'.calls = s.calls)
    {c : ℕ} {pc : Pc} (hpc : pc.transfers = true → ∃ kind request, s.calls c = .transfer kind request) :
    Typed (s'.goto c pc) := by
  obtain ⟨hpcs, hcalls⟩ := hsame
  intro c' hc'
  simp only [Streams.goto, hpcs, hcalls] at hc' ⊢
  by_cases heq : c' = c
  · subst heq
    rw [Function.update_self] at hc'
    exact hpc hc'
  · rw [Function.update_of_ne heq] at hc'
    exact h c' hc'

/-- Every step keeps calls where they may be. -/
theorem Typed.step (h : Typed s) {a : Action} (hstep : s.step a = some t) : Typed t := by
  have hsame {c : ℕ} {pc : Pc} (hpc : s.pcs c = pc) (htransfers : pc.transfers = true) :
      ∃ kind request, s.calls c = .transfer kind request := h c (by rw [hpc]; exact htransfers)
  cases steps_of_step hstep with
  | @started c call pc hpc hplace =>
    intro c' hc'
    simp only [Streams.goto] at hc' ⊢
    by_cases heq : c' = c
    · subst heq
      rw [Function.update_self] at hc' ⊢
      cases call with
      | transfer kind request => exact ⟨kind, request, rfl⟩
      | _ =>
        simp only [Streams.step, hpc, if_true] at hstep
        split at hstep
        · cases hstep
        · obtain rfl := goto_inj hstep
          cases hc'
    · rw [Function.update_of_ne heq] at hc' ⊢
      exact h c' hc'
  | move hpc hmove =>
    refine h.goto ⟨rfl, rfl⟩ ?_
    intro htransfers
    cases hmove with
    | found | writeFailed => exact hsame hpc rfl
    | _ => cases htransfers
  | lockWrite hpc | write hpc | lockRead hpc | unlockWrite hpc | readFailed hpc | read hpc
  | unlockReplied hpc => exact h.goto ⟨rfl, rfl⟩ fun _ => hsame hpc rfl
  | unlockWriteFailed | unlockReadFailed | erase | emplace =>
    refine h.goto ⟨rfl, rfl⟩ ?_
    intro htransfers
    cases htransfers
  | serve hpc hcall => exact h.goto ⟨rfl, rfl⟩ fun _ => ⟨_, _, hcall⟩
  | misuse | accept | receive | sent | close | broke => exact h

/-- The handler of a stream finishes only when the stream has been removed or has broken. -/
def Served (s : Streams) : Prop :=
  ∀ id, (s.entries id).handler = .finished → (s.entries id).erased = true ∨
    (s.entries id).broken = true

/-- A step on one entry after which its handler has not finished, or has been left alone. -/
theorem Served.of_step (h : Served s) {id : ℕ} {e : Entry}
    (hentries : t.entries = Function.update s.entries id e)
    (he : e.handler = .finished → e.erased = true ∨ e.broken = true) : Served t := by
  intro id' hid'
  rw [hentries] at hid' ⊢
  by_cases hid : id' = id
  · subst hid
    rw [Function.update_self] at hid' ⊢
    exact he hid'
  · rw [Function.update_of_ne hid] at hid' ⊢
    exact h id' hid'

/-- Every step keeps the handlers of streams in use at work. -/
theorem Served.step (h : Served s) {a : Action} (hstep : s.step a = some t) : Served t := by
  cases steps_of_step hstep with
  | started | move | misuse | serve => exact h
  | lockWrite | write | unlockWriteFailed | lockRead | unlockWrite | read | readFailed
  | unlockReadFailed | unlockReplied => exact h.of_step rfl (h _)
  | erase => exact h.of_step rfl fun _ => Or.inl rfl
  | emplace => exact h.of_step rfl nofun
  | accept | receive | sent => exact h.of_step rfl nofun
  | close hhandler =>
    simp only [Streams.step] at hstep
    split at hstep
    · cases hstep
    · split at hstep
      · next hready => exact h.of_step rfl fun _ => hready.2.2
      · cases hstep
  | broke => exact h.of_step rfl fun _ => Or.inr rfl

/-- Only its own steps move a call in `remove_streams`. -/
theorem pcs_of_removes {a : Action} (hstep : s.step a = some t) {c : ℕ} {kind : Kind}
    (hremoves : (s.pcs c).removes = some kind) (hother : ∀ ok res, a ≠ .advance c ok res) :
    t.pcs c = s.pcs c := by
  rcases moved_of_step hstep c with hsame | ⟨ok, res, ha⟩ | ⟨hpc, _⟩ | ⟨hpc, _⟩
  · exact hsame
  · exact absurd ha (hother ok res)
  · rw [hpc] at hremoves
    cases hremoves
  · rw [hpc] at hremoves
    cases hremoves

/-- What holds in every state of every run. -/
structure Ready (s : Tables) : Prop where
  known : Known s.streams
  locks : Locks s.streams
  queued : Queued s.streams
  held : Held s.streams
  typed : Typed s.streams
  served : Served s.streams
  waits : ∀ kind c, s.mtxStreams kind = some c → (s.streams.pcs c).removes = some kind

variable {m n : Tables}

theorem Ready.step (h : Ready m) {a : TableAction} (hstep : m.step a = some n) : Ready n := by
  cases tableSteps_of_step hstep with
  | @locked c kind hremoves hfree hused =>
    refine { h with waits := fun kind' c' hc' => ?_ }
    dsimp only at hc' ⊢
    by_cases hkind : kind' = kind
    · subst hkind
      rw [Function.update_self] at hc'
      obtain rfl := Option.some.inj hc'
      exact hremoves
    · rw [Function.update_of_ne hkind] at hc'
      exact h.waits kind' c' hc'
  | @removed c ok res kind t hremoves hlocked hact =>
    refine ⟨h.known.step hact, h.locks.step h.known hact, h.queued.step h.locks hact,
      h.held.step hact, h.typed.step hact, h.served.step hact, fun kind' c' hc' => ?_⟩
    dsimp only at hc' ⊢
    by_cases hkind : kind' = kind
    · subst hkind
      simp at hc'
    · rw [Function.update_of_ne hkind] at hc'
      have hbefore := h.waits kind' c' hc'
      rw [pcs_of_removes hact hbefore]
      · exact hbefore
      · intro ok' res' heq
        obtain ⟨rfl, _⟩ := Action.advance.inj heq
        exact hkind (Option.some.inj (hbefore.symm.trans hremoves))
  | @other a t hremoves hentry hact =>
    refine ⟨h.known.step hact, h.locks.step h.known hact, h.queued.step h.locks hact,
      h.held.step hact, h.typed.step hact, h.served.step hact, fun kind' c' hc' => ?_⟩
    have hbefore := h.waits kind' c' hc'
    rw [pcs_of_removes hact hbefore]
    · exact hbefore
    · intro ok res ha
      rw [hremoves c' ok res ha] at hbefore
      cases hbefore

theorem ready_initial : Ready Tables.initial where
  known := known_initial
  locks := locks_initial
  queued := ⟨fun _ => Entry.sound_new _ _, nofun, nofun⟩
  held := ⟨nofun, nofun⟩
  typed := nofun
  served := nofun
  waits := nofun

/-- A step of the client or the server, not a new call and not a failure of the transport. -/
def TableAction.proceeds : TableAction → Bool
  | .act (.start _ _) | .act (.break _ _ _) => false
  | _ => true

/-- Some call, or some handler of the server, can go on. -/
def CanProceed (m : Tables) : Prop := ∃ a, TableAction.proceeds a = true ∧ m.step a ≠ none

/-- A call goes on when its step needs no table. -/
theorem canProceed_of_advance {c : ℕ} {pc : Pc} (hpc : m.streams.pcs c = pc)
    (hremoves : pc.removes = none) (htable : pc.table (m.streams.calls c) = none)
    (hused : m.streams.misused = false) (hstep : m.streams.advance c true 0 pc ≠ none) :
    CanProceed m := by
  subst hpc
  refine ⟨.act (.advance c true 0), rfl, ?_⟩
  simpa [Tables.step, Tables.advance, hremoves, htable, Streams.step, hused] using hstep

/-- The server or the transport goes on with an entry that has been made. -/
theorem canProceed_of_server {a : Action} (ha : TableAction.proceeds (.act a) = true) {id : ℕ}
    (hentry : a.entry = some id) (hid : id < m.streams.next) (hstep : m.streams.step a ≠ none) :
    CanProceed m := by
  refine ⟨.act a, ha, ?_⟩
  have hguard : ∀ id', a.entry = some id' → id' < m.streams.next := by
    intro id' hid'
    obtain rfl := Option.some.inj (hentry.symm.trans hid')
    exact hid
  cases a with
  | start | «break» => cases ha
  | advance | serve => cases hentry
  | accept | receive | sent | close =>
    simpa only [Tables.step, if_pos hguard, ne_eq, Option.map_eq_none_iff] using hstep

/-- While a call waits for a reply on a stream that is in use, a request or a reply is with the
server, and the handler can go on. -/
theorem Ready.canProceed_handler (h : Ready m) (hused : m.streams.misused = false) {id : ℕ}
    (hid : id < m.streams.next) (herased : (m.streams.entries id).erased = false)
    (hbroken : (m.streams.entries id).broken = false)
    (hclient : (m.streams.entries id).toClient = [])
    (houtstanding : (m.streams.entries id).outstanding ≠ []) : CanProceed m := by
  have hall := (h.queued.entries id).intact hbroken
  rw [hclient, List.map_nil, List.nil_append] at hall
  cases hhandler : (m.streams.entries id).handler with
  | creating =>
    apply canProceed_of_server (a := .accept id) rfl rfl hid
    simp [Streams.step, hused, hhandler]
  | reading =>
    cases hserver : (m.streams.entries id).toServer with
    | nil => simp [hhandler, hserver, Handler.calls, ← hall] at houtstanding
    | cons message rest =>
      obtain ⟨c, request⟩ := message
      apply canProceed_of_server (a := .receive id (marked 0)) rfl rfl hid
      simp [Streams.step, Streams.receive, hused, hhandler, hserver]
  | writing c reply =>
    apply canProceed_of_server (a := .sent id) rfl rfl hid
    simp [Streams.step, Streams.sent, hused, hhandler]
  | finished =>
    rcases h.served id hhandler with hyes | hyes
    · simp [herased] at hyes
    · simp [hbroken] at hyes

/-- A call that waits for its reply reads it, is told that the stream has broken, or has its
request or its reply with the server. -/
theorem Ready.canProceed_reading (h : Ready m) (hused : m.streams.misused = false) {c id : ℕ}
    (hpc : m.streams.pcs c = .reading id) : CanProceed m := by
  have hadvance := canProceed_of_advance hpc rfl rfl hused
  by_cases herased : (m.streams.entries id).erased = true
  · apply hadvance
    simp [Streams.advance, Streams.use, herased]
  · cases hclient : (m.streams.entries id).toClient with
    | cons message rest =>
      apply hadvance
      simp [Streams.advance, Streams.use, Streams.read, herased, hclient]
    | nil =>
      by_cases hbroken : (m.streams.entries id).broken = true
      · apply hadvance
        simp [Streams.advance, Streams.use, Streams.read, herased, hclient, hbroken]
      · have hid := h.known.refers c id (by rw [hpc]; rfl)
        have hawaited := (h.locks c id).awaited.mpr (Or.inr hpc)
        apply h.canProceed_handler hused hid _ _ hclient
        · simp [Entry.outstanding, hawaited]
        · simpa using herased
        · simpa using hbroken

/-- The holder of `mtx_read_` never waits for another call. -/
theorem Ready.canProceed_mtxRead (h : Ready m) (hused : m.streams.misused = false) {c id : ℕ}
    (hread : (m.streams.entries id).mtxRead = some c) : CanProceed m := by
  have hholds := h.held.read id c hread
  cases hpc : m.streams.pcs c with
  | handing | readFailed | replied =>
    apply canProceed_of_advance hpc rfl rfl hused
    simp [Streams.advance]
  | reading => exact h.canProceed_reading hused hpc
  | _ =>
    rw [hpc] at hholds
    cases hholds

/-- The holder of `mtx_write_` waits at most for that of `mtx_read_`. -/
theorem Ready.canProceed_mtxWrite (h : Ready m) (hused : m.streams.misused = false) {c id : ℕ}
    (hwrite : (m.streams.entries id).mtxWrite = some c) : CanProceed m := by
  have hholds := h.held.write id c hwrite
  cases hpc : m.streams.pcs c with
  | writing id' =>
    obtain ⟨kind, request, hcall⟩ := h.typed c (by rw [hpc]; rfl)
    apply canProceed_of_advance hpc rfl rfl hused
    by_cases herased : (m.streams.entries id').erased = true
    · simp [Streams.advance, Streams.use, herased]
    · simp [Streams.advance, Streams.use, herased, Streams.write, hcall]
  | writeFailed | handing =>
    apply canProceed_of_advance hpc rfl rfl hused
    simp [Streams.advance]
  | written id' =>
    cases hread : (m.streams.entries id').mtxRead with
    | some c' => exact h.canProceed_mtxRead hused hread
    | none =>
      apply canProceed_of_advance hpc rfl rfl hused
      by_cases herased : (m.streams.entries id').erased = true
      · simp [Streams.advance, Streams.use, herased]
      · simp [Streams.advance, Streams.use, herased, hread]
  | _ =>
    rw [hpc] at hholds
    cases hholds

/-- A call that holds the lock of a table waits at most for the holders of the locks of an entry. -/
theorem Ready.canProceed_mtxStreams (h : Ready m) (hused : m.streams.misused = false) {c : ℕ}
    {kind : Kind} (hholder : m.mtxStreams kind = some c) : CanProceed m := by
  have hremoves := h.waits kind c hholder
  obtain ⟨todo, retry, hpc⟩ : ∃ todo retry, m.streams.pcs c = .removing (kind :: todo) retry := by
    cases hpc : m.streams.pcs c with
    | removing todo retry =>
      cases todo with
      | nil => simp [hpc, Pc.removes] at hremoves
      | cons kind' todo =>
        rw [hpc] at hremoves
        obtain rfl := Option.some.inj hremoves
        exact ⟨todo, retry, rfl⟩
    | _ => simp [hpc, Pc.removes] at hremoves
  have hadvance (hstep : m.streams.advance c true 0 (.removing (kind :: todo) retry) ≠ none) :
      CanProceed m := by
    refine ⟨.act (.advance c true 0), rfl, ?_⟩
    simpa [Tables.step, Tables.advance, hpc, Pc.removes, hholder, Streams.step, hused] using hstep
  cases hid : m.streams.table kind (m.streams.calls c).path with
  | none =>
    apply hadvance
    simp [Streams.advance, Streams.remove, hid]
  | some id =>
    cases hwrite : (m.streams.entries id).mtxWrite with
    | some c' => exact h.canProceed_mtxWrite hused hwrite
    | none =>
      cases hread : (m.streams.entries id).mtxRead with
      | some c' => exact h.canProceed_mtxRead hused hread
      | none =>
        apply hadvance
        simp [Streams.advance, Streams.remove, hid, hwrite, hread]

/-- A call whose next step is in a table. -/
theorem Ready.canProceed_table (h : Ready m) (hused : m.streams.misused = false) {c : ℕ} {pc : Pc}
    {kind : Kind} (hpc : m.streams.pcs c = pc) (hremoves : pc.removes = none)
    (htable : pc.table (m.streams.calls c) = some kind)
    (hstep : m.streams.advance c true 0 pc ≠ none) : CanProceed m := by
  cases hholder : m.mtxStreams kind with
  | some c' => exact h.canProceed_mtxStreams hused hholder
  | none =>
    subst hpc
    refine ⟨.act (.advance c true 0), rfl, ?_⟩
    simpa [Tables.step, Tables.advance, hremoves, htable, hholder, Streams.step, hused] using hstep

/-- **Progress.** Wherever a call is before its end, some call or handler can go on. -/
theorem Ready.canProceed (h : Ready m) (hused : m.streams.misused = false) {c : ℕ}
    (hstarted : m.streams.pcs c ≠ .unstarted) (hover : (m.streams.pcs c).isOver = false) :
    CanProceed m := by
  cases hpc : m.streams.pcs c with
  | unstarted => exact absurd hpc hstarted
  | streamed | returned => simp [hpc, Pc.isOver] at hover
  | looking =>
    obtain ⟨kind, request, hcall⟩ := h.typed c (by rw [hpc]; rfl)
    have htable : Pc.looking.table (m.streams.calls c) = some kind := by simp [Pc.table, hcall]
    apply h.canProceed_table hused hpc rfl htable
    simp [Streams.advance, hcall]
  | found id =>
    cases hwrite : (m.streams.entries id).mtxWrite with
    | some c' => exact h.canProceed_mtxWrite hused hwrite
    | none =>
      apply canProceed_of_advance hpc rfl rfl hused
      by_cases herased : (m.streams.entries id).erased = true
      · simp [Streams.advance, Streams.use, herased]
      · simp [Streams.advance, Streams.use, herased, hwrite]
  | writing id | writeFailed id | written id | handing id =>
    have hwrite : (m.streams.entries id).mtxWrite = some c := by
      apply (h.locks c id).write
      rw [hpc]
      rfl
    exact h.canProceed_mtxWrite hused hwrite
  | reading id => exact h.canProceed_reading hused hpc
  | readFailed | replied =>
    apply canProceed_of_advance hpc rfl rfl hused
    simp [Streams.advance]
  | removing todo retry =>
    cases todo with
    | nil =>
      apply canProceed_of_advance hpc rfl rfl hused
      simp [Streams.advance]
    | cons kind todo =>
      cases hholder : m.mtxStreams kind with
      | some c' => exact h.canProceed_mtxStreams hused hholder
      | none =>
        refine ⟨.lockTable c, rfl, ?_⟩
        simp [Tables.step, hpc, Pc.removes, hholder, hused]
  | calling =>
    cases hcall : m.streams.calls c with
    | transfer kind request =>
      refine ⟨.act (.serve c (marked 0)), rfl, ?_⟩
      simp [Tables.step, Action.entry, Streams.step, hused, hpc, hcall]
    | _ =>
      apply canProceed_of_advance hpc rfl rfl hused
      simp [Streams.advance, Streams.answer, hcall]
  | served reply =>
    obtain ⟨kind, request, hcall⟩ := h.typed c (by rw [hpc]; rfl)
    apply canProceed_of_advance hpc rfl rfl hused
    simp [Streams.advance, hcall]
  | creating todo reply =>
    cases todo with
    | nil =>
      apply canProceed_of_advance hpc rfl rfl hused
      simp [Streams.advance]
    | cons kind todo =>
      have htable : (Pc.creating (kind :: todo) reply).table (m.streams.calls c) = some kind := rfl
      apply h.canProceed_table hused hpc rfl htable
      simp [Streams.advance]

/-- The invariants hold in every state of every run. -/
theorem ready_of_run {as : List TableAction}
    (hrun : Transition.run Tables.step .initial as = some m) : Ready m :=
  Transition.invariant_of_forall (fun _ _ _ h hstep => h.step hstep) hrun ready_initial

/-- **No deadlock.** In every run of any number of calls, whether or not streams break, where some
call that was made is not over and no erased entry has been used, a step of a call or of the
server can be taken. -/
theorem never_deadlocked {as : List TableAction}
    (hrun : Transition.run Tables.step .initial as = some m) (hused : m.streams.misused = false)
    {c : ℕ} (hstarted : m.streams.pcs c ≠ .unstarted) (hover : (m.streams.pcs c).isOver = false) :
    ∃ a, TableAction.proceeds a = true ∧ m.step a ≠ none :=
  (ready_of_run hrun).canProceed hused hstarted hover

/-- A write waits for its reply, a release for the locks of the write's entry with the lock of the
table, and another write for the table. -/
def waitingForTable : List TableAction :=
  (openForWriting ++ [.start 1 (oneByte 0), onward 1, onward 1, onward 1, onward 1, onward 1,
    .start 2 (.release ['/', 'f']), onward 2]).map .act ++
  [.lockTable 2, .act (onward 2), .lockTable 2, .act (.start 3 (oneByte 1))]

/-- The server's handler of the entry can go on. -/
theorem never_deadlocked_waitingForTable :
    ∃ m, Transition.run Tables.step .initial waitingForTable = some m ∧
      m.streams.pcs 1 = .reading 0 ∧ m.mtxStreams .write = some 2 ∧ m.streams.pcs 3 = .looking ∧
      ∃ a, TableAction.proceeds a = true ∧ m.step a ≠ none := by
  obtain ⟨m, hrun, hused, hfirst, hholder, hsecond⟩ : ∃ m,
      Transition.run Tables.step .initial waitingForTable = some m ∧ m.streams.misused = false ∧
      m.streams.pcs 1 = .reading 0 ∧ m.mtxStreams .write = some 2 ∧ m.streams.pcs 3 = .looking :=
    ⟨_, rfl, rfl, rfl, rfl, rfl⟩
  refine ⟨m, hrun, hfirst, hholder, hsecond, never_deadlocked hrun hused (c := 3) ?_ ?_⟩
  · rw [hsecond]
    exact nofun
  · rw [hsecond]
    rfl

end RSafeFS.SyncClient
