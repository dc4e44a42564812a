import RSafeFS.SyncClient.Progress
import RSafeFS.Lib.Budget

/-!
# Every call ends

Each step of a call, of the server's handler of a stream or of a lock of a table uses up some of
the work that the call brought when it was made: a call makes at most one way through its places,
writes at most one request, and makes at most two entries. The transport only takes messages
away. So a run takes a bounded number of steps for each call in it, and as some step can be taken
before all calls have ended, all of them end.
-/

namespace RSafeFS.SyncClient

/-- The steps that a call still brings about, with those of the handlers for its request and for the
entries that it may make. -/
def Pc.work : Pc → ℕ
  | .unstarted | .streamed _ | .returned _ => 0
  | .replied _ _ => 1
  | .creating todo _ => 1 + 4 * todo.length
  | .removing todo false => 1 + 2 * todo.length
  | .served _ => 10
  | .calling => 11
  | .removing todo true => 12 + 2 * todo.length
  | .readFailed _ | .writeFailed _ => 17
  | .reading _ => 18
  | .handing _ => 19
  | .written _ => 20
  | .writing _ => 23
  | .found _ => 24
  | .looking => 25

/-- The steps of a handler apart from those for its requests. -/
def Handler.work : Handler → ℕ
  | .creating | .writing _ _ => 2
  | .reading => 1
  | .finished => 0

/-- The steps that are left on an entry: a request is received and its reply sent. -/
def Entry.work (e : Entry) : ℕ := e.handler.work + 2 * e.toServer.length

/-- The step that a call has taken with the lock of a table. -/
def Tables.waited (m : Tables) (c : ℕ) : ℕ :=
  match (m.streams.pcs c).removes with
  | some kind => if m.mtxStreams kind = some c then 1 else 0
  | none => 0

/-- The steps that are left on the entries. -/
def Streams.entryWork (s : Streams) : ℕ := ∑ id ∈ Finset.range s.next, (s.entries id).work

/-- The steps that are left of the calls below `n` and on the entries. -/
def Tables.work (n : ℕ) (m : Tables) : ℕ :=
  if m.streams.misused then 0
  else ∑ c ∈ Finset.range n, ((m.streams.pcs c).work - m.waited c) + m.streams.entryWork

/-- A new call. -/
def Action.starts : Action → Bool
  | .start _ _ => true
  | _ => false

/-- A new call, among the steps with those on the locks of the tables. -/
def TableAction.starts : TableAction → Bool
  | .act a => a.starts
  | .lockTable _ => false

/-- The number of a new call. -/
def TableAction.started : TableAction → Option ℕ
  | .act (.start c _) => some c
  | _ => none

/-- A step that counts. -/
def Action.proceeds (a : Action) : Bool := TableAction.proceeds (.act a)

/-- The step that a removal has taken before with the lock of its table. -/
def Pc.locked (pc : Pc) : ℕ := if pc.removes.isSome then 1 else 0

variable {s t : Streams}

/-- A change of one entry. -/
theorem entryWork_set {id : ℕ} {e : Entry} (hnext : t.next = s.next)
    (hentries : t.entries = Function.update s.entries id e) (hid : id < s.next) :
    t.entryWork + (s.entries id).work ≤ s.entryWork + e.work := by
  have hsum := Transition.sum_update (Finset.mem_range.mpr hid) s.entries Entry.work e
  rw [Streams.entryWork, Streams.entryWork, hnext, hentries]
  exact Nat.le_of_eq hsum

/-- A change of one entry that leaves its handler and its requests as they are. -/
theorem entryWork_same {id : ℕ} {e : Entry} (hnext : t.next = s.next)
    (hentries : t.entries = Function.update s.entries id e)
    (hhandler : e.handler = (s.entries id).handler) (hserver : e.toServer = (s.entries id).toServer) :
    t.entryWork = s.entryWork := by
  rw [Streams.entryWork, Streams.entryWork, hnext, hentries]
  refine Finset.sum_congr rfl fun id' _ => ?_
  by_cases hid : id' = id
  · subst hid
    rw [Function.update_self, Entry.work, Entry.work, hhandler, hserver]
  · rw [Function.update_of_ne hid]

/-- A new entry. -/
theorem entryWork_new {kind : Kind} {path : PathName} (hnext : t.next = s.next + 1)
    (hentries : t.entries = Function.update s.entries s.next (.new kind path)) :
    t.entryWork = s.entryWork + 2 := by
  rw [Streams.entryWork, Streams.entryWork, hnext, Finset.sum_range_succ, hentries,
    Function.update_self]
  congr 1
  refine Finset.sum_congr rfl fun id hid => ?_
  rw [Function.update_of_ne (Nat.ne_of_lt (Finset.mem_range.mp hid))]

theorem streamKinds_length (flags : ℤ) : (streamKinds flags).length ≤ 2 := by
  unfold streamKinds
  dsimp only
  split
  · exact Nat.le_succ 1
  · split
    · exact Nat.le_succ 1
    · split
      · exact Nat.le_refl 2
      · exact Nat.zero_le 2

/-- A call makes at most two entries after it has been answered. -/
theorem todo_length_le {c : ℕ} {ok : Bool} {res : ℤ} {pc : Pc} (hpc : s.pcs c = pc)
    (hanswer : pc = .calling ∨ ∃ reply, pc = .served reply) {todo : List Kind}
    {reply : Option Reply} (hstep : s.step (.advance c ok res) = some (s.goto c (.creating todo reply))) :
    todo.length ≤ 2 := by
  have hadvance := advance_of_step hstep
  rw [hpc] at hadvance
  have hplace (pc' : Pc) (heq : some (s.goto c pc') = some (s.goto c (.creating todo reply)))
      (hlength : ∀ todo' reply', pc' = .creating todo' reply' → todo'.length ≤ 2) :
      todo.length ≤ 2 := hlength todo reply (goto_inj heq)
  rcases hanswer with rfl | ⟨reply', rfl⟩
  · simp only [Streams.advance, Streams.answer] at hadvance
    split at hadvance
    · split at hadvance
      · cases hadvance
      · apply hplace _ hadvance
        intro todo' reply' heq
        cases heq
    · apply hplace _ hadvance
      intro todo' reply' heq
      split at heq
      · obtain ⟨rfl, _⟩ := Pc.creating.inj heq
        exact streamKinds_length _
      · cases heq
    · apply hplace _ hadvance
      intro todo' reply' heq
      split at heq
      · cases heq
      · cases heq
  · simp only [Streams.advance] at hadvance
    split at hadvance
    · apply hplace _ hadvance
      intro todo' reply' heq
      split at heq
      · obtain ⟨rfl, _⟩ := Pc.creating.inj heq
        exact streamKinds_length _
      · cases heq
    · cases hadvance

/-- The call that takes a step. -/
def Action.call : Action → Option ℕ
  | .start c _ | .advance c _ _ | .serve c _ => some c
  | _ => none

/-- What a step leaves of the work: a use of an erased entry ends everything, a step of the server
or the transport is paid from an entry, and that of a call from its own work. -/
inductive Pays (s t : Streams) (a : Action) : Prop
  | misused {c : ℕ} (hmisused : t.misused = true) (hpcs : t.pcs = s.pcs)
      (hwork : 0 < (s.pcs c).work - (s.pcs c).locked)
  | entry (hpcs : t.pcs = s.pcs) (hcall : a.call = none)
      (hwork : t.entryWork + (if a.proceeds then 1 else 0) ≤ s.entryWork)
  | call {c : ℕ} {pc : Pc} (hpcs : t.pcs = Function.update s.pcs c pc) (hcall : a.call = some c)
      (hmade : s.pcs c ≠ .unstarted ∨ a.starts = true)
      (hwork : pc.work + t.entryWork + (if a.proceeds then 1 else 0) + (s.pcs c).locked ≤
        (s.pcs c).work + s.entryWork + if a.starts then 25 else 0)

/-- A call only moves. -/
theorem Pays.goto {a : Action} {c : ℕ} {pc pc' : Pc} {s' : Streams} (hpc : s.pcs c = pc)
    (hsame : s'.pcs = s.pcs ∧ s'.entryWork = s.entryWork ∧ a.call = some c)
    (hmade : pc ≠ .unstarted ∨ a.starts = true)
    (hwork : pc'.work + (if a.proceeds then 1 else 0) + pc.locked ≤
      pc.work + if a.starts then 25 else 0) : Pays s (s'.goto c pc') a := by
  obtain ⟨hpcs, hentries, hcall⟩ := hsame
  have hgoto : (s'.goto c pc').pcs = Function.update s.pcs c pc' := by
    simp only [Streams.goto, hpcs]
  apply Pays.call hgoto hcall (hpc ▸ hmade)
  have hsame : (s'.goto c pc').entryWork = s'.entryWork := rfl
  rw [hsame, hentries, hpc]
  omega

/-- A step of a call on an entry that leaves its handler and its requests as they are. -/
theorem Pays.locks {a : Action} {c id : ℕ} {pc pc' : Pc} {e : Entry} {s' : Streams}
    (hpc : s.pcs c = pc)
    (hsame : s'.pcs = s.pcs ∧ s'.entries = s.entries ∧ s'.next = s.next ∧ a.call = some c)
    (he : e.handler = (s.entries id).handler ∧ e.toServer = (s.entries id).toServer)
    (hmade : pc ≠ .unstarted) (hwork : pc'.work + 1 + pc.locked ≤ pc.work) :
    Pays s (s'.set id e |>.goto c pc') a := by
  obtain ⟨hpcs, hentries, hnext, hcall⟩ := hsame
  have hgoto : (s'.set id e |>.goto c pc').pcs = Function.update s.pcs c pc' := by
    simp only [Streams.goto, Streams.set, hpcs]
  apply Pays.call hgoto hcall (Or.inl (hpc ▸ hmade))
  have hentry : (s'.set id e |>.goto c pc').entryWork = s.entryWork := by
    refine entryWork_same (t := s'.set id e |>.goto c pc') (e := e) hnext ?_ he.1 he.2
    simp only [Streams.goto, Streams.set, hentries]
  rw [hentry, hpc]
  split <;> omega

/-- A step of the server or the transport on an entry. -/
theorem Pays.server {a : Action} {id : ℕ} {e : Entry} {s' : Streams}
    (hsame : s'.pcs = s.pcs ∧ s'.entries = s.entries ∧ s'.next = s.next ∧ a.call = none)
    (hid : id < s.next) (hwork : e.work + (if a.proceeds then 1 else 0) ≤ (s.entries id).work) :
    Pays s (s'.set id e) a := by
  obtain ⟨hpcs, hentries, hnext, hcall⟩ := hsame
  have hle := entryWork_set (s := s) (t := s'.set id e) (e := e) hnext
    (by simp only [Streams.set, hentries]) hid
  apply Pays.entry
  · exact hpcs
  · exact hcall
  · omega

/-- The request of a call, with the step of its handler that receives it and that which sends the
reply. -/
theorem Pays.write (hknown : Known s) {c id : ℕ} {ok : Bool} {res : ℤ} {request : Request}
    (hpc : s.pcs c = .writing id) {e : Entry} (hhandler : e.handler = (s.entries id).handler)
    (hserver : e.toServer = if (s.entries id).broken then (s.entries id).toServer
      else (s.entries id).toServer ++ [(c, request)]) :
    Pays s ({ s with sentOn := Function.update s.sentOn c (some id) }.set id e |>.goto c
      (.written id)) (.advance c ok res) := by
  refine .call (c := c) rfl rfl (Or.inl (by simp [hpc])) ?_
  have hid := hknown.refers c id (by rw [hpc]; rfl)
  have hle := entryWork_set (s := s) (t := { s with
    sentOn := Function.update s.sentOn c (some id) }.set id e |>.goto c (.written id)) rfl rfl hid
  have hwork : e.work ≤ (s.entries id).work + 2 := by
    rw [Entry.work, Entry.work, hhandler, hserver]
    split
    · omega
    · rw [List.length_append, List.length_singleton]
      omega
  rw [hpc]
  simp only [Pc.work, Pc.locked, Pc.removes, Action.proceeds, TableAction.proceeds, Action.starts,
    Option.isSome_none, Bool.false_eq_true, if_true, if_false]
  omega

/-- **Step lemma.** Every step is paid for. -/
theorem pays_of_step (hknown : Known s) {a : Action}
    (hentry : ∀ id, a.entry = some id → id < s.next) (hstep : s.step a = some t) : Pays s t a := by
  cases steps_of_step hstep with
  | started hpc hplace =>
    apply Pays.goto hpc
    · exact ⟨rfl, rfl, rfl⟩
    · exact Or.inr rfl
    · rcases hplace with rfl | rfl <;> simp [Pc.work, Pc.locked, Pc.removes, Action.proceeds,
        TableAction.proceeds, Action.starts]
  | @move c ok res pc pc' hpc hmove =>
    apply Pays.goto hpc
    · exact ⟨rfl, rfl, rfl⟩
    · exact Or.inl (by cases hmove <;> simp)
    · have hlength : ∀ todo reply, pc' = .creating todo reply → pc = .calling ∨
          (∃ reply, pc = .served reply) → todo.length ≤ 2 := by
        rintro todo reply rfl hanswer
        exact todo_length_le hpc hanswer hstep
      cases hmove with
      | opened | answered =>
        have hle := hlength _ _ rfl (by simp)
        simp only [Pc.work, Pc.locked, Pc.removes, Action.proceeds, TableAction.proceeds, Action.starts,
          Option.isSome_none, Bool.false_eq_true, if_true, if_false]
        omega
      | present =>
        simp only [Pc.work, Pc.locked, Pc.removes, Action.proceeds, TableAction.proceeds, Action.starts,
          List.length_cons, Option.isSome_none, Bool.false_eq_true, if_true, if_false]
        omega
      | @skip kind todo retry =>
        cases retry <;> simp only [Pc.work, Pc.locked, Pc.removes, Action.proceeds,
          TableAction.proceeds, Action.starts, List.length_cons, Option.isSome_some,
          Bool.false_eq_true, if_true, if_false] <;> omega
      | _ =>
        simp [Pc.work, Pc.locked, Pc.removes, Action.proceeds, TableAction.proceeds, Action.starts]
  | @misuse c id ok res huses herased =>
    refine .misused (c := c) rfl rfl ?_
    cases hpc : s.pcs c with
    | found | writing | written | reading => exact Nat.succ_pos _
    | _ => simp [hpc, Pc.uses] at huses
  | lockWrite hpc | unlockWriteFailed hpc | lockRead hpc | unlockWrite hpc | read hpc
  | readFailed hpc | unlockReadFailed hpc | unlockReplied hpc =>
    apply Pays.locks hpc
    · exact ⟨rfl, rfl, rfl, rfl⟩
    · exact ⟨rfl, rfl⟩
    · simp
    · simp [Pc.work, Pc.locked, Pc.removes]
  | write hpc hcall => exact Pays.write hknown hpc rfl rfl
  | @erase c id ok res kind todo retry hpc hid hwrite hread =>
    apply Pays.locks hpc
    · exact ⟨rfl, rfl, rfl, rfl⟩
    · exact ⟨rfl, rfl⟩
    · simp
    · cases retry <;> simp only [Pc.work, Pc.locked, Pc.removes, List.length_cons,
        Option.isSome_some, if_true] <;> omega
  | @emplace c ok res kind todo reply hpc =>
    refine .call (c := c) rfl rfl (Or.inl (by simp [hpc])) ?_
    rw [entryWork_new (s := s) rfl rfl, hpc]
    simp only [Pc.work, Pc.locked, Pc.removes, Action.proceeds, TableAction.proceeds, Action.starts,
      List.length_cons, Option.isSome_none, Bool.false_eq_true, if_true, if_false]
    omega
  | serve hpc hcall =>
    apply Pays.goto hpc
    · exact ⟨rfl, rfl, rfl⟩
    · exact Or.inl (by simp)
    · simp [Pc.work, Pc.locked, Pc.removes, Action.proceeds, TableAction.proceeds, Action.starts]
  | accept hhandler =>
    apply Pays.server
    · exact ⟨rfl, rfl, rfl, rfl⟩
    · exact hentry _ rfl
    · simp only [Entry.work, hhandler, Handler.work, Action.proceeds, TableAction.proceeds, if_true]
      omega
  | receive hhandler hserver =>
    apply Pays.server
    · exact ⟨rfl, rfl, rfl, rfl⟩
    · exact hentry _ rfl
    · simp only [Entry.work, hhandler, hserver, Handler.work, Action.proceeds,
        TableAction.proceeds, List.length_cons, if_true]
      omega
  | sent hhandler =>
    apply Pays.server
    · exact ⟨rfl, rfl, rfl, rfl⟩
    · exact hentry _ rfl
    · simp only [Entry.work, hhandler, Handler.work, Action.proceeds, TableAction.proceeds, if_true]
      omega
  | close hhandler =>
    apply Pays.server
    · exact ⟨rfl, rfl, rfl, rfl⟩
    · exact hentry _ rfl
    · simp only [Entry.work, hhandler, Handler.work, Action.proceeds, TableAction.proceeds, if_true]
      omega
  | broke =>
    apply Pays.server
    · exact ⟨rfl, rfl, rfl, rfl⟩
    · exact hentry _ rfl
    · simp only [Entry.work, Action.proceeds, TableAction.proceeds, List.length_take,
        Bool.false_eq_true, if_false]
      omega

variable {m r : Tables} {n : ℕ}

/-- The steps that are left of the calls below `n`. -/
def Tables.callWork (n : ℕ) (m : Tables) : ℕ :=
  ∑ c ∈ Finset.range n, ((m.streams.pcs c).work - m.waited c)

/-- The calls made are below `n`. -/
def Below (n : ℕ) (m : Tables) : Prop := ∀ c, n ≤ c → m.streams.pcs c = .unstarted

/-- A call that has work left is below `n`. -/
theorem Below.lt (h : Below n m) {c : ℕ} (hc : m.streams.pcs c ≠ .unstarted) : c < n := by
  by_contra hle
  exact hc (h c (Nat.le_of_not_lt hle))

theorem waited_le_locked (m : Tables) (c : ℕ) : m.waited c ≤ (m.streams.pcs c).locked := by
  unfold Tables.waited Pc.locked
  split
  · next kind hremoves =>
    rw [hremoves]
    simp only [Option.isSome_some, if_true]
    split
    · exact Nat.le_refl 1
    · exact Nat.zero_le 1
  · exact Nat.zero_le _

/-- A call that removes has steps left. -/
theorem locked_le_work (pc : Pc) : pc.locked ≤ pc.work := by
  unfold Pc.locked
  split
  · next hremoves =>
    cases pc with
    | removing todo retry =>
      cases retry with
      | true => exact Nat.le_trans (by decide) (Nat.le_add_right 12 _)
      | false => exact Nat.le_add_right 1 _
    | _ => simp [Pc.removes] at hremoves
  · exact Nat.zero_le _

/-- A call that stays where it is, with the lock of its table if it had it. -/
theorem waited_mono {c : ℕ} (hpcs : r.streams.pcs c = m.streams.pcs c)
    (hmtx : ∀ kind, m.mtxStreams kind = some c → r.mtxStreams kind = some c) :
    m.waited c ≤ r.waited c := by
  unfold Tables.waited
  rw [hpcs]
  split
  · next kind hremoves =>
    by_cases hholder : m.mtxStreams kind = some c
    · simp [hholder, hmtx kind hholder]
    · simp [hholder]
  · exact Nat.le_refl _

/-- A step of one call uses up the work of that call alone. -/
theorem callWork_le {c : ℕ} (hc : c < n) (hpcs : ∀ c', c' ≠ c → r.streams.pcs c' = m.streams.pcs c')
    (hmtx : ∀ kind c', c' ≠ c → m.mtxStreams kind = some c' → r.mtxStreams kind = some c') :
    r.callWork n + ((m.streams.pcs c).work - m.waited c) ≤
      m.callWork n + ((r.streams.pcs c).work - r.waited c) := by
  apply Transition.sum_le (Finset.mem_range.mpr hc)
  intro c' hc'
  have hmono := waited_mono (hpcs c' hc') (fun kind => hmtx kind c' hc')
  rw [hpcs c' hc']
  omega

/-- A step leaves less work, apart from what a new call brings. -/
theorem work_of_pays {a : Action} (hbelow : Below n m) (hused : m.streams.misused = false)
    (hstart : ∀ c, TableAction.started (.act a) = some c → c < n) (hpays : Pays m.streams r.streams a)
    (hmtx : ∀ kind c, a.call ≠ some c → m.mtxStreams kind = some c → r.mtxStreams kind = some c) :
    Below n r ∧ r.work n + (if a.proceeds then 1 else 0) ≤
      m.work n + if a.starts then 25 else 0 := by
  have hwork : m.work n = m.callWork n + m.streams.entryWork := by
    simp [Tables.work, Tables.callWork, hused]
  have hwork' : r.work n ≤ r.callWork n + r.streams.entryWork := by
    unfold Tables.work
    split
    · exact Nat.zero_le _
    · exact Nat.le_refl _
  rw [hwork]
  cases hpays with
  | @misused c hmisused hpcs hpaid =>
    constructor
    · intro c' hc'
      rw [hpcs]
      exact hbelow c' hc'
    · have hc : c < n := by
        apply hbelow.lt
        intro hpc
        simp [hpc, Pc.work] at hpaid
      have hle : (m.streams.pcs c).work - m.waited c ≤ m.callWork n :=
        Finset.single_le_sum (f := fun c => (m.streams.pcs c).work - m.waited c)
          (fun _ _ => Nat.zero_le _) (Finset.mem_range.mpr hc)
      have hlocked := waited_le_locked m c
      have hnone : r.work n = 0 := by simp [Tables.work, hmisused]
      rw [hnone]
      split <;> omega
  | entry hpcs hcall hpaid =>
    constructor
    · intro c' hc'
      rw [hpcs]
      exact hbelow c' hc'
    · have hle : r.callWork n ≤ m.callWork n := by
        apply Finset.sum_le_sum
        intro c _
        have hmono := waited_mono (congrFun hpcs c) (fun kind => hmtx kind c (by simp [hcall]))
        rw [hpcs]
        omega
      omega
  | @call c pc hpcs hcall hmade hpaid =>
    have hother : ∀ c', c' ≠ c → r.streams.pcs c' = m.streams.pcs c' := by
      intro c' hc'
      rw [hpcs, Function.update_of_ne hc']
    have hc : c < n := by
      rcases hmade with hmade | hstarts
      · exact hbelow.lt hmade
      · cases a with
        | start c' call =>
          obtain rfl := Option.some.inj hcall
          exact hstart c' rfl
        | _ => cases hstarts
    constructor
    · intro c' hc'
      rw [hother c' (by omega)]
      exact hbelow c' hc'
    · have hle := callWork_le hc hother fun kind c' hc' =>
        hmtx kind c' (by simp [hcall, Ne.symm hc'])
      have hlocked := waited_le_locked m c
      have hsome := locked_le_work (m.streams.pcs c)
      rw [hpcs, Function.update_self] at hle
      omega

/-- Nothing happens after the use of an erased entry. -/
theorem used_of_step {a : Action} (hstep : s.step a = some t) : s.misused = false := by
  unfold Streams.step at hstep
  split at hstep
  · cases hstep
  · next hused => simpa using hused

/-- **Step lemma.** A step that counts leaves less work. -/
theorem work_step (h : Ready m) (hbelow : Below n m) {a : TableAction} (hstep : m.step a = some r)
    (hstart : ∀ c, a.started = some c → c < n) :
    Below n r ∧ r.work n + (if a.proceeds then 1 else 0) ≤
      m.work n + if a.starts then 25 else 0 := by
  cases tableSteps_of_step hstep with
  | @locked c kind hremoves hfree hused =>
    refine ⟨hbelow, ?_⟩
    have hc : c < n := by
      apply hbelow.lt
      intro hpc
      simp [hpc, Pc.removes] at hremoves
    have hle := callWork_le (m := m) (r := { m with
      mtxStreams := Function.update m.mtxStreams kind (some c) }) hc (fun _ _ => rfl)
      fun kind' c' hc' hholder => by
        dsimp only
        rw [Function.update_of_ne, hholder]
        rintro rfl
        simp [hfree] at hholder
    have hbefore : m.waited c = 0 := by simp [Tables.waited, hremoves, hfree]
    have hafter : Tables.waited { m with
        mtxStreams := Function.update m.mtxStreams kind (some c) } c = 1 := by
      simp [Tables.waited, hremoves]
    have hsome := locked_le_work (m.streams.pcs c)
    rw [Pc.locked, hremoves] at hsome
    rw [hbefore, hafter] at hle
    simp only [Tables.work, hused, Tables.callWork, TableAction.proceeds, TableAction.starts,
      Option.isSome_some, if_true, Bool.false_eq_true, if_false] at hle hsome ⊢
    omega
  | @removed c ok res kind t hremoves hlocked hact =>
    have hused := used_of_step hact
    have hnone : ∀ id, (Action.advance c ok res).entry = some id → id < m.streams.next := by
      intro id hid
      cases hid
    refine work_of_pays (r := ⟨t, _⟩) hbelow hused hstart (pays_of_step h.known hnone hact) ?_
    intro kind' c' hc' hholder
    dsimp only
    rw [Function.update_of_ne, hholder]
    rintro rfl
    rw [hlocked] at hholder
    exact hc' hholder
  | @other a t hremoves hentry hact =>
    have hused := used_of_step hact
    exact work_of_pays (r := ⟨t, _⟩) hbelow hused hstart (pays_of_step h.known hentry hact)
      fun _ _ _ hholder => hholder

/-- **Bounded work.** In every run with any number of calls, whether or not streams break, the calls,
the locks of the tables and the server's handlers take no more than 25 steps for each call. -/
theorem steps_le_calls {as : List TableAction}
    (hrun : Transition.run Tables.step .initial as = some m) :
    as.countP TableAction.proceeds ≤ 25 * as.countP TableAction.starts := by
  obtain ⟨n, hn⟩ := Transition.exists_bound TableAction.started as
  have hpaid : ∀ (m : Tables) (a : TableAction) (r : Tables), Ready m ∧ Below n m →
      (∀ c, a.started = some c → c < n) → m.step a = some r → (Ready r ∧ Below n r) ∧
      r.work n + (if a.proceeds then 1 else 0) ≤ m.work n + if a.starts then 25 else 0 := by
    intro m a r h hok hstep
    obtain ⟨hbelow, hle⟩ := work_step h.1 h.2 hstep hok
    exact ⟨⟨h.1.step hstep, hbelow⟩, hle⟩
  have hle := Transition.total_le hpaid hrun (.of_forall_mem fun a ha _ => hn a ha)
    ⟨ready_initial, fun _ _ => rfl⟩
  rw [Transition.total_ite, Transition.total_ite] at hle
  have hstart : Tables.work n .initial = 0 := by
    simp [Tables.work, Tables.initial, Streams.initial, Pc.work, Streams.entryWork]
  omega

/-- A run with four calls, the last three of which are under way. -/
theorem steps_le_calls_waitingForTable :
    ∃ m, Transition.run Tables.step .initial waitingForTable = some m ∧
      waitingForTable.countP TableAction.proceeds ≤ 25 * 4 := by
  obtain ⟨m, hrun⟩ : ∃ m, Transition.run Tables.step .initial waitingForTable = some m := ⟨_, rfl⟩
  exact ⟨m, hrun, steps_le_calls hrun⟩

end RSafeFS.SyncClient
