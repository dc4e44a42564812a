import RSafeFS.SyncClient.Lifetime
import RSafeFS.SyncClient.FailedOpens

/-!
# The locks of the tables

`remove_streams` waits for the two locks of an entry while it holds the lock of the table, so
that a look-up, a `try_emplace` or another removal in the table has to wait as well. In this
model the removal takes the lock of the table in a step of its own. Whatever waits for a lock
waits in the end for a call that holds a lock of an entry, such a call never waits for a
table, and the reply that it may wait for is on its way: some call or handler can always go on.
-/

namespace RSafeFS.SyncClient

/-- The client with the holders of `mtx_read_streams_` and `mtx_write_streams_`, the calls that
wait in `remove_streams` for the locks of an entry. -/
structure Tables where
  streams : Streams
  mtxStreams : Kind → Option ℕ

/-- A step as before, or a call that takes the lock of the table that it removes from. -/
inductive TableAction where
  | act (a : Action)
  | lockTable (c : ℕ)

/-- The client as constructed. -/
def Tables.initial : Tables := ⟨.initial, fun _ => none⟩

/-- The table whose lock the next step of a call takes and lets go. -/
def Pc.table (pc : Pc) (call : Call) : Option Kind :=
  match pc, call with
  | .looking, .transfer kind _ => some kind
  | .creating (kind :: _) _, _ => some kind
  | _, _ => none

/-- The table from which the next step of a call removes. -/
def Pc.removes : Pc → Option Kind
  | .removing (kind :: _) _ => some kind
  | _ => none

/-- The entry of a step of the server or of the transport. -/
def Action.entry : Action → Option ℕ
  | .accept id | .receive id _ | .sent id | .close id | .break id _ _ => some id
  | _ => none

/-- A call takes a step that needs no lock of a table, or one that is free, or it lets go of the
lock with which it has waited. -/
def Tables.advance (s : Tables) (c : ℕ) (ok : Bool) (res : ℤ) : Option Tables :=
  let t := s.streams.step (.advance c ok res)
  match (s.streams.pcs c).removes with
  | some kind =>
    if s.mtxStreams kind = some c then
      t.map fun t => ⟨t, Function.update s.mtxStreams kind none⟩
    else none
  | none =>
    match (s.streams.pcs c).table (s.streams.calls c) with
    | some kind => if s.mtxStreams kind = none then t.map (⟨·, s.mtxStreams⟩) else none
    | none => t.map (⟨·, s.mtxStreams⟩)

/-- One step. The server and the transport only know entries that have been made. -/
def Tables.step (s : Tables) : TableAction → Option Tables
  | .lockTable c =>
    match (s.streams.pcs c).removes with
    | some kind =>
      if s.mtxStreams kind = none ∧ s.streams.misused = false then
        some { s with mtxStreams := Function.update s.mtxStreams kind (some c) }
      else none
    | none => none
  | .act (.advance c ok res) => s.advance c ok res
  | .act a =>
    if ∀ id, a.entry = some id → id < s.streams.next then
      (s.streams.step a).map (⟨·, s.mtxStreams⟩)
    else none

/-- What a step can do. -/
inductive TableSteps (s : Tables) : TableAction → Tables → Prop
  | locked {c : ℕ} {kind : Kind} (hremoves : (s.streams.pcs c).removes = some kind)
      (hfree : s.mtxStreams kind = none) (hused : s.streams.misused = false) :
      TableSteps s (.lockTable c)
        { s with mtxStreams := Function.update s.mtxStreams kind (some c) }
  | removed {c : ℕ} {ok : Bool} {res : ℤ} {kind : Kind} {t : Streams}
      (hremoves : (s.streams.pcs c).removes = some kind) (hlocked : s.mtxStreams kind = some c)
      (hstep : s.streams.step (.advance c ok res) = some t) :
      TableSteps s (.act (.advance c ok res)) ⟨t, Function.update s.mtxStreams kind none⟩
  | other {a : Action} {t : Streams}
      (hremoves : ∀ c ok res, a = .advance c ok res → (s.streams.pcs c).removes = none)
      (hentry : ∀ id, a.entry = some id → id < s.streams.next)
      (hstep : s.streams.step a = some t) : TableSteps s (.act a) ⟨t, s.mtxStreams⟩

variable {s t : Tables}

theorem tableSteps_of_advance {c : ℕ} {ok : Bool} {res : ℤ} (hstep : s.advance c ok res = some t) :
    TableSteps s (.act (.advance c ok res)) t := by
  have hother (hnone : (s.streams.pcs c).removes = none)
      (hmap : (s.streams.step (.advance c ok res)).map (⟨·, s.mtxStreams⟩) = some t) :
      TableSteps s (.act (.advance c ok res)) t := by
    obtain ⟨u, hu, rfl⟩ := Option.map_eq_some_iff.mp hmap
    apply TableSteps.other _ _ hu
    · intro c' ok' res' ha
      obtain ⟨rfl, _⟩ := Action.advance.inj ha
      exact hnone
    · intro id hid
      cases hid
  simp only [Tables.advance] at hstep
  split at hstep
  · next kind hremoves =>
    split at hstep
    · next hlocked =>
      obtain ⟨u, hu, rfl⟩ := Option.map_eq_some_iff.mp hstep
      exact .removed hremoves hlocked hu
    · cases hstep
  · next hremoves =>
    split at hstep
    · split at hstep
      · exact hother hremoves hstep
      · cases hstep
    · exact hother hremoves hstep

/-- **Inversion.** Every step is one of those listed. -/
theorem tableSteps_of_step {a : TableAction} (hstep : s.step a = some t) : TableSteps s a t := by
  cases a with
  | lockTable c =>
    simp only [Tables.step] at hstep
    split at hstep
    · next kind hremoves =>
      split at hstep
      · next hfree =>
        obtain rfl := Option.some.inj hstep
        exact .locked hremoves hfree.1 hfree.2
      · cases hstep
    · cases hstep
  | act a =>
    cases a with
    | advance c ok res => exact tableSteps_of_advance hstep
    | _ =>
      simp only [Tables.step] at hstep
      split at hstep
      · next hentry =>
        obtain ⟨u, hu, rfl⟩ := Option.map_eq_some_iff.mp hstep
        exact .other nofun hentry hu
      · cases hstep

/-- The steps of the client and the server in a run. -/
def actions : List TableAction → List Action
  | [] => []
  | .act a :: rest => a :: actions rest
  | .lockTable _ :: rest => actions rest

/-- The locks of the tables only hold steps back: every run is one of the streams alone. -/
theorem run_streams {as : List TableAction} (hrun : Transition.run Tables.step s as = some t) :
    Transition.run Streams.step s.streams (actions as) = some t.streams := by
  induction as generalizing s with
  | nil =>
    obtain rfl := Option.some.inj hrun
    rfl
  | cons a as ih =>
    obtain ⟨m, hm, hrest⟩ := Transition.run_cons.mp hrun
    have htail := ih hrest
    cases tableSteps_of_step hm with
    | locked => exact htail
    | removed hremoves hlocked hstep => exact Transition.run_cons.mpr ⟨_, hstep, htail⟩
    | other hremoves hentry hstep => exact Transition.run_cons.mpr ⟨_, hstep, htail⟩

end RSafeFS.SyncClient
