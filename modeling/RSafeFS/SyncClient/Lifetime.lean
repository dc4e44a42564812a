import RSafeFS.SyncClient.Locks

/-!
# The life of a stream entry

`remove_streams` erases an entry when nobody holds its locks, but a call that has looked
the entry up and not yet locked it still refers to it. The invariant says that no entry in
a table, and none that a call refers to, has been erased; a step breaks it exactly where an
entry is erased between the look-up and the lock of another call.
-/

namespace RSafeFS.SyncClient

variable {s t : Streams}

/-- An entry is erased only when no call is between its look-up of the entry and its lock of
`mtx_write_`. -/
def Untaken (s : Streams) : Action → Prop
  | .advance c _ _ =>
    match s.pcs c with
    | .removing (kind :: _) _ => ∀ id, s.table kind (s.calls c).path = some id →
        ∀ c', s.pcs c' ≠ .found id
    | _ => True
  | _ => True

/-- No entry that can still be used has been erased. -/
structure Live (s : Streams) : Prop where
  table : ∀ kind path id, s.table kind path = some id → (s.entries id).erased = false ∧
    (s.entries id).kind = kind ∧ (s.entries id).path = path
  refers : ∀ c id, (s.pcs c).refers = some id → (s.entries id).erased = false
  used : s.misused = false

/-- A call that refers to an entry has looked it up or holds a lock of it. -/
theorem Pc.found_or_holds {pc : Pc} {id : ℕ} (h : pc.refers = some id) :
    pc = .found id ∨ pc.Holds id := by
  cases pc <;> simp_all [Pc.Holds, Pc.holdsWrite, Pc.holdsRead, Pc.refers]

theorem Pc.refers_of_uses {pc : Pc} {id : ℕ} (h : pc.uses = some id) : pc.refers = some id := by
  cases pc <;> simp_all [Pc.uses, Pc.refers]

/-- A step that erases nothing keeps the invariant if what the call refers to afterwards is
in a table or was referred to before. -/
theorem Live.of_step (h : Live s) (c : ℕ)
    (hpcs : ∀ c', c' ≠ c → t.pcs c' = s.pcs c') (htable : t.table = s.table)
    (hentries : ∀ id, (t.entries id).erased = (s.entries id).erased ∧
      (t.entries id).kind = (s.entries id).kind ∧ (t.entries id).path = (s.entries id).path)
    (hrefers : ∀ id, (t.pcs c).refers = some id → (s.pcs c).refers = some id ∨
      ∃ kind path, s.table kind path = some id)
    (hmisused : t.misused = s.misused) : Live t := by
  refine ⟨fun kind path id hid => ?_, fun c' id hid => ?_, hmisused ▸ h.used⟩
  · rw [htable] at hid
    obtain ⟨herased, hkind, hpath⟩ := hentries id
    rw [herased, hkind, hpath]
    exact h.table kind path id hid
  · rw [(hentries id).1]
    by_cases hc : c' = c
    · subst hc
      rcases hrefers id hid with hold | ⟨kind, path, hid⟩
      · exact h.refers c' id hold
      · exact (h.table kind path id hid).1
    · rw [hpcs c' hc] at hid
      exact h.refers c' id hid

/-- A step of a call that changes neither tables nor the state of an entry that matters here. -/
theorem Live.set (h : Live s) {s' : Streams} {c id : ℕ} {pc pc' : Pc} {e : Entry}
    (hpc : s.pcs c = pc) (hsame : s'.pcs = s.pcs ∧ s'.table = s.table ∧ s'.entries = s.entries ∧
      s'.misused = s.misused) (herased : e.erased = (s.entries id).erased)
    (hkind : e.kind = (s.entries id).kind) (hpath : e.path = (s.entries id).path)
    (hrefers : ∀ id, pc'.refers = some id → pc.refers = some id) :
    Live (s'.set id e |>.goto c pc') := by
  obtain ⟨hpcs, htable, hentries, hmisused⟩ := hsame
  refine h.of_step c (fun c' hc => ?_) htable (fun id' => ?_) (fun id' hid' => Or.inl ?_) hmisused
  · simp [Streams.goto, Streams.set, Function.update_of_ne hc, hpcs]
  · simp only [Streams.goto, Streams.set, hentries]
    by_cases hid : id' = id
    · subst hid
      rw [Function.update_self]
      exact ⟨herased, hkind, hpath⟩
    · rw [Function.update_of_ne hid]
      exact ⟨rfl, rfl, rfl⟩
  · simp only [Streams.goto, Function.update_self] at hid'
    rw [hpc]
    exact hrefers id' hid'

/-- A step of the server or the transport on an entry. -/
theorem Live.server (h : Live s) {s' : Streams} {id : ℕ} {e : Entry}
    (hsame : s'.pcs = s.pcs ∧ s'.table = s.table ∧ s'.entries = s.entries ∧ s'.misused = s.misused)
    (herased : e.erased = (s.entries id).erased) (hkind : e.kind = (s.entries id).kind)
    (hpath : e.path = (s.entries id).path) : Live (s'.set id e) := by
  obtain ⟨hpcs, htable, hentries, hmisused⟩ := hsame
  refine h.of_step 0 (fun c' _ => ?_) htable (fun id' => ?_) (fun id' hid' => Or.inl ?_) hmisused
  · exact congrFun hpcs c'
  · simp only [Streams.set, hentries]
    by_cases hid : id' = id
    · subst hid
      rw [Function.update_self]
      exact ⟨herased, hkind, hpath⟩
    · rw [Function.update_of_ne hid]
      exact ⟨rfl, rfl, rfl⟩
  · change (s'.pcs 0).refers = some id' at hid'
    rwa [hpcs] at hid'

/-- The erasure of an entry that no call refers to. -/
theorem Live.erase (h : Live s) (hlocks : Locks s) {c id : ℕ} {kind : Kind} {pc : Pc}
    (hid : s.table kind (s.calls c).path = some id) (hwrite : (s.entries id).mtxWrite = none)
    (hread : (s.entries id).mtxRead = none) (hfound : ∀ c', s.pcs c' ≠ .found id)
    (hpc : pc.refers = none) :
    Live ((s.link kind (s.calls c).path none).set id { s.entries id with erased := true } |>.goto c
      pc) := by
  have hunused : ∀ c', (s.pcs c').refers ≠ some id := by
    intro c' hrefers
    rcases Pc.found_or_holds hrefers with hpc' | hholds | hholds
    · exact hfound c' hpc'
    · have hheld := (hlocks c' id).write hholds
      simp [hwrite] at hheld
    · have hheld := (hlocks c' id).read hholds
      simp [hread] at hheld
  refine ⟨fun kind' path id' hid' => ?_, fun c' id' hid' => ?_, h.used⟩
  · change (s.link kind (s.calls c).path none).table kind' path = some id' at hid'
    rw [link_table] at hid'
    split at hid'
    · cases hid'
    · next hother =>
      have hne : id' ≠ id := by
        rintro rfl
        obtain ⟨_, hkind, hpath⟩ := h.table kind' path id' hid'
        obtain ⟨_, hkind', hpath'⟩ := h.table kind _ id' hid
        exact hother ⟨hkind.symm.trans hkind', hpath.symm.trans hpath'⟩
      simp only [Streams.goto, Streams.set, Function.update_of_ne hne]
      exact h.table kind' path id' hid'
  · by_cases hc : c' = c
    · subst hc
      simp [Streams.goto, hpc] at hid'
    · simp only [Streams.goto, Streams.set, Streams.link, Function.update_of_ne hc] at hid'
      have hne : id' ≠ id := by
        rintro rfl
        exact hunused c' hid'
      simp only [Streams.goto, Streams.set, Streams.link, Function.update_of_ne hne]
      exact h.refers c' id' hid'

/-- A new entry. -/
theorem Live.emplace (h : Live s) (hknown : Known s) {c : ℕ} {kind : Kind} {path : PathName} {pc : Pc}
    (hpc : pc.refers = none) :
    Live ({ s.link kind path (some s.next) with next := s.next + 1 }.set s.next (.new kind path) |>.goto
      c pc) := by
  refine ⟨fun kind' path' id' hid' => ?_, fun c' id' hid' => ?_, h.used⟩
  · change (s.link kind path (some s.next)).table kind' path' = some id' at hid'
    rw [link_table] at hid'
    split at hid'
    · next hsame =>
      obtain rfl := Option.some.inj hid'
      simp only [Streams.goto, Streams.set, Function.update_self, Entry.new]
      exact ⟨trivial, hsame.1.symm, hsame.2.symm⟩
    · have hne : id' ≠ s.next := Nat.ne_of_lt (hknown.table kind' path' id' hid')
      simp only [Streams.goto, Streams.set, Streams.link, Function.update_of_ne hne]
      exact h.table kind' path' id' hid'
  · by_cases hc : c' = c
    · subst hc
      simp [Streams.goto, hpc] at hid'
    · simp only [Streams.goto, Streams.set, Streams.link, Function.update_of_ne hc] at hid'
      have hne : id' ≠ s.next := Nat.ne_of_lt (hknown.refers c' id' hid')
      simp only [Streams.goto, Streams.set, Streams.link, Function.update_of_ne hne]
      exact h.refers c' id' hid'

/-- A call goes on, to a point where it refers to no entry or to one that it referred to or
that the table lists. -/
theorem Live.goto (h : Live s) {s' : Streams} {c : ℕ} {pc : Pc}
    (hsame : s'.pcs = s.pcs ∧ s'.table = s.table ∧ s'.entries = s.entries ∧
      s'.misused = s.misused)
    (hrefers : ∀ id, pc.refers = some id → (s.pcs c).refers = some id ∨
      ∃ kind path, s.table kind path = some id) : Live (s'.goto c pc) := by
  obtain ⟨hpcs, htable, hentries, hmisused⟩ := hsame
  refine h.of_step c (fun c' hc => ?_) htable (fun id => ?_) (fun id hid => ?_) hmisused
  · simp [Streams.goto, Function.update_of_ne hc, hpcs]
  · simp [Streams.goto, hentries]
  · simp only [Streams.goto, Function.update_self] at hid
    exact hrefers id hid

/-- **Step lemma.** Every step that erases no entry taken by a call keeps the invariant. -/
theorem Live.step (h : Live s) (hknown : Known s) (hlocks : Locks s) {a : Action}
    (hok : Untaken s a) (hstep : s.step a = some t) : Live t := by
  cases steps_of_step hstep with
  | @started c call pc hpc hplace =>
    refine h.goto ⟨rfl, rfl, rfl, rfl⟩ fun id hid => ?_
    rcases hplace with rfl | rfl
    · cases hid
    · cases hid
  | @move c ok res pc pc' hpc hmove =>
    refine h.goto ⟨rfl, rfl, rfl, rfl⟩ fun id hid => ?_
    cases hmove with
    | found hcall htable =>
      obtain rfl := Option.some.inj hid
      exact Or.inr ⟨_, _, htable⟩
    | writeFailed hbroken =>
      left
      rw [hpc]
      exact hid
    | _ => cases hid
  | @misuse c id ok res huses herased =>
    have hlive := h.refers c id (Pc.refers_of_uses huses)
    simp [herased] at hlive
  | lockWrite hpc | write hpc | lockRead hpc | unlockWrite hpc | read hpc | readFailed hpc =>
    exact h.set hpc ⟨rfl, rfl, rfl, rfl⟩ rfl rfl rfl fun _ hid => hid
  | unlockWriteFailed hpc | unlockReadFailed hpc | unlockReplied hpc =>
    exact h.set hpc ⟨rfl, rfl, rfl, rfl⟩ rfl rfl rfl nofun
  | @erase c id ok res kind todo retry hpc hid hwrite hread =>
    simp only [Untaken, hpc] at hok
    exact h.erase hlocks hid hwrite hread (hok id hid) rfl
  | emplace hpc => exact h.emplace hknown rfl
  | serve hpc => exact h.goto ⟨rfl, rfl, rfl, rfl⟩ nofun
  | accept | receive | sent | close | broke =>
    exact h.server ⟨rfl, rfl, rfl, rfl⟩ rfl rfl rfl

/-- **Lifetime.** In every run in which no entry is erased between another call's look-up of
the entry and its lock of `mtx_write_`, no call uses an entry after its erasure. -/
theorem stream_never_misused {actions : List Action}
    (hrun : Transition.run Streams.step Streams.initial actions = some s)
    (hok : Transition.Meets Streams.step Untaken Streams.initial actions) : s.misused = false := by
  refine (Transition.invariant (I := fun s => (Known s ∧ Locks s) ∧ Live s)
    (fun s a t h hsa hstep => ⟨⟨h.1.1.step hstep, h.1.2.step h.1.1 hstep⟩,
      h.2.step h.1.1 h.1.2 hsa hstep⟩) hrun hok
    ⟨⟨known_initial, locks_initial⟩, nofun, nofun, rfl⟩).2.used

/-- Where an entry is erased after the look-up of a call, the next step of that call uses
the erased entry. -/
theorem misused_of_taken {c c' id : ℕ} {ok ok' : Bool} {res res' : ℤ} {kind : Kind}
    {todo : List Kind} {retry : Bool} (hpc : s.pcs c = .removing (kind :: todo) retry)
    (hid : s.table kind (s.calls c).path = some id) (hfound : s.pcs c' = .found id)
    (hstep : s.step (.advance c ok res) = some t) :
    t.step (.advance c' ok' res') = some { t with misused := true } := by
  have hne : c' ≠ c := by
    rintro rfl
    simp [hpc] at hfound
  by_cases hmisused : s.misused
  · simp [Streams.step, hmisused] at hstep
  · simp only [Streams.step, hmisused, Bool.false_eq_true, if_false, hpc, Streams.advance,
      Streams.remove, hid] at hstep
    split at hstep
    · obtain rfl := Option.some.inj hstep
      simp [Streams.step, Streams.advance, Streams.use, Streams.goto, Streams.set, Streams.link, hmisused,
        hne, hfound]
    · cases hstep

/-- A write, as call 1, looks its stream up. -/
def lookedUp : List Action := [.start 1 (oneByte 0), onward 1]

/-- The path is released, as call 2. -/
def released : List Action := [.start 2 (.release ['/', 'f']), onward 2, onward 2, onward 2]

/-- The write takes `mtx_write_` and lets go of it when its stream fails. -/
def writeFails : List Action := [onward 1, .break 0 0 0, .advance 1 false 0, onward 1]

/-- The entry is erased after the write has let go of its lock. -/
theorem stream_never_misused_locked :
    ∃ s, Transition.run Streams.step Streams.initial (openForWriting ++ lookedUp ++
        writeFails ++ released) = some s ∧ (s.entries 0).erased = true ∧ s.misused = false := by
  obtain ⟨s, hrun, herased⟩ : ∃ s, Transition.run Streams.step Streams.initial (openForWriting ++
      lookedUp ++ writeFails ++ released) = some s ∧
      (s.entries 0).erased = true := ⟨_, rfl, rfl⟩
  refine ⟨s, hrun, herased, stream_never_misused hrun ?_⟩
  refine .cons trivial rfl (.cons trivial rfl (.cons trivial rfl (.cons trivial rfl (.cons trivial rfl
    (.cons trivial rfl (.cons trivial rfl (.cons trivial rfl (.cons trivial rfl (.cons trivial rfl
      (.cons trivial rfl (.cons trivial rfl (.cons ?_ rfl (.cons ?_ rfl trivial)))))))))))))
  · intro id hid
    cases hid
  · intro id _ c
    match c with
    | 0 => exact nofun
    | 1 => exact nofun
    | 2 => exact nofun
    | _ + 3 => exact nofun

/-- A write that has looked its stream up when the path is released locks an erased entry. -/
theorem not_never_misused : ¬ ∀ (actions : List Action) (s : Streams),
    Transition.run Streams.step Streams.initial actions = some s → s.misused = false := by
  intro hall
  have hmisused := hall (openForWriting ++ lookedUp ++ released ++ [onward 1]) _ rfl
  exact absurd hmisused (by decide)

end RSafeFS.SyncClient
