import RSafeFS.SyncClient.Streams

/-!
# The locks of a stream

A call holds `mtx_write_` from before it writes its request until after it has taken
`mtx_read_`, and `mtx_read_` until it has read its reply. The invariant ties the place of
each call to the holders that an entry records, and to the calls whose replies are still
to come.
-/

namespace RSafeFS.SyncClient

/-- The entry that a call has a reference to. -/
def Pc.refers : Pc → Option ℕ
  | .found id | .writing id | .writeFailed id | .written id | .handing id | .reading id
  | .readFailed id | .replied id _ => some id
  | _ => none

/-- The entry whose `mtx_write_` a call holds. -/
@[simp]
def Pc.holdsWrite : Pc → Option ℕ
  | .writing id | .writeFailed id | .written id | .handing id => some id
  | _ => none

/-- The entry whose `mtx_read_` a call holds. -/
@[simp]
def Pc.holdsRead : Pc → Option ℕ
  | .handing id | .reading id | .readFailed id | .replied id _ => some id
  | _ => none

/-- The numbers of entries in use have been given out. -/
structure Known (s : Streams) : Prop where
  table : ∀ kind path id, s.table kind path = some id → id < s.next
  refers : ∀ c id, (s.pcs c).refers = some id → id < s.next

/-- The place of a call and the state of an entry agree on the locks that the call holds and
on whether its reply is still to come. -/
structure Agrees (c id : ℕ) (pc : Pc) (e : Entry) : Prop where
  write : pc.holdsWrite = some id → e.mtxWrite = some c
  read : pc.holdsRead = some id → e.mtxRead = some c
  written : e.written = some c ↔ pc = .written id
  awaited : e.awaited = some c ↔ pc = .handing id ∨ pc = .reading id

/-- All calls and entries agree. -/
def Locks (s : Streams) : Prop := ∀ c id, Agrees c id (s.pcs c) (s.entries id)

/-- A call holds a lock of the entry. -/
@[simp]
def Pc.Holds (pc : Pc) (id : ℕ) : Prop := pc.holdsWrite = some id ∨ pc.holdsRead = some id

/-- A call that holds no lock of the entry has nothing out on it. -/
theorem agrees_of_not_holds {c id : ℕ} {pc : Pc} {e : Entry} (hpc : ¬ pc.Holds id) :
    Agrees c id pc e ↔ e.written ≠ some c ∧ e.awaited ≠ some c := by
  obtain ⟨hw, hr⟩ := not_or.mp hpc
  have hwritten : pc ≠ .written id := by
    rintro rfl
    exact hw rfl
  have hawaited : ¬ (pc = .handing id ∨ pc = .reading id) := by
    rintro (rfl | rfl)
    · exact hr rfl
    · exact hr rfl
  constructor
  · intro h
    exact ⟨mt h.written.mp hwritten, mt h.awaited.mp hawaited⟩
  · rintro ⟨hnotWritten, hnotAwaited⟩
    exact ⟨fun h => absurd h hw, fun h => absurd h hr, iff_of_false hnotWritten hwritten,
      iff_of_false hnotAwaited hawaited⟩

/-- A call holds locks only of the entry that it refers to. -/
theorem Pc.refers_of_holds {pc : Pc} {id : ℕ} (h : pc.Holds id) : pc.refers = some id := by
  cases pc <;> simp_all [Pc.refers]

variable {s t : Streams}

/-- A step of one call on the entry that it refers to keeps the locks if the two agree after
it and the entry still agrees with the other calls. -/
theorem Locks.of_step (h : Locks s) {c id : ℕ} {pc pc' : Pc} {e : Entry} (hpc : s.pcs c = pc)
    (hpcs : t.pcs = Function.update s.pcs c pc')
    (hentries : t.entries = Function.update s.entries id e)
    (hbefore : pc.refers = some id) (hafter : pc'.refers = some id ∨ pc'.refers = none)
    (hown : Agrees c id pc' e) (hother : ∀ c', c' ≠ c → Agrees c' id (s.pcs c') e) : Locks t := by
  have hholds : ∀ id', (s.pcs c).Holds id' → id' = id := by
    intro id' hid'
    rw [hpc] at hid'
    exact Option.some.inj ((Pc.refers_of_holds hid').symm.trans hbefore)
  have hholds' : ∀ id', pc'.Holds id' → id' = id := by
    intro id' hid'
    have hrefers := Pc.refers_of_holds hid'
    rcases hafter with heq | hnone
    · exact Option.some.inj (hrefers.symm.trans heq)
    · simp [hnone] at hrefers
  intro c' id'
  rw [hpcs, hentries]
  by_cases hc : c' = c
  · subst hc
    rw [Function.update_self]
    by_cases hid : id' = id
    · subst hid
      rwa [Function.update_self]
    · rw [Function.update_of_ne hid, agrees_of_not_holds fun hid' => hid (hholds' id' hid')]
      exact (agrees_of_not_holds fun hid' => hid (hholds id' hid')).mp (h c' id')
  · rw [Function.update_of_ne hc]
    by_cases hid : id' = id
    · subst hid
      rw [Function.update_self]
      exact hother c' hc
    · rw [Function.update_of_ne hid]
      exact h c' id'

/-- A step that changes neither a place nor what the entries say of the locks. -/
theorem Locks.of_same (h : Locks s) (hpcs : t.pcs = s.pcs)
    (hentries : ∀ id, (t.entries id).mtxWrite = (s.entries id).mtxWrite ∧
      (t.entries id).mtxRead = (s.entries id).mtxRead ∧
      (t.entries id).written = (s.entries id).written ∧
      (t.entries id).awaited = (s.entries id).awaited) : Locks t := by
  intro c id
  obtain ⟨hwrite, hread, hwritten, hawaited⟩ := hentries id
  have hagrees := h c id
  rw [hpcs]
  exact ⟨hwrite ▸ hagrees.write, hread ▸ hagrees.read, hwritten ▸ hagrees.written,
    hawaited ▸ hagrees.awaited⟩

/-- A change of an entry that leaves its locks as they are. -/
theorem Locks.set (h : Locks s) {id : ℕ} {e : Entry} (hwrite : e.mtxWrite = (s.entries id).mtxWrite)
    (hread : e.mtxRead = (s.entries id).mtxRead) (hwritten : e.written = (s.entries id).written)
    (hawaited : e.awaited = (s.entries id).awaited) : Locks (s.set id e) := by
  refine h.of_same rfl fun id' => ?_
  by_cases hid : id' = id
  · subst hid
    simp only [Streams.set, Function.update_self]
    exact ⟨hwrite, hread, hwritten, hawaited⟩
  · simp [Streams.set, Function.update_of_ne hid]

/-- A call without a lock moves to another place without one. -/
theorem Locks.goto (h : Locks s) {c : ℕ} {pc : Pc} (hbefore : ∀ id, ¬ (s.pcs c).Holds id)
    (hafter : ∀ id, ¬ pc.Holds id) : Locks (s.goto c pc) := by
  intro c' id
  by_cases hc : c' = c
  · subst hc
    simp only [Streams.goto, Function.update_self]
    rw [agrees_of_not_holds (hafter id)]
    exact (agrees_of_not_holds (hbefore id)).mp (h c' id)
  · simp only [Streams.goto, Function.update_of_ne hc]
    exact h c' id

/-- The entry agrees with the other calls after a change that concerns only one call. -/
theorem Agrees.other {c c' id : ℕ} {pc : Pc} {e e' : Entry} (h : Agrees c' id pc e) (hc : c' ≠ c)
    (hwrite : e.mtxWrite = e'.mtxWrite ∨ e.mtxWrite = none ∨ e.mtxWrite = some c)
    (hread : e.mtxRead = e'.mtxRead ∨ e.mtxRead = none ∨ e.mtxRead = some c)
    (hwritten : e'.written = some c' ↔ e.written = some c')
    (hawaited : e'.awaited = some c' ↔ e.awaited = some c') : Agrees c' id pc e' := by
  refine ⟨fun hpc => ?_, fun hpc => ?_, hwritten.trans h.written, hawaited.trans h.awaited⟩
  · have hheld := h.write hpc
    rcases hwrite with heq | hnone | hsome
    · rwa [← heq]
    · simp [hnone] at hheld
    · exact absurd (Option.some.inj (hheld.symm.trans hsome)) hc
  · have hheld := h.read hpc
    rcases hread with heq | hnone | hsome
    · rwa [← heq]
    · simp [hnone] at hheld
    · exact absurd (Option.some.inj (hheld.symm.trans hsome)) hc

/-- A call elsewhere has no request out that it has not handed over. -/
theorem Agrees.not_written {c id : ℕ} {pc : Pc} {e : Entry} (h : Agrees c id pc e)
    (hpc : pc ≠ .written id) : e.written ≠ some c := mt h.written.mp hpc

/-- A call elsewhere waits for no reply. -/
theorem Agrees.not_awaited {c id : ℕ} {pc : Pc} {e : Entry} (h : Agrees c id pc e)
    (hpc : ¬ (pc = .handing id ∨ pc = .reading id)) : e.awaited ≠ some c := mt h.awaited.mp hpc

/-- A call that has nothing out gives up its locks and its reference. -/
theorem Locks.unlock (h : Locks s) {c id : ℕ} {pc pc' : Pc} {e : Entry} (hpc : s.pcs c = pc)
    (hpcs : t.pcs = Function.update s.pcs c pc')
    (hentries : t.entries = Function.update s.entries id e)
    (hbefore : pc.refers = some id) (hafter : pc'.refers = none)
    (hplace : pc ≠ .written id ∧ ¬ (pc = .handing id ∨ pc = .reading id))
    (hwrite : (s.entries id).mtxWrite = e.mtxWrite ∨ (s.entries id).mtxWrite = some c)
    (hread : (s.entries id).mtxRead = e.mtxRead ∨ (s.entries id).mtxRead = some c)
    (hwritten : e.written = (s.entries id).written)
    (hawaited : e.awaited = (s.entries id).awaited) : Locks t := by
  have hagrees := h c id
  rw [hpc] at hagrees
  refine h.of_step hpc hpcs hentries hbefore (Or.inr hafter) ?_ fun c' hc => ?_
  · rw [agrees_of_not_holds fun hholds => by simp [Pc.refers_of_holds hholds] at hafter]
    rw [hwritten, hawaited]
    exact ⟨hagrees.not_written hplace.1, hagrees.not_awaited hplace.2⟩
  · exact (h c' id).other hc (hwrite.imp_right Or.inr) (hread.imp_right Or.inr) (by rw [hwritten])
      (by rw [hawaited])

/-- A call that waited for its reply is told what came of it. -/
theorem Locks.answered (h : Locks s) {c id : ℕ} {pc : Pc} {e : Entry} (hpc : s.pcs c = .reading id)
    (hpcs : t.pcs = Function.update s.pcs c pc)
    (hentries : t.entries = Function.update s.entries id e)
    (hafter : pc.refers = some id) (hplace : pc = .readFailed id ∨ ∃ reply, pc = .replied id reply)
    (hwrite : e.mtxWrite = (s.entries id).mtxWrite) (hread : e.mtxRead = (s.entries id).mtxRead)
    (hwritten : e.written = (s.entries id).written) (hawaited : e.awaited = none) : Locks t := by
  have hagrees := h c id
  rw [hpc] at hagrees
  have hwaited := hagrees.awaited.mpr (Or.inr rfl)
  have hother : ∀ c', c' ≠ c → ¬ (s.entries id).awaited = some c' := by
    intro c' hc heq
    exact hc (Option.some.inj (heq.symm.trans hwaited))
  refine h.of_step hpc hpcs hentries rfl (Or.inl hafter) ?_ fun c' hc => ?_
  · have hnot := hagrees.not_written (by simp)
    rcases hplace with rfl | ⟨reply, rfl⟩
    · exact ⟨nofun, fun _ => hread ▸ hagrees.read rfl, iff_of_false (hwritten ▸ hnot) (by simp),
        iff_of_false (by simp [hawaited]) (by simp)⟩
    · exact ⟨nofun, fun _ => hread ▸ hagrees.read rfl, iff_of_false (hwritten ▸ hnot) (by simp),
        iff_of_false (by simp [hawaited]) (by simp)⟩
  · refine (h c' id).other hc (Or.inl hwrite.symm) (Or.inl hread.symm) (by rw [hwritten]) ?_
    exact iff_of_false (by simp [hawaited]) (hother c' hc)

/-- Only the holder of `mtx_write_` has written a request and not handed it over. -/
theorem Locks.written_eq (h : Locks s) {c c' id : ℕ} (hwritten : (s.entries id).written = some c')
    (hwrite : (s.entries id).mtxWrite = some c) : c' = c := by
  have hpc := (h c' id).written.mp hwritten
  have hheld := (h c' id).write (by rw [hpc]; rfl)
  exact Option.some.inj (hheld.symm.trans hwrite)

/-- Only the holder of `mtx_read_` waits for a reply. -/
theorem Locks.awaited_eq (h : Locks s) {c' id : ℕ} (hawaited : (s.entries id).awaited = some c') :
    (s.entries id).mtxRead = some c' := by
  refine (h c' id).read ?_
  rcases (h c' id).awaited.mp hawaited with hpc | hpc
  · rw [hpc]
    rfl
  · rw [hpc]
    rfl

/-- A call that only moves keeps its locks. -/
theorem Locks.move (h : Locks s) {c : ℕ} {pc pc' : Pc} (hpc : s.pcs c = pc)
    (hmove : Move s c pc pc') : Locks (s.goto c pc') := by
  cases hmove with
  | @writeFailed id hbroken =>
    have hagrees := h c id
    rw [hpc] at hagrees
    refine h.of_step hpc rfl (Function.update_eq_self id s.entries).symm rfl (Or.inl rfl) ?_
      fun c' _ => h c' id
    exact ⟨fun _ => hagrees.write rfl, nofun,
      iff_of_false (hagrees.not_written (by simp)) (by simp),
      iff_of_false (hagrees.not_awaited (by simp)) (by simp)⟩
  | _ =>
    refine h.goto (fun id => ?_) fun id => ?_
    · simp [hpc]
    · simp

/-- Every step keeps the locks. -/
theorem Locks.step (h : Locks s) (hknown : Known s) {a : Action} (hstep : s.step a = some t) :
    Locks t := by
  cases steps_of_step hstep with
  | @started c call pc hpc hplace =>
    have hcalls : Locks { s with calls := Function.update s.calls c call } := h
    refine hcalls.goto (fun id => ?_) fun id => ?_
    · simp [hpc]
    · rcases hplace with rfl | rfl
      · simp
      · simp
  | move hpc hmove => exact h.move hpc hmove
  | misuse huses herased => exact h
  | @lockWrite c id ok res hpc hfree =>
    have hagrees := h c id
    rw [hpc, agrees_of_not_holds (by simp)] at hagrees
    refine h.of_step hpc rfl rfl rfl (Or.inl rfl) ?_ fun c' hc => ?_
    · exact ⟨fun _ => rfl, nofun, iff_of_false hagrees.1 (by simp),
        iff_of_false hagrees.2 (by simp)⟩
    · exact (h c' id).other hc (Or.inr (Or.inl hfree)) (Or.inl rfl) Iff.rfl Iff.rfl
  | @write c id ok res kind request hpc hcall =>
    have hagrees := h c id
    rw [hpc] at hagrees
    have hnone : ∀ c', (s.entries id).written ≠ some c' := by
      intro c' hw
      obtain rfl := h.written_eq hw (hagrees.write rfl)
      exact hagrees.not_written (by simp) hw
    refine h.of_step hpc rfl rfl rfl (Or.inl rfl) ?_ fun c' hc => ?_
    · exact ⟨fun _ => hagrees.write rfl, nofun, iff_of_true rfl rfl,
        iff_of_false (hagrees.not_awaited (by simp)) (by simp)⟩
    · exact (h c' id).other hc (Or.inl rfl) (Or.inl rfl)
        (iff_of_false (fun heq => hc (Option.some.inj heq).symm) (hnone c')) Iff.rfl
  | @unlockWriteFailed c id ok res hpc =>
    exact h.unlock hpc rfl rfl rfl rfl (by simp) (Or.inr ((h c id).write (by rw [hpc]; rfl)))
      (Or.inl rfl) rfl rfl
  | @lockRead c id ok res hpc hfree =>
    have hagrees := h c id
    rw [hpc] at hagrees
    have hwritten := hagrees.written.mpr rfl
    have hnone : ∀ c', (s.entries id).awaited ≠ some c' := by
      intro c' ha
      have hheld := h.awaited_eq ha
      simp [hfree] at hheld
    refine h.of_step hpc rfl rfl rfl (Or.inl rfl) ?_ fun c' hc => ?_
    · exact ⟨fun _ => hagrees.write rfl, fun _ => rfl, iff_of_false (by simp) (by simp),
        iff_of_true rfl (Or.inl rfl)⟩
    · refine (h c' id).other hc (Or.inl rfl) (Or.inr (Or.inl hfree)) ?_ ?_
      · refine iff_of_false (by simp) ?_
        rw [hwritten]
        exact fun heq => hc (Option.some.inj heq).symm
      · exact iff_of_false (fun heq => hc (Option.some.inj heq).symm) (hnone c')
  | @unlockWrite c id ok res hpc =>
    have hagrees := h c id
    rw [hpc] at hagrees
    refine h.of_step hpc rfl rfl rfl (Or.inl rfl) ?_ fun c' hc => ?_
    · exact ⟨nofun, fun _ => hagrees.read rfl,
        iff_of_false (hagrees.not_written (by simp)) (by simp),
        iff_of_true (hagrees.awaited.mpr (Or.inl rfl)) (Or.inr rfl)⟩
    · exact (h c' id).other hc (Or.inr (Or.inr (hagrees.write rfl))) (Or.inl rfl) Iff.rfl Iff.rfl
  | read hpc hclient =>
    exact h.answered hpc rfl rfl rfl (Or.inr ⟨_, rfl⟩) rfl rfl rfl rfl
  | readFailed hpc hclient hbroken =>
    exact h.answered hpc rfl rfl rfl (Or.inl rfl) rfl rfl rfl rfl
  | @unlockReadFailed c id ok res hpc =>
    exact h.unlock hpc rfl rfl rfl rfl (by simp) (Or.inl rfl)
      (Or.inr ((h c id).read (by rw [hpc]; rfl))) rfl rfl
  | @unlockReplied c id ok res reply hpc =>
    exact h.unlock hpc rfl rfl rfl rfl (by simp) (Or.inl rfl)
      (Or.inr ((h c id).read (by rw [hpc]; rfl))) rfl rfl
  | @erase c id ok res kind todo retry hpc hid hwrite hread =>
    have htable : Locks (s.link kind (s.calls c).path none) := h
    have herased : Locks ((s.link kind (s.calls c).path none).set id
        { s.entries id with erased := true }) := htable.set rfl rfl rfl rfl
    refine herased.goto (fun id => ?_) fun id => ?_
    · simp [Streams.set, Streams.link, hpc]
    · simp
  | @emplace c ok res kind todo reply hpc =>
    refine Locks.goto (fun c' id => ?_) (fun id => ?_) fun id => ?_
    · by_cases hid : id = s.next
      · subst hid
        simp only [Streams.set, Streams.link, Function.update_self]
        have hfree : ¬ (s.pcs c').Holds s.next := fun hholds =>
          absurd (hknown.refers c' s.next (Pc.refers_of_holds hholds)) (Nat.lt_irrefl _)
        rw [agrees_of_not_holds hfree]
        simp [Entry.new]
      · simp only [Streams.set, Streams.link, Function.update_of_ne hid]
        exact h c' id
    · simp [Streams.set, Streams.link, hpc]
    · simp
  | @serve c reply kind request hpc hcall =>
    have hexecuted : Locks { s with executed := ⟨c, none, request, reply⟩ :: s.executed } := h
    refine hexecuted.goto (fun id => ?_) fun id => ?_
    · simp [hpc]
    · simp
  | accept hhandler => exact h.set rfl rfl rfl rfl
  | @receive id c reply request toServer hhandler hserver =>
    have hexecuted : Locks { s with executed := ⟨c, some id, request, reply⟩ :: s.executed } := h
    exact hexecuted.set rfl rfl rfl rfl
  | sent hhandler => exact h.set rfl rfl rfl rfl
  | close hhandler => exact h.set rfl rfl rfl rfl
  | broke => exact h.set rfl rfl rfl rfl

/-- A step keeps the numbers in use below the next one if the call's new reference is known. -/
theorem Known.of_step (h : Known s) {c : ℕ} {pc : Pc} (hpcs : t.pcs = Function.update s.pcs c pc)
    (hnext : s.next ≤ t.next)
    (htable : ∀ kind path id, t.table kind path = some id →
      s.table kind path = some id ∨ id < t.next)
    (hrefers : ∀ id, pc.refers = some id → id < s.next) : Known t := by
  refine ⟨fun kind path id hid => ?_, fun c' id hid => ?_⟩
  · rcases htable kind path id hid with hold | hlt
    · exact Nat.lt_of_lt_of_le (h.table kind path id hold) hnext
    · exact hlt
  · rw [hpcs] at hid
    by_cases hc : c' = c
    · subst hc
      rw [Function.update_self] at hid
      exact Nat.lt_of_lt_of_le (hrefers id hid) hnext
    · rw [Function.update_of_ne hc] at hid
      exact Nat.lt_of_lt_of_le (h.refers c' id hid) hnext

/-- Every step keeps the numbers in use below the next one. -/
theorem Known.step (h : Known s) {a : Action} (hstep : s.step a = some t) : Known t := by
  have hsame : ∀ {c id : ℕ} {pc : Pc}, s.pcs c = pc → pc.refers = some id → id < s.next := by
    intro c id pc hpc hrefers
    exact h.refers c id (by rw [hpc]; exact hrefers)
  cases steps_of_step hstep with
  | @started c call pc hpc hplace =>
    refine h.of_step rfl le_rfl (fun _ _ _ => Or.inl) fun id hid => ?_
    rcases hplace with rfl | rfl
    · cases hid
    · cases hid
  | @move c ok res pc pc' hpc hmove =>
    refine h.of_step rfl le_rfl (fun _ _ _ => Or.inl) fun id hid => ?_
    cases hmove with
    | found hcall htable =>
      obtain rfl := Option.some.inj hid
      exact h.table _ _ _ htable
    | writeFailed hbroken =>
      obtain rfl := Option.some.inj hid
      exact hsame hpc rfl
    | _ => cases hid
  | misuse huses herased => exact ⟨h.table, h.refers⟩
  | lockWrite hpc | write hpc | lockRead hpc | unlockWrite hpc | readFailed hpc | read hpc =>
    refine h.of_step rfl le_rfl (fun _ _ _ => Or.inl) fun id hid => ?_
    obtain rfl := Option.some.inj hid
    exact hsame hpc rfl
  | unlockWriteFailed hpc | unlockReadFailed hpc | unlockReplied hpc | serve hpc =>
    refine h.of_step rfl le_rfl (fun _ _ _ => Or.inl) fun id hid => ?_
    cases hid
  | @erase c id ok res kind todo retry hpc hid hwrite hread =>
    refine h.of_step rfl le_rfl (fun kind' path id' hid' => Or.inl ?_)
      fun id hid => ?_
    · change (s.link kind (s.calls c).path none).table kind' path = some id' at hid'
      rw [link_table] at hid'
      split at hid'
      · cases hid'
      · exact hid'
    · cases hid
  | @emplace c ok res kind todo reply hpc =>
    refine h.of_step rfl (Nat.le_succ _) (fun kind' path id' hid' => ?_)
      fun id hid => ?_
    · change (s.link kind (s.calls c).path (some s.next)).table kind' path = some id' at hid'
      rw [link_table] at hid'
      split at hid'
      · obtain rfl := Option.some.inj hid'
        exact Or.inr (Nat.lt_succ_self _)
      · exact Or.inl hid'
    · cases hid
  | accept | receive | sent | close | broke => exact ⟨h.table, h.refers⟩

theorem known_initial : Known Streams.initial := ⟨nofun, nofun⟩

theorem locks_initial : Locks Streams.initial := by
  intro c id
  refine (agrees_of_not_holds ?_).mpr ⟨nofun, nofun⟩
  simp [Streams.initial]

end RSafeFS.SyncClient
