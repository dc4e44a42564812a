import RSafeFS.AsyncClient.Invariant
import Mathlib.Data.List.Forall2
import Mathlib.Data.List.Perm.Subperm

/-!
# What a flush of the asynchronous client guarantees

Over a transport that does not fail, the server executes the writes in the order in
which they were appended, merged or not, and a flush that has got its result has all
writes before it executed. A flush does not report what happens to a write at the server
or on a failing stream, so its result says that the writes succeeded only where nothing
of this goes wrong.
-/

namespace RSafeFS.AsyncClient

variable {σ : Type} {config : ClientConfig} {server : Server σ} {s t : State σ}

/-- What only the callers' threads and the server change. -/
structure Undisturbed (s t : State σ) : Prop where
  server : t.server = s.server
  executed : t.executed = s.executed
  appended : t.appended = s.appended
  pcs : t.pcs = s.pcs
  lock : t.lock = s.lock
  nextCall : t.nextCall = s.nextCall

/-- The start of a call leaves the server and the callers alone. -/
theorem start_undisturbed (c : CallData) : Undisturbed s (s.start c) := by
  unfold State.start
  split <;> exact ⟨rfl, rfl, rfl, rfl, rfl, rfl⟩

/-- A turn of the scheduler leaves the server and the callers alone. -/
theorem handle_undisturbed (event : Event) : Undisturbed s (s.handle event) := by
  have hstart (calls : List CallData) (c : CallData) :
      Undisturbed s ({ s with calls, flushing := true }.start c) := by
    have hsame := start_undisturbed (s := { s with calls, flushing := true }) c
    exact ⟨hsame.server, hsame.executed, hsame.appended, hsame.pcs, hsame.lock, hsame.nextCall⟩
  unfold State.handle
  split
  · split
    · exact ⟨rfl, rfl, rfl, rfl, rfl, rfl⟩
    · exact hstart _ _
  · split
    · exact ⟨rfl, rfl, rfl, rfl, rfl, rfl⟩
    · split
      · exact ⟨rfl, rfl, rfl, rfl, rfl, rfl⟩
      · exact hstart _ _
  · split <;> exact ⟨rfl, rfl, rfl, rfl, rfl, rfl⟩

/-- What a step does at the server. -/
inductive ServerStep (server : Server σ) (s : State σ) (a : Action) (t : State σ) : Prop
  | quiet (hserver : t.server = s.server) (hexecuted : t.executed = s.executed)
  | executed (m : Message)
      (hfrom : (∃ i c, a = .serve i ∧ s.active[i]? = some c ∧ c.stream.wire.head? = some m) ∨
        ∃ stream ∈ s.orphans, stream.wire.head? = some m)
      (hserver : t.server = (server.write m.request s.server).2)
      (hexecuted : t.executed = s.executed ++ [(m, (server.write m.request s.server).1)])
  | flushed (ok : Bool) (kind : FlushKind)
      (hserver : t.server = (s.finishFlush server ok kind).2.server)
      (hexecuted : t.executed = s.executed)

/-- Every step leaves the server alone, executes one request there, or ends a flush. -/
theorem serverStep_of_step {a : Action} (hstep : s.step config server a = some t) :
    ServerStep server s a t := by
  cases steps_of_step hstep with
  | @flushReturn _ _ ok kind =>
    exact .flushed ok kind rfl (finishFlush_executed server ok kind).1
  | @handle event =>
    have hsame := handle_undisturbed (s := { s with received := none }) event
    exact .quiet hsame.server hsame.executed
  | @execute i c m wire hc hwire =>
    exact .executed m (Or.inl ⟨i, c, rfl, hc, by simp [hwire]⟩) rfl rfl
  | @executeOrphan _ stream m wire hstream hwire =>
    have hmem : stream ∈ s.orphans := List.mem_of_getElem? hstream
    exact .executed m (Or.inr ⟨stream, hmem, by simp [hwire]⟩) rfl rfl
  | _ => exact .quiet rfl rfl

section Contents

variable {F : Type} [DecidableEq F] {file : PathName → FuseFileInfo → Option F}
  {content : σ → F → Bytes}

/-- The server writes files as `pwrite` does; flushing leaves their contents as they are. -/
structure Server.Pwrites (server : Server σ) (file : PathName → FuseFileInfo → Option F)
    (content : σ → F → Bytes) : Prop where
  write : ∀ r w, content (server.write r w).2 = applyWrite file (content w) r
  flush : ∀ path fi w, content (server.flush path fi w).2 = content w
  fsync : ∀ path isdatasync fi w, content (server.fsync path isdatasync fi w).2 = content w

/-- What a completed flush does at the server leaves the contents as they are. -/
theorem finishFlush_content (hpwrites : server.Pwrites file content) (ok : Bool)
    (kind : FlushKind) : content (s.finishFlush server ok kind).2.server = content s.server := by
  cases kind with
  | flush path fi =>
    cases ok with
    | true => exact hpwrites.flush path fi s.server
    | false => rfl
  | fsync path isdatasync fi =>
    cases ok with
    | true => exact hpwrites.fsync path isdatasync fi s.server
    | false => rfl
  | destroy => rfl

/-- The contents at the server are the in-order effect of the executed blocks. -/
def Replayed (file : PathName → FuseFileInfo → Option F) (content : σ → F → Bytes) (w : σ)
    (s : State σ) : Prop :=
  content s.server = applyAll file (content w) s.executedParts

/-- Every step keeps the contents in line with the executed blocks. -/
theorem Replayed.step (hpwrites : server.Pwrites file content) {w : σ} (hinv : Inv t)
    (h : Replayed file content w s) {a : Action} (hstep : s.step config server a = some t) :
    Replayed file content w t := by
  unfold Replayed State.executedParts at h ⊢
  cases serverStep_of_step hstep with
  | quiet hserver hexecuted =>
    rw [hserver, hexecuted]
    exact h
  | executed m _ hserver hexecuted =>
    have hm : Merges m.request m.parts :=
      hinv.merges (m, (server.write m.request s.server).1) (by rw [hexecuted]; simp)
    rw [hserver, hexecuted, hpwrites.write, hm.applyWrite_eq, h, ← applyAll_append]
    simp
  | flushed ok kind hserver hexecuted =>
    rw [hserver, hexecuted, finishFlush_content hpwrites]
    exact h

end Contents

/-- The requests of executed messages, one by one, are made of the messages' blocks. -/
theorem Inv.forall₂_merges (h : Inv s) :
    List.Forall₂ Merges (s.executed.map fun e => e.1.request)
      (s.executed.map fun e => e.1.parts) := by
  rw [List.forall₂_map_left_iff, List.forall₂_map_right_iff, List.forall₂_same]
  exact h.merges

/-- The `get` of a flush that was scheduled behind `mark` writes has returned. -/
def State.Completed (s : State σ) (mark : ℕ) : Prop :=
  (∃ thread kind, s.pcs thread = .flushed kind mark) ∨ ∃ kind res, (kind, mark, res) ∈ s.returned

/-- The executed blocks are the first writes. -/
theorem Inv.executedParts_isPrefix (h : Inv s) : s.executedParts <+: s.appended :=
  ⟨s.pending, h.conserved⟩

/-- The writes before a completed flush are executed. -/
theorem Inv.take_executed_of_completed (h : Inv s) {mark : ℕ} (hcompleted : s.Completed mark) :
    s.appended.take mark <+: s.executedParts := by
  have hmark : mark ≤ s.executedParts.length := by
    rcases hcompleted with ⟨thread, kind, hpc⟩ | ⟨kind, res, hreturned⟩
    · have hthread := h.threads thread
      rwa [hpc] at hthread
    · exact h.returned _ hreturned
  apply List.prefix_of_prefix_length_le (List.take_prefix mark s.appended) h.executedParts_isPrefix
  rw [List.length_take]
  omega

/-- **The write-behind pipeline.** Over a transport that does not fail, at every moment:
the executed requests are, up to merging, a prefix of the appended writes, and the writes
before a completed flush are in it. At a server that writes like `pwrite` the contents are
the in-order effect of that prefix, and so, after a flush behind all writes, of all writes. -/
theorem writeBehind_inOrder {w : σ} {actions : List Action}
    (hrun : Transition.run (State.step config server) (State.initial w) actions = some s)
    (hintact : ∀ a ∈ actions, a.Intact) :
    ∃ parts : List (List Block),
      List.Forall₂ Merges (s.executed.map fun e => e.1.request) parts ∧
      parts.flatten <+: s.appended ∧
      (∀ mark, s.Completed mark → s.appended.take mark <+: parts.flatten) ∧
      ∀ {F : Type} [DecidableEq F] (file : PathName → FuseFileInfo → Option F)
        (content : σ → F → Bytes), server.Pwrites file content →
        content s.server = applyAll file (content w) parts.flatten ∧
        (s.Completed s.appended.length →
          content s.server = applyAll file (content w) s.appended) := by
  have hmeets : Transition.Meets (State.step config server) Harmless (State.initial w) actions :=
    .of_forall_mem fun a ha => (hintact a ha).harmless
  have hinv : Inv s := inv_run hrun hmeets
  have hparts : (s.executed.map fun e => e.1.parts).flatten = s.executedParts :=
    List.flatMap_def.symm
  refine ⟨s.executed.map fun e => e.1.parts, hinv.forall₂_merges, ?_⟩
  rw [hparts]
  refine ⟨hinv.executedParts_isPrefix, fun mark => hinv.take_executed_of_completed, ?_⟩
  intro F _ file content hpwrites
  have hboth : Inv s ∧ Replayed file content w s := by
    refine Transition.invariant (I := fun s => Inv s ∧ Replayed file content w s) ?_ hrun hmeets
      ⟨inv_initial w, rfl⟩
    rintro s a t ⟨hinv, hreplayed⟩ hok hstep
    have hinv' := hinv.step hok hstep
    exact ⟨hinv', hreplayed.step hpwrites hinv' hstep⟩
  refine ⟨hboth.2, fun hcompleted => ?_⟩
  have hall := hinv.take_executed_of_completed hcompleted
  rw [List.take_length] at hall
  have heq : s.executedParts = s.appended :=
    hinv.executedParts_isPrefix.eq_of_length_le hall.length_le
  rw [← heq]
  exact hboth.2

/-- A server that keeps a file for each handle. -/
def handleServer : Server (ℕ → Bytes) where
  write r w := (r.buf.length, applyWrite (fun _ fi => some fi.fh) w r)
  flush _ _ w := (0, w)
  fsync _ _ _ w := (0, w)

/-- Its writes are those of `pwrite`. -/
theorem handleServer_pwrites : handleServer.Pwrites (fun _ fi => some fi.fh) id where
  write _ _ := rfl
  flush _ _ _ := rfl
  fsync _ _ _ _ := rfl

/-- A client with room for three bytes. -/
def smallConfig : ClientConfig := ⟨3, 3, fun n => n > 3⟩

/-- The first of two adjacent writes. -/
def firstBlock : Block := ⟨['/', 'f'], [1, 2], 0, default, by decide, by decide⟩

/-- The second of two adjacent writes. -/
def secondBlock : Block := ⟨['/', 'f'], [3], 2, default, by decide, by decide⟩

/-- Two adjacent writes and a flush by one thread, to its return. -/
def writesThenFlush : List Action :=
  [.writeLock 0 firstBlock, .writeCheck 0, .writeAppend 0,
    .writeLock 0 secondBlock, .writeCheck 0, .writeAppend 0,
    .flushSchedule 0 (.flush ['/', 'f'] default), .receive, .handle,
    .proceed 0 true, .serve 0, .proceed 0 true, .proceed 0 true, .serve 0, .proceed 0 true,
    .resolve 0, .flushGet 0, .flushReturn 0 true]

/-- The two writes reach the server as one request, before the flush returns. -/
theorem writeBehind_inOrder_writesThenFlush :
    ∃ s, Transition.run (State.step smallConfig handleServer) (State.initial fun _ => [])
        writesThenFlush = some s ∧
      s.executed.map (fun e => e.1.request) = [⟨['/', 'f'], [1, 2, 3], 0, default⟩] ∧
      s.server = applyAll (fun _ fi => some fi.fh) (fun _ => []) [firstBlock, secondBlock] := by
  have hreaches : (Transition.run (State.step smallConfig handleServer)
      (State.initial fun _ => []) writesThenFlush).any (fun s =>
        s.appended = [firstBlock, secondBlock] ∧
        s.executed.map (fun e => e.1.request) = [⟨['/', 'f'], [1, 2, 3], 0, default⟩] ∧
        s.returned = [(.flush ['/', 'f'] default, 2, 0)]) = true := by
    decide +kernel
  obtain ⟨s, hrun, hs⟩ := Option.any_eq_true _ _ |>.mp hreaches
  obtain ⟨happended, hexecuted, hreturned⟩ := of_decide_eq_true hs
  obtain ⟨parts, -, -, -, hcontent⟩ :=
    writeBehind_inOrder hrun (by simp [writesThenFlush, Action.Intact])
  obtain ⟨-, hall⟩ := hcontent (fun _ fi => some fi.fh) id handleServer_pwrites
  rw [happended] at hall
  exact ⟨s, hrun, hexecuted, hall (Or.inr ⟨.flush ['/', 'f'] default, 0, by simp [hreturned]⟩)⟩

/-- Every flush that has returned 0 (the destructor counts as one) has each write before it,
with its multiplicity, in a request that the server executed with its full size as result. -/
def Acknowledged (s : State σ) : Prop :=
  ∀ kind mark, (kind, mark, 0) ∈ s.returned →
    ∃ requests : List (Message × ℤ), requests.Sublist s.executed ∧
      (∀ e ∈ requests, Merges e.1.request e.1.parts ∧ e.2 = e.1.request.buf.length) ∧
      (s.appended.take mark).Subperm (requests.flatMap fun e => e.1.parts)

/-- No stream fails that has something to deliver, and the server writes in full. -/
def FullWrites (server : Server σ) (s : State σ) : Action → Prop
  | .fail i => ∀ c, s.active[i]? = some c → c.Delivered
  | .serve i => ∀ c m, s.active[i]? = some c → c.stream.wire.head? = some m →
      (server.write m.request s.server).1 = m.request.buf.length
  | _ => True

/-- A step that meets the condition is harmless. -/
theorem FullWrites.harmless {a : Action} (h : FullWrites server s a) : Harmless s a := by
  cases a with
  | fail i => exact h
  | _ => trivial

/-- The results of all executed requests stay full. -/
theorem FullWrites.step {a : Action} (h : FullWrites server s a) (hinv : Inv s)
    (hfull : ∀ e ∈ s.executed, e.2 = e.1.request.buf.length)
    (hstep : s.step config server a = some t) :
    ∀ e ∈ t.executed, e.2 = e.1.request.buf.length := by
  intro e he
  cases serverStep_of_step hstep with
  | quiet _ hexecuted =>
    rw [hexecuted] at he
    exact hfull e he
  | executed m hfrom _ hexecuted =>
    rw [hexecuted] at he
    rcases List.mem_append.mp he with hold | hnew
    · exact hfull e hold
    rw [List.mem_singleton.mp hnew]
    rcases hfrom with ⟨i, c, ha, hc, hwire⟩ | ⟨stream, hstream, hwire⟩
    · subst ha
      exact h c m hc hwire
    · -- The client has left no stream with a message on it.
      rw [hinv.orphans stream hstream] at hwire
      cases hwire
  | flushed _ _ _ hexecuted =>
    rw [hexecuted] at he
    exact hfull e he

/-- **Acknowledged durability.** A flush that returns 0 tells the truth in every run in which
no stream fails that has something to deliver and the server writes in full. -/
theorem acknowledged_of_fullWrites {w : σ} {actions : List Action}
    (hrun : Transition.run (State.step config server) (State.initial w) actions = some s)
    (hmeets : Transition.Meets (State.step config server) (FullWrites server) (State.initial w)
      actions) : Acknowledged s := by
  have hboth : Inv s ∧ ∀ e ∈ s.executed, e.2 = e.1.request.buf.length := by
    refine Transition.invariant
      (I := fun s => Inv s ∧ ∀ e ∈ s.executed, e.2 = e.1.request.buf.length) ?_ hrun hmeets
      ⟨inv_initial w, fun e he => absurd he List.not_mem_nil⟩
    rintro s a t ⟨hinv, hfull⟩ hok hstep
    exact ⟨hinv.step hok.harmless hstep, hok.step hinv hfull hstep⟩
  obtain ⟨hinv, hfull⟩ := hboth
  intro kind mark hreturned
  have hexecuted := hinv.take_executed_of_completed (Or.inr ⟨kind, 0, hreturned⟩)
  exact ⟨s.executed, List.Sublist.refl _, fun e he => ⟨hinv.merges e he, hfull e he⟩,
    hexecuted.sublist.subperm⟩

/-- After the flush the two writes are durable. -/
theorem acknowledged_writesThenFlush :
    ∃ s, Transition.run (State.step smallConfig handleServer) (State.initial fun _ => [])
        writesThenFlush = some s ∧ s.returned ≠ [] ∧ Acknowledged s := by
  have hreaches : (Transition.run (State.step smallConfig handleServer)
      (State.initial fun _ => []) writesThenFlush).any (fun s => s.returned ≠ []) = true := by
    decide +kernel
  obtain ⟨s, hrun, hs⟩ := Option.any_eq_true _ _ |>.mp hreaches
  refine ⟨s, hrun, of_decide_eq_true hs, acknowledged_of_fullWrites hrun ?_⟩
  apply Transition.Meets.of_forall_mem
  intro a ha s
  cases a with
  | fail i => simp [writesThenFlush] at ha
  | serve i => exact fun _ _ _ _ => rfl
  | _ => trivial

/-- A server without space. -/
def fullDisk : Server Unit where
  write _ w := (-28, w)
  flush _ _ w := (0, w)
  fsync _ _ _ w := (0, w)

/-- A flush returns 0 although the server has no space for the writes before it. -/
theorem not_acknowledged : ¬ ∀ (config : ClientConfig) (server : Server Unit)
    (actions : List Action) (s : State Unit),
    Transition.run (State.step config server) (State.initial ()) actions = some s →
    Acknowledged s := by
  intro hall
  have hreaches : (Transition.run (State.step smallConfig fullDisk) (State.initial ())
      writesThenFlush).any (fun s =>
        s.appended = [firstBlock, secondBlock] ∧ s.executed.map Prod.snd = [-28] ∧
        s.returned = [(.flush ['/', 'f'] default, 2, 0)]) = true := by
    decide +kernel
  obtain ⟨s, hrun, hs⟩ := Option.any_eq_true _ _ |>.mp hreaches
  obtain ⟨happended, hexecuted, hreturned⟩ := of_decide_eq_true hs
  obtain ⟨requests, hsub, hfull, hperm⟩ := hall smallConfig fullDisk writesThenFlush s hrun
    (.flush ['/', 'f'] default) 2 (by simp [hreturned])
  have hnone : requests = [] := by
    rw [List.eq_nil_iff_forall_not_mem]
    intro e he
    have hmem : e.2 ∈ s.executed.map Prod.snd := List.mem_map_of_mem (hsub.subset he)
    rw [hexecuted, List.mem_singleton, (hfull e he).2] at hmem
    omega
  rw [hnone, happended] at hperm
  have hlength := hperm.length_le
  simp at hlength

end RSafeFS.AsyncClient
