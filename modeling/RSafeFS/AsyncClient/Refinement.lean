import RSafeFS.AsyncClient.Progress

/-!
# The asynchronous client against the synchronous one

The files that the server of the synchronous client has are those of the asynchronous
client's server with the delayed writes laid over them. The inherited operations go to the
server past the delayed writes, so they agree with the synchronous client where no delayed
write concerns them.
-/

namespace RSafeFS.AsyncClient

open ByteFile

/-- The operations whose replies show the files. -/
def Request.observes : Request → Bool
  | .read _ _ _ _ | .getattr _ | .fgetattr _ _ => true
  | _ => false

/-- The inherited operations that change the files or the handles. -/
def Request.modifies : Request → Bool
  | .truncate _ _ | .ftruncate _ _ _ | .release _ _ => true
  | _ => false

/-- The file that an inherited operation looks at or changes. -/
def Request.target (w : FileTable) : Request → Option ℕ
  | .read _ _ _ fi | .ftruncate _ _ fi | .fgetattr _ fi => w.handles fi.fh
  | .truncate path _ | .getattr path => w.names path
  | _ => none

/-- The handle that an operation closes. -/
def Request.closes : Request → Option ℕ
  | .release _ fi => some fi.fh
  | _ => none

/-- The writes without a `flush` or `fsync` behind them. -/
def unflushed (requests : List Request) : List Block :=
  requests.foldl (fun blocks r => match r with
    | .write b => blocks ++ [b]
    | .flush _ _ | .fsync _ _ _ => []
    | _ => blocks) []

/-- The write concerns the operation: it goes to the same file, or through the handle that
the operation closes. -/
def Conflicts (w : FileTable) (b : Block) (r : Request) : Prop :=
  (∃ f, w.handles b.fi.fh = some f ∧ r.target w = some f) ∨ r.closes = some b.fi.fh

/-- Every write that concerns the operation has a `flush` or `fsync` behind it. -/
def Settled (w : FileTable) (before : List Request) (r : Request) : Prop :=
  ∀ b ∈ unflushed before, ¬ Conflicts w b r

/-- The modifying operations of the sequence are settled. -/
def Orderly (w : FileTable) (requests : List Request) : Prop :=
  ∀ before r after, requests = before ++ r :: after → r.modifies = true → Settled w before r

/-- What holds of every element of a list after those before it holds of a longer list if it
holds of the new element. -/
theorem forall_split_snoc {α : Type*} {P : List α → α → Prop} {l : List α} {x : α}
    (h : ∀ before a after, l = before ++ a :: after → P before a) (hx : P l x) :
    ∀ before a after, l ++ [x] = before ++ a :: after → P before a := by
  intro before a after hsplit
  rcases List.eq_nil_or_concat' after with rfl | ⟨init, last, rfl⟩
  · obtain ⟨hbefore, hlast⟩ := List.append_inj' hsplit rfl
    obtain ⟨hxa, -⟩ := List.cons.inj hlast
    rw [← hbefore, ← hxa]
    exact hx
  · rw [← List.cons_append, ← List.append_assoc] at hsplit
    obtain ⟨hbefore, -⟩ := List.append_inj' hsplit rfl
    exact h before a init hbefore

/-- The empty sequence is orderly. -/
theorem orderly_nil (w : FileTable) : Orderly w [] := by
  intro before r after hsplit
  simp at hsplit

/-- An orderly sequence can be continued with an operation that is settled or does not modify. -/
theorem Orderly.snoc {w : FileTable} {requests : List Request} (h : Orderly w requests)
    {r : Request} (hr : r.modifies = true → Settled w requests r) : Orderly w (requests ++ [r]) :=
  forall_split_snoc h hr

/-- The asynchronous client does what the synchronous one does: the operations that show the
files, as far as they satisfy `P` after those before them, have got the same reply, and the
contents are the same when every write has a flush behind it that has returned. -/
structure Session.Refines (stat : ℕ → Bytes → Stat) (w : FileTable)
    (P : List Request → Request → Prop) (s : Session) : Prop where
  replies : ∀ before r reply after, s.history = before ++ (r, reply) :: after →
    r.observes = true → P (before.map Prod.fst) r →
    reply = some (r.exec stat (syncRun stat w (before.map Prod.fst))).1
  contents : s.core.pcs 0 = .idle → unflushed s.issued = [] →
    s.core.server.files = (syncRun stat w s.issued).files

variable {stat : ℕ → Bytes → Stat} {w : FileTable}

@[simp] theorem syncRun_snoc (requests : List Request) (r : Request) :
    syncRun stat w (requests ++ [r]) = (r.exec stat (syncRun stat w requests)).2 := by
  simp [syncRun]

theorem unflushed_snoc (requests : List Request) (r : Request) :
    unflushed (requests ++ [r]) = match r with
      | .write b => unflushed requests ++ [b]
      | .flush _ _ | .fsync _ _ _ => []
      | _ => unflushed requests := by
  simp only [unflushed, List.foldl_append, List.foldl_cons, List.foldl_nil]

/-- A write at the server, through its effect on the contents. -/
theorem FileTable.write_snd (w : FileTable) (r : WriteRequest) :
    (w.write r).2 = { w with files := applyWrite w.fileOf w.files r } := by
  unfold FileTable.write applyWrite FileTable.fileOf
  cases w.handles r.info.fh <;> rfl

/-- Names stay, and handles are only closed. -/
theorem exec_names_handles (stat : ℕ → Bytes → Stat) (r : Request) (w : FileTable) :
    (r.exec stat w).2.names = w.names ∧
      ∀ fh f, (r.exec stat w).2.handles fh = some f → w.handles fh = some f := by
  have hsize (found : Option ℕ) (error : ℤ) (size : ℕ) :
      (w.setSize found error size).2.names = w.names ∧
        (w.setSize found error size).2.handles = w.handles := by
    cases found <;> exact ⟨rfl, rfl⟩
  cases r with
  | write b =>
    have hwrite := w.write_snd { b.request with info := { b.fi with flush := 1 } }
    have hexec : (Request.exec stat w (.write b)).2 =
        (w.write { b.request with info := { b.fi with flush := 1 } }).2 := rfl
    rw [hexec, hwrite]
    exact ⟨rfl, fun _ _ h => h⟩
  | truncate path size => exact ⟨(hsize _ _ _).1, fun fh f h => by rwa [← (hsize _ _ _).2]⟩
  | ftruncate path size fi => exact ⟨(hsize _ _ _).1, fun fh f h => by rwa [← (hsize _ _ _).2]⟩
  | release path fi =>
    refine ⟨rfl, fun fh f h => ?_⟩
    by_cases heq : fh = fi.fh
    · simp [Request.exec, FileTable.release, heq] at h
    · simpa [Request.exec, FileTable.release, heq] using h
  | _ => exact ⟨rfl, fun _ _ h => h⟩

/-- Names stay, and handles are only closed, over a whole sequence. -/
theorem syncRun_names_handles (stat : ℕ → Bytes → Stat) (requests : List Request)
    (w : FileTable) :
    (syncRun stat w requests).names = w.names ∧
      ∀ fh f, (syncRun stat w requests).handles fh = some f → w.handles fh = some f := by
  induction requests generalizing w with
  | nil => exact ⟨rfl, fun _ _ h => h⟩
  | cons r requests ih =>
    obtain ⟨hnames, hhandles⟩ := ih (r.exec stat w).2
    obtain ⟨hnames', hhandles'⟩ := exec_names_handles stat r w
    exact ⟨hnames.trans hnames', fun fh f h => hhandles' fh f (hhandles fh f h)⟩

/-- The files with blocks laid over them. -/
def FileTable.over (w : FileTable) (blocks : List Block) : FileTable :=
  { w with files := applyAll w.fileOf w.files blocks }

/-- Blocks that do not concern an operation that shows the files do not change its reply. -/
theorem exec_over_reply {r : Request} {blocks : List Block} (hobserves : r.observes = true)
    (hsettled : ∀ b ∈ blocks, ¬ Conflicts w b r) :
    (r.exec stat (w.over blocks)).1 = (r.exec stat w).1 := by
  have hfiles {f : ℕ} (hf : r.target w = some f) : (w.over blocks).files f = w.files f :=
    applyAll_apply (fun b hb hfile => hsettled b hb (Or.inl ⟨f, hfile, hf⟩)) w.files
  cases r with
  | read path size offset fi =>
    have hhandle : (w.over blocks).handles fi.fh = w.handles fi.fh := rfl
    simp only [Request.exec, FileTable.read, hhandle]
    cases hf : w.handles fi.fh with
    | none => rfl
    | some f => simp only [hfiles hf]
  | getattr path =>
    have hname : (w.over blocks).names path = w.names path := rfl
    simp only [Request.exec, FileTable.getattr, hname]
    cases hf : w.names path with
    | none => rfl
    | some f => simp only [hfiles hf]
  | fgetattr path fi =>
    have hhandle : (w.over blocks).handles fi.fh = w.handles fi.fh := rfl
    simp only [Request.exec, FileTable.fgetattr, hhandle]
    cases hf : w.handles fi.fh with
    | none => rfl
    | some f => simp only [hfiles hf]
  | _ => cases hobserves

/-- Setting the length of a file commutes with blocks of other files. -/
theorem setSize_over {found : Option ℕ} {blocks : List Block}
    (h : ∀ f, found = some f → ∀ b ∈ blocks, w.handles b.fi.fh ≠ some f) (error : ℤ) (size : ℕ) :
    ((w.over blocks).setSize found error size).2 = (w.setSize found error size).2.over blocks := by
  cases found with
  | none => rfl
  | some f =>
    have hother : ∀ b ∈ blocks, w.fileOf b.path b.fi ≠ some f := h f rfl
    have hupdate := applyAll_update hother w.files (ByteFile.truncate (w.files f) size)
    have hfile := applyAll_apply hother w.files
    simp only [FileTable.setSize, FileTable.over, hfile]
    rw [← hupdate]
    rfl

/-- An inherited operation commutes with blocks, if they do not concern it or it changes
nothing. -/
theorem exec_over_table {r : Request} {blocks : List Block} (hinherited : r.firstStep = none)
    (hsettled : r.modifies = true → ∀ b ∈ blocks, ¬ Conflicts w b r) :
    (r.exec stat (w.over blocks)).2 = (r.exec stat w).2.over blocks := by
  cases r with
  | truncate path size =>
    apply setSize_over
    exact fun f hf b hb hfile => hsettled rfl b hb (Or.inl ⟨f, hfile, hf⟩)
  | ftruncate path size fi =>
    apply setSize_over
    exact fun f hf b hb hfile => hsettled rfl b hb (Or.inl ⟨f, hfile, hf⟩)
  | release path fi =>
    have hsame : ∀ b ∈ blocks, w.fileOf b.path b.fi = (w.release fi).fileOf b.path b.fi := by
      intro b hb
      have hne : b.fi.fh ≠ fi.fh := fun heq => hsettled rfl b hb (Or.inr (congrArg some heq.symm))
      simp [FileTable.fileOf, FileTable.release, hne]
    have hfiles := applyAll_congr hsame w.files
    simp only [Request.exec, FileTable.over, FileTable.release, hfiles]
  | write b => cases hinherited
  | flush path fi => cases hinherited
  | fsync path isdatasync fi => cases hinherited
  | _ => rfl

/-- A write on top of blocks is one more block. -/
theorem exec_over_write (b : Block) (blocks : List Block) :
    (Request.exec stat (w.over blocks) (.write b)).2 = w.over (blocks ++ [b]) := by
  have hexec : (Request.exec stat (w.over blocks) (.write b)).2 =
      ((w.over blocks).write { b.request with info := { b.fi with flush := 1 } }).2 := rfl
  rw [hexec, FileTable.write_snd, FileTable.over, FileTable.over, applyAll_append,
    applyAll_singleton]
  rfl

/-- What concerns an operation in later files concerned it at the start. -/
theorem Conflicts.of_syncRun {requests : List Request} {b : Block} {r : Request}
    (h : Conflicts (syncRun stat w requests) b r) : Conflicts w b r := by
  obtain ⟨hnames, hhandles⟩ := syncRun_names_handles stat requests w
  rcases h with ⟨f, hfile, htarget⟩ | hcloses
  · refine Or.inl ⟨f, hhandles _ f hfile, ?_⟩
    cases r with
    | read path size offset fi => exact hhandles _ f htarget
    | ftruncate path size fi => exact hhandles _ f htarget
    | fgetattr path fi => exact hhandles _ f htarget
    | truncate path size => exact (congrFun hnames path).symm.trans htarget
    | getattr path => exact (congrFun hnames path).symm.trans htarget
    | _ => cases htarget
  · exact Or.inr hcloses

/-- The block of a write that has not appended it yet. -/
def Pc.unappended : Pc → List Block
  | .locked b | .waiting _ b | .ready b => [b]
  | _ => []

/-- The number of writes that a flush in progress waits for. -/
def Pc.mark? : Pc → Option ℕ
  | .flushing _ _ mark | .flushed _ mark => some mark
  | _ => none

/-- The writes of the caller that the server has not executed. -/
def State.delayed {σ : Type} (s : State σ) : List Block := s.pending ++ (s.pcs 0).unappended

/-- The server's files with the delayed writes laid over them. -/
def State.overlay (s : State FileTable) : FileTable := s.server.over s.delayed

section Pipeline

variable {σ : Type} {config : ClientConfig} {server : Server σ} {s t : State σ} {a : Action}

/-- What a continuing step does to the caller: its writes are appended in the order it issued
them, and a flush stays the same flush until it returns. -/
theorem callerStep (hcontinues : a.continues = true) (hstep : s.step config server a = some t) :
    t.appended ++ (t.pcs 0).unappended = s.appended ++ (s.pcs 0).unappended ∧
      ((t.pcs 0).mark? = (s.pcs 0).mark? ∨
        (t.pcs 0).mark? = none ∧ ∃ kind mark, s.pcs 0 = .flushed kind mark) := by
  have hthread {thread : ℕ} (h : (thread == 0) = true) : thread = 0 := by simpa using h
  cases steps_of_step hstep with
  | writeLock => cases hcontinues
  | flushSchedule => cases hcontinues
  | writeWait hpc =>
    obtain rfl := hthread hcontinues
    simp [State.goto, State.scheduleFlush, hpc, Pc.unappended, Pc.mark?]
  | writeFlush hpc =>
    obtain rfl := hthread hcontinues
    simp [State.goto, State.scheduleFlush, hpc, Pc.unappended, Pc.mark?]
  | writeReady hpc =>
    obtain rfl := hthread hcontinues
    simp [State.goto, hpc, Pc.unappended, Pc.mark?]
  | writeGet hpc =>
    obtain rfl := hthread hcontinues
    simp [State.goto, hpc, Pc.unappended, Pc.mark?]
  | writeAppend hpc =>
    obtain rfl := hthread hcontinues
    simp [State.writeAppend, State.goto, hpc, Pc.unappended, Pc.mark?]
  | flushGet hpc =>
    obtain rfl := hthread hcontinues
    simp [State.goto, hpc, Pc.unappended, Pc.mark?]
  | @flushReturn _ _ ok kind hpc =>
    obtain rfl := hthread hcontinues
    have happended : (s.finishFlush server ok kind).2.appended = s.appended := by
      cases kind <;> cases ok <;> rfl
    simp [State.goto, hpc, happended, Pc.unappended, Pc.mark?]
  | @handle event =>
    have hsame := handle_undisturbed (s := { s with received := none }) event
    rw [hsame.appended, hsame.pcs]
    exact ⟨rfl, Or.inl rfl⟩
  | _ => exact ⟨rfl, Or.inl rfl⟩

/-- The executed and the delayed writes together are those accepted. -/
theorem Inv.executed_append_delayed (h : Inv s) :
    s.executedParts ++ s.delayed = s.appended ++ (s.pcs 0).unappended := by
  rw [State.delayed, ← List.append_assoc, h.conserved]

end Pipeline

section Simulation

variable {config : ClientConfig} {a : Action}

/-- A completed flush does not change the server's files. -/
theorem finishFlush_fileServer (s : State FileTable) (ok : Bool) (kind : FlushKind) :
    (s.finishFlush fileServer ok kind).2.server = s.server := by
  cases kind <;> cases ok <;> rfl

/-- A continuing step leaves the overlay as it is: what it executes it takes from the front of
the delayed writes. -/
theorem overlay_step {s t : State FileTable} (hs : Inv s) (ht : Inv t)
    (hcontinues : a.continues = true) (hstep : s.step config fileServer a = some t) :
    t.overlay = s.overlay ∧ t.delayed <:+ s.delayed := by
  have haccepted : t.executedParts ++ t.delayed = s.executedParts ++ s.delayed := by
    rw [hs.executed_append_delayed, ht.executed_append_delayed]
    exact (callerStep hcontinues hstep).1
  have hquiet (hserver : t.server = s.server) (hexecuted : t.executed = s.executed) :
      t.overlay = s.overlay ∧ t.delayed <:+ s.delayed := by
    have hdelayed : t.delayed = s.delayed := by
      simpa [State.executedParts, hexecuted] using haccepted
    rw [State.overlay, State.overlay, hserver, hdelayed]
    exact ⟨rfl, List.suffix_refl _⟩
  cases serverStep_of_step hstep with
  | quiet hserver hexecuted => exact hquiet hserver hexecuted
  | flushed ok kind hserver hexecuted =>
    exact hquiet (hserver.trans (finishFlush_fileServer s ok kind)) hexecuted
  | executed m _ hserver hexecuted =>
    have hm : Merges m.request m.parts :=
      ht.merges (m, (fileServer.write m.request s.server).1) (by rw [hexecuted]; simp)
    have hdelayed : s.delayed = m.parts ++ t.delayed := by
      simpa [State.executedParts, hexecuted] using haccepted.symm
    have hwrite : t.server =
        { s.server with files := applyWrite s.server.fileOf s.server.files m.request } :=
      hserver.trans (s.server.write_snd m.request)
    refine ⟨?_, ⟨m.parts, hdelayed.symm⟩⟩
    simp only [State.overlay, FileTable.over, hwrite, hdelayed, applyAll_append,
      hm.applyWrite_eq]
    rfl

/-- The relation between a session and the synchronous client on the operations issued. -/
structure Simulation (stat : ℕ → Bytes → Stat) (w : FileTable) (requests : List Request)
    (s : Session) : Prop where
  inv : Inv s.core
  split : s.issued ++ s.todo = requests
  overlay : s.core.overlay = syncRun stat w s.issued
  delayed : match (s.core.pcs 0).mark? with
    | some mark => mark = s.core.appended.length
    | none => ∀ b ∈ s.core.delayed, b ∈ unflushed s.issued
  replies : ∀ before r reply after, s.history = before ++ (r, reply) :: after →
    r.observes = true → Settled w (before.map Prod.fst) r →
    reply = some (r.exec stat (syncRun stat w (before.map Prod.fst))).1

variable {requests : List Request} {s t : Session}

/-- The start of a session. -/
theorem simulation_initial (stat : ℕ → Bytes → Stat) (w : FileTable) (requests : List Request) :
    Simulation stat w requests (Session.initial w requests) where
  inv := inv_initial w
  split := rfl
  overlay := rfl
  delayed b hb := absurd hb List.not_mem_nil
  replies before r reply after h := by simp [Session.initial] at h

/-- The pipeline keeps the relation. -/
theorem Simulation.pipeline (h : Simulation stat w requests s) (hintact : a.Intact)
    (hcontinues : a.continues = true) {core : State FileTable}
    (hstep : s.core.step config fileServer a = some core) :
    Simulation stat w requests { s with core } := by
  have hinv : Inv core := h.inv.step (hintact.harmless s.core) hstep
  obtain ⟨haccepted, hmark⟩ := callerStep hcontinues hstep
  obtain ⟨hoverlay, hsuffix⟩ := overlay_step h.inv hinv hcontinues hstep
  have hdelayed := h.delayed
  refine ⟨hinv, h.split, hoverlay.trans h.overlay, ?_, h.replies⟩
  rcases hmark with hsame | ⟨hnone, kind, mark, hpc⟩
  · rw [hsame]
    cases hcase : (s.core.pcs 0).mark? with
    | none =>
      rw [hcase] at hdelayed
      exact fun b hb => hdelayed b (hsuffix.subset hb)
    | some mark =>
      rw [hcase] at hdelayed hsame
      -- A caller that waits for a flush has no write of its own in progress.
      have hquiet (pc : Pc) (hpc : pc.mark? = some mark) : pc.unappended = [] := by
        cases pc <;> simp [Pc.mark?, Pc.unappended] at hpc ⊢
      rw [hquiet _ hsame, hquiet _ hcase, List.append_nil, List.append_nil] at haccepted
      rw [haccepted]
      exact hdelayed
  · rw [hnone]
    rw [hpc] at hdelayed
    have hmark : mark = s.core.appended.length := hdelayed
    have hthread := h.inv.threads 0
    rw [hpc] at hthread
    have hexecuted : s.core.appended.length ≤ s.core.executedParts.length := hmark ▸ hthread
    have hnil : s.core.delayed = [] := by
      have hall := h.inv.executed_append_delayed
      have hlength := congrArg List.length hall
      simp only [hpc, Pc.unappended, List.length_append, List.length_nil] at hlength
      exact List.length_eq_zero_iff.mp (by omega)
    intro b hb
    have hb' := hsuffix.subset hb
    rw [hnil] at hb'
    exact absurd hb' List.not_mem_nil

/-- One more operation in the history, with its reply. -/
theorem Simulation.replies_snoc (h : Simulation stat w requests s) {r : Request}
    {reply : Option Reply} (hreply : r.observes = true → Settled w s.issued r →
      reply = some (r.exec stat (syncRun stat w s.issued)).1) :
    ∀ before r' reply' after, s.history ++ [(r, reply)] = before ++ (r', reply') :: after →
      r'.observes = true → Settled w (before.map Prod.fst) r' →
      reply' = some (r'.exec stat (syncRun stat w (before.map Prod.fst))).1 :=
  fun before r' reply' => forall_split_snoc
    (P := fun before e => e.1.observes = true → Settled w (before.map Prod.fst) e.1 →
      e.2 = some (e.1.exec stat (syncRun stat w (before.map Prod.fst))).1)
    (fun before e after => h.replies before e.1 e.2 after) hreply before (r', reply')

/-- A caller that has no operation in progress has no delayed write that a flush came after. -/
theorem Simulation.delayed_idle (h : Simulation stat w requests s) (hidle : s.core.pcs 0 = .idle) :
    s.core.delayed = s.core.pending ∧ ∀ b ∈ s.core.delayed, b ∈ unflushed s.issued := by
  have hdelayed := h.delayed
  rw [hidle] at hdelayed
  refine ⟨?_, hdelayed⟩
  rw [State.delayed, hidle]
  exact List.append_nil _

/-- Beginning an overridden operation keeps the relation, if the pipeline has taken it in. -/
theorem Simulation.begin (h : Simulation stat w requests s) {r : Request} {todo : List Request}
    (hsplit : s.issued ++ r :: todo = requests) (hobserves : r.observes = false)
    {core : State FileTable} (hinv : Inv core)
    (hoverlay : core.overlay = (r.exec stat s.core.overlay).2)
    (hdelayed : match (core.pcs 0).mark? with
      | some mark => mark = core.appended.length
      | none => ∀ b ∈ core.delayed, b ∈ unflushed (s.issued ++ [r])) :
    Simulation stat w requests ⟨core, todo, s.history ++ [(r, none)]⟩ := by
  have hissued : (Session.mk core todo (s.history ++ [(r, none)])).issued = s.issued ++ [r] := by
    simp [Session.issued]
  refine ⟨hinv, ?_, ?_, ?_, h.replies_snoc fun hobserves' => ?_⟩
  · rw [hissued, List.append_assoc]
    exact hsplit
  · rw [hissued, syncRun_snoc, ← h.overlay]
    exact hoverlay
  · rw [hissued]
    exact hdelayed
  · simp [hobserves] at hobserves'

/-- Beginning a write keeps the relation: the write is the last delayed one. -/
theorem Simulation.issueWrite (h : Simulation stat w requests s) {b : Block} {todo : List Request}
    (hsplit : s.issued ++ .write b :: todo = requests) (hidle : s.core.pcs 0 = .idle)
    {core : State FileTable} (hstep : s.core.step config fileServer (.writeLock 0 b) = some core) :
    Simulation stat w requests ⟨core, todo, s.history ++ [(.write b, none)]⟩ := by
  obtain ⟨hpending, hfresh⟩ := h.delayed_idle hidle
  have hharmless : Harmless s.core (.writeLock 0 b) := trivial
  have hcore : core.server = s.core.server ∧ core.pcs 0 = .locked b ∧
      core.pending = s.core.pending := by
    simp only [State.step] at hstep
    split at hstep
    · obtain rfl := Option.some.inj hstep
      exact ⟨rfl, goto_pcs_self _ _ _, rfl⟩
    · cases hstep
  obtain ⟨hserver, hpc, hsame⟩ := hcore
  have hdelayed : core.delayed = s.core.delayed ++ [b] := by
    rw [State.delayed, hpc, hsame, hpending]
    rfl
  apply h.begin hsplit rfl (h.inv.step hharmless hstep)
  · rw [State.overlay, State.overlay, hserver, hdelayed, exec_over_write]
  · rw [hpc, hdelayed, unflushed_snoc]
    exact fun b' hb' => (List.mem_append.mp hb').elim
      (fun hold => List.mem_append_left _ (hfresh b' hold)) (List.mem_append_right _)

/-- Beginning a flush keeps the relation: it waits for all writes appended. -/
theorem Simulation.issueFlush (h : Simulation stat w requests s) {r : Request}
    {todo : List Request} (hsplit : s.issued ++ r :: todo = requests)
    (hidle : s.core.pcs 0 = .idle) {kind : FlushKind} (hflush : ∀ w, (r.exec stat w).2 = w)
    (hobserves : r.observes = false) {core : State FileTable}
    (hstep : s.core.step config fileServer (.flushSchedule 0 kind) = some core) :
    Simulation stat w requests ⟨core, todo, s.history ++ [(r, none)]⟩ := by
  obtain ⟨hpending, -⟩ := h.delayed_idle hidle
  have hharmless : Harmless s.core (.flushSchedule 0 kind) := trivial
  have hcore : core.server = s.core.server ∧ core.appended = s.core.appended ∧
      core.pcs 0 = .flushing s.core.nextCall kind s.core.appended.length ∧
      core.pending = s.core.pending := by
    simp only [State.step] at hstep
    split at hstep
    · obtain rfl := Option.some.inj hstep
      refine ⟨rfl, rfl, goto_pcs_self _ _ _, ?_⟩
      simp [State.pending, State.goto, State.scheduleFlush]
    · cases hstep
  obtain ⟨hserver, happended, hpc, hsame⟩ := hcore
  have hdelayed : core.delayed = s.core.delayed := by
    rw [State.delayed, hpc, hsame, hpending]
    exact List.append_nil _
  apply h.begin hsplit hobserves (h.inv.step hharmless hstep)
  · rw [hflush, State.overlay, State.overlay, hserver, hdelayed]
  · rw [hpc, happended]
    rfl

/-- An inherited operation keeps the relation, and is answered as by the synchronous client
when it is settled. -/
theorem Simulation.issueInherited (h : Simulation stat w requests s)
    (horderly : Orderly w requests) {r : Request} {todo : List Request}
    (hsplit : s.issued ++ r :: todo = requests) (hidle : s.core.pcs 0 = .idle)
    (hinherited : r.firstStep = none) :
    Simulation stat w requests ⟨{ s.core with server := (r.exec stat s.core.server).2 }, todo,
      s.history ++ [(r, some (r.exec stat s.core.server).1)]⟩ := by
  obtain ⟨hpending, hfresh⟩ := h.delayed_idle hidle
  have hsync : syncRun stat w s.issued = s.core.server.over s.core.delayed := h.overlay.symm
  have hclear (hsettled : Settled w s.issued r) :
      ∀ b ∈ s.core.delayed, ¬ Conflicts s.core.server b r := by
    intro b hb hconflict
    have hlater : Conflicts (syncRun stat w s.issued) b r := by
      rw [hsync]
      exact hconflict
    exact hsettled b (hfresh b hb) hlater.of_syncRun
  have hissued : (s.history ++ [(r, some (r.exec stat s.core.server).1)]).map Prod.fst =
      s.issued ++ [r] := by
    simp [Session.issued]
  have hunflushed : unflushed (s.issued ++ [r]) = unflushed s.issued := by
    rw [unflushed_snoc]
    cases r <;> first | rfl | cases hinherited
  refine ⟨h.inv.withServer _, ?_, ?_, ?_, h.replies_snoc fun hobserves hsettled => ?_⟩
  · rw [Session.issued, hissued, List.append_assoc]
    exact hsplit
  · rw [Session.issued, hissued, syncRun_snoc, hsync]
    have hmodifying (hmodifies : r.modifies = true) :=
      hclear (horderly s.issued r todo hsplit.symm hmodifies)
    rw [exec_over_table hinherited hmodifying]
    rfl
  · have hmark : (s.core.pcs 0).mark? = none := by rw [hidle]; rfl
    simp only [hmark]
    rw [Session.issued, hissued, hunflushed]
    exact hfresh
  · rw [hsync, exec_over_reply hobserves (hclear hsettled)]

/-- Issuing an operation keeps the relation. -/
theorem Simulation.issue (h : Simulation stat w requests s) (horderly : Orderly w requests)
    {r : Request} {todo : List Request} (htodo : s.todo = r :: todo)
    (hidle : s.core.pcs 0 = .idle) (hissue : s.issue config stat r todo = some t) :
    Simulation stat w requests t := by
  have hsplit : s.issued ++ r :: todo = requests := htodo ▸ h.split
  unfold Session.issue at hissue
  cases r with
  | write b =>
    obtain ⟨core, hstep, rfl⟩ := Option.map_eq_some_iff.mp hissue
    exact h.issueWrite hsplit hidle hstep
  | flush path fi =>
    obtain ⟨core, hstep, rfl⟩ := Option.map_eq_some_iff.mp hissue
    exact h.issueFlush hsplit hidle (fun _ => rfl) rfl hstep
  | fsync path isdatasync fi =>
    obtain ⟨core, hstep, rfl⟩ := Option.map_eq_some_iff.mp hissue
    exact h.issueFlush hsplit hidle (fun _ => rfl) rfl hstep
  | _ =>
    obtain rfl := Option.some.inj hissue
    exact h.issueInherited horderly hsplit hidle rfl

/-- Every step of a session keeps the relation. -/
theorem Simulation.step (h : Simulation stat w requests s) (horderly : Orderly w requests)
    {a : SessionAction} (hintact : a.Intact) (hstep : s.step config stat a = some t) :
    Simulation stat w requests t := by
  cases a with
  | issue =>
    simp only [Session.step] at hstep
    split at hstep
    · next r todo htodo =>
      split at hstep
      · next hidle => exact h.issue horderly htodo hidle hstep
      · cases hstep
    · cases hstep
  | pipeline a =>
    simp only [Session.step] at hstep
    split at hstep
    · next hcontinues =>
      obtain ⟨core, hcore, rfl⟩ := Option.map_eq_some_iff.mp hstep
      exact h.pipeline hintact hcontinues hcore
    · cases hstep

/-- After a flush that has returned, nothing of the relation is left but equality. -/
theorem Simulation.contents_eq (h : Simulation stat w requests s) (hidle : s.core.pcs 0 = .idle)
    (hflushed : unflushed s.issued = []) : s.core.server = syncRun stat w s.issued := by
  obtain ⟨-, hfresh⟩ := h.delayed_idle hidle
  have hnil : s.core.delayed = [] := by
    rw [List.eq_nil_iff_forall_not_mem]
    intro b hb
    have hmem := hfresh b hb
    rw [hflushed] at hmem
    exact absurd hmem List.not_mem_nil
  rw [← h.overlay, State.overlay, hnil]
  rfl

/-- **Refinement.** Over a transport that does not fail, a caller whose modifying operations
are settled sees through its settled operations what the synchronous client would show, and
after a flush leaves the same contents. Its operations are issued in their order, and from
every moment on they can all be completed. -/
theorem session_refines {actions : List SessionAction}
    (hrun : Transition.run (Session.step config stat) (Session.initial w requests) actions = some s)
    (hintact : ∀ a ∈ actions, a.Intact) (horderly : Orderly w requests) :
    s.Refines stat w (Settled w) ∧ s.issued ++ s.todo = requests ∧
      ∃ rest t, Transition.run (Session.step config stat) s rest = some t ∧
        (∀ a ∈ rest, a.Intact) ∧ t.todo = [] ∧ t.core.pcs 0 = .idle := by
  have hmeets : Transition.Meets (Session.step config stat) (fun _ a => a.Intact)
      (Session.initial w requests) actions := .of_forall_mem fun a ha _ => hintact a ha
  have hsimulation : Simulation stat w requests s :=
    Transition.invariant (fun _ _ _ h hok hstep => h.step horderly hok hstep) hrun hmeets
      (simulation_initial stat w requests)
  have hlive : Live s.core :=
    Transition.invariant (I := fun s => Live s.core)
      (fun _ _ _ h hok hstep => h.session_step hok hstep) hrun hmeets (live_initial w)
  refine ⟨⟨hsimulation.replies, fun hidle hflushed => ?_⟩, hsimulation.split,
    hlive.session_completes config stat⟩
  rw [hsimulation.contents_eq hidle hflushed]

end Simulation

/-- A server with one empty file, open under handle 0. -/
def oneFileTable : FileTable where
  names path := if path = ['/', 'f'] then some 7 else none
  handles fh := if fh = 0 then some 7 else none
  files _ := []

/-- Attributes with the size alone. -/
def sizeStat (_ : ℕ) (content : Bytes) : Stat := { (default : Stat) with size := content.length }

/-- A write, a flush, a change of the length, and a read. -/
def flushedRequests : List Request :=
  [.write firstBlock, .flush ['/', 'f'] default, .ftruncate ['/', 'f'] 1 default,
    .read ['/', 'f'] 2 0 default]

/-- They are issued as soon as they can be. -/
def flushedActions : List SessionAction :=
  [.issue, .pipeline (.writeCheck 0), .pipeline (.writeAppend 0), .issue, .pipeline .receive,
    .pipeline .handle, .pipeline (.proceed 0 true), .pipeline (.serve 0),
    .pipeline (.proceed 0 true), .pipeline (.proceed 0 true), .pipeline (.serve 0),
    .pipeline (.proceed 0 true), .pipeline (.resolve 0), .pipeline (.flushGet 0),
    .pipeline (.flushReturn 0 true), .issue, .issue]

/-- The change of the length has the flush before it. -/
theorem orderly_flushedRequests : Orderly oneFileTable flushedRequests :=
  ((((orderly_nil _).snoc (r := .write firstBlock) (by simp [Request.modifies])).snoc
    (r := .flush ['/', 'f'] default) (by simp [Request.modifies])).snoc
    (r := .ftruncate ['/', 'f'] 1 default) (fun _ b hb => absurd hb List.not_mem_nil)).snoc
    (r := .read ['/', 'f'] 2 0 default) (by simp [Request.modifies])

/-- The read shows the byte that is left of the write. -/
theorem session_refines_flushedRequests :
    ∃ s, Transition.run (Session.step smallConfig sizeStat)
        (Session.initial oneFileTable flushedRequests) flushedActions = some s ∧
      s.history.map Prod.snd = [none, none, some (.status 0), some (.data 1 [1])] ∧
      s.Refines sizeStat oneFileTable (Settled oneFileTable) := by
  have hreaches : (Transition.run (Session.step smallConfig sizeStat)
      (Session.initial oneFileTable flushedRequests) flushedActions).any (fun s =>
        s.history.map Prod.snd = [none, none, some (.status 0), some (.data 1 [1])]) = true := by
    decide +kernel
  obtain ⟨s, hrun, hs⟩ := Option.any_eq_true _ _ |>.mp hreaches
  have hrefines := session_refines hrun
    (by simp [flushedActions, SessionAction.Intact, Action.Intact]) orderly_flushedRequests
  exact ⟨s, hrun, of_decide_eq_true hs, hrefines.1⟩

/-- A read behind a write that has not been flushed does not show it. -/
theorem not_session_refines : ¬ ∀ (stat : ℕ → Bytes → Stat) (config : ClientConfig) (w : FileTable)
    (requests : List Request) (actions : List SessionAction) (s : Session),
    Transition.run (Session.step config stat) (Session.initial w requests) actions = some s →
    (∀ a ∈ actions, a.Intact) → s.Refines stat w fun _ _ => True := by
  intro hall
  have hreaches : (Transition.run (Session.step smallConfig sizeStat)
      (Session.initial oneFileTable [.write firstBlock, .read ['/', 'f'] 2 0 default])
      [.issue, .pipeline (.writeCheck 0), .pipeline (.writeAppend 0), .issue]).any (fun s =>
        s.history = [(.write firstBlock, none),
          (.read ['/', 'f'] 2 0 default, some (.data 0 []))]) = true := by
    decide +kernel
  obtain ⟨s, hrun, hs⟩ := Option.any_eq_true _ _ |>.mp hreaches
  have hrefines := hall sizeStat smallConfig oneFileTable _ _ s hrun
    (by simp [SessionAction.Intact, Action.Intact])
  have hreply := hrefines.replies [(.write firstBlock, none)] _ _ [] (of_decide_eq_true hs) rfl
    trivial
  revert hreply
  decide +kernel

end RSafeFS.AsyncClient
