import RSafeFS.ReadAhead.Threads

/-!
# What concurrent reads return

Every file goes through a sequence of versions, advanced at any time by other clients. A
buffer is made by an `open` that finds none, and dropped by a `release`; its window is
replaced by every read that misses. The invariant relates the bytes of a window, held or
about to be stored, to the versions since the buffer was made. For a file with one version
it gives the transparency of the cache.
-/

namespace RSafeFS.ReadAhead

open ByteFile

/-- The contents of the versions that each path goes through, and the version that a state
below is at. -/
structure Versions (σ : Type) where
  content : PathName → ℕ → Bytes
  current : σ → PathName → ℕ

variable {σ : Type}

/-- No file goes back to an earlier version. -/
def Versions.Advances (versions : Versions σ) (w w' : σ) : Prop :=
  ∀ p, versions.current w p ≤ versions.current w' p

/-- What is required of the layer below: a read fails or reads the current version, and no
operation goes back to an earlier one. -/
structure Versions.Governs (versions : Versions σ) (lower : ReadLayer σ) : Prop where
  read : ∀ path size offset fi w, 0 ≤ (lower.read path size offset fi w).1 →
    lower.read path size offset fi w =
      (((pread (versions.content path (versions.current w path)) size offset).length : ℤ),
        pread (versions.content path (versions.current w path)) size offset)
  «open» : ∀ path fi w, versions.Advances w (lower.open path fi w).2
  release : ∀ path fi w, versions.Advances w (lower.release path fi w).2

/-- Other clients only advance files. -/
def Forward (versions : Versions σ) (s : Threads σ) : ThreadAction σ → Prop
  | .change w => versions.Advances s.world w
  | _ => True

/-- The byte at each position of the output comes from a version in the given range. -/
def FromVersions (content : ℕ → Bytes) (first last offset : ℕ) (out : Bytes) : Prop :=
  ∀ i < out.length, ∃ j, first ≤ j ∧ j ≤ last ∧ (content j)[offset + i]? = out[i]?

/-- The filled part of the buffer is a window of versions in the range. -/
structure Buffer.Shows (b : Buffer) (content : ℕ → Bytes) (first last : ℕ) : Prop where
  length_lt : b.buf.length < 2 ^ 63
  size_le : b.size ≤ b.buf.length
  bytes : ∀ start, b.offset = some start →
    FromVersions content first last start (b.buf.take b.size)

/-- The window that a fetch from the contents fills. -/
def Buffer.fetched (content : Bytes) (bufSize offset : ℕ) : Buffer :=
  ⟨(pread content bufSize offset).length, some offset,
    overlay (pread content bufSize offset) (List.replicate bufSize 0)⟩

/-- The read returned a count and as many bytes, each of a version between the making of
its buffer and its return. It is as long as requested, or a read of one version. -/
structure Returned.From (versions : Versions σ) (e : Returned) (out : Bytes) : Prop where
  outcome : e.outcome = .ret (toInt out.length) out
  bytes : FromVersions (versions.content e.call.path) e.made e.last e.call.offset out
  length : out.length = e.call.size ∨ ∃ j, e.made ≤ j ∧ j ≤ e.last ∧
    out = pread (versions.content e.call.path j) e.call.size e.call.offset

/-- The read returned an error of the layer below, and no bytes. -/
def Returned.Failed (lower : ReadLayer σ) (e : Returned) : Prop :=
  ∃ size w, (lower.read e.call.path size e.call.offset e.call.fi w).1 < 0 ∧
    e.outcome = .ret (lower.read e.call.path size e.call.offset e.call.fi w).1 []

/-- The window that a thread is about to store was fetched from a version since the buffer
was made, and is large enough for the request. -/
def Fetched (versions : Versions σ) (s : Threads σ) (r : ReadCall) (window : Buffer) : Prop :=
  ∃ j bufSize, s.made r.path ≤ j ∧ j ≤ versions.current s.world r.path ∧ r.size ≤ bufSize ∧
    bufSize < 2 ^ 63 ∧ window = .fetched (versions.content r.path j) bufSize r.offset

/-- The invariant of a run, over the locks. -/
structure Windows (versions : Versions σ) (lower : ReadLayer σ) (s : Threads σ) : Prop where
  made : ∀ p, s.made p ≤ versions.current s.world p
  held : ∀ p b, s.cache.buffers.lookup p = some b →
    b.Shows (versions.content p) (s.made p) (versions.current s.world p)
  pending : ∀ thread r window, s.pcs thread = .updating r window → Fetched versions s r window
  returned : ∀ e ∈ s.returned, e.Failed lower ∨ ∃ out, e.From versions out

section Bytes

variable {content : ℕ → Bytes} {first last first' last' offset size : ℕ} {out : Bytes} {b : Buffer}

/-- A wider range of versions. -/
theorem FromVersions.mono (h : FromVersions content first last offset out) (hfirst : first' ≤ first)
    (hlast : last ≤ last') : FromVersions content first' last' offset out := by
  intro i hi
  obtain ⟨j, hj, hj', hbyte⟩ := h i hi
  exact ⟨j, Nat.le_trans hfirst hj, Nat.le_trans hj' hlast, hbyte⟩

/-- What a read of one version delivers. -/
theorem fromVersions_pread {j : ℕ} (hfirst : first ≤ j) (hlast : j ≤ last) (size offset : ℕ) :
    FromVersions content first last offset (pread (content j) size offset) := by
  intro i hi
  rw [length_pread] at hi
  exact ⟨j, hfirst, hlast, by rw [getElem?_pread, if_pos (by omega)]⟩

/-- A wider range of versions. -/
theorem Buffer.Shows.mono (h : b.Shows content first last) (hfirst : first' ≤ first)
    (hlast : last ≤ last') : b.Shows content first' last' :=
  ⟨h.length_lt, h.size_le, fun start hstart => (h.bytes start hstart).mono hfirst hlast⟩

/-- A buffer without a window shows nothing. -/
theorem Buffer.shows_empty (content : ℕ → Bytes) (first last : ℕ) :
    Buffer.empty.Shows content first last :=
  ⟨by simp [Buffer.empty], le_rfl, fun start hstart => by cases hstart⟩

/-- A fetched window shows the version that it was fetched from. -/
theorem Buffer.shows_fetched {bufSize j : ℕ} (hsize : bufSize < 2 ^ 63) (hfirst : first ≤ j)
    (hlast : j ≤ last) (offset : ℕ) :
    (Buffer.fetched (content j) bufSize offset).Shows content first last := by
  have hdata : (pread (content j) bufSize offset).length ≤ (List.replicate bufSize (0 : UInt8)).length
      := by
    rw [length_pread, List.length_replicate]
    exact Nat.min_le_left _ _
  have hbuf : (Buffer.fetched (content j) bufSize offset).buf.length = bufSize := by
    rw [Buffer.fetched, length_overlay hdata, List.length_replicate]
  refine ⟨by rw [hbuf]; exact hsize, ?_, ?_⟩
  · rw [hbuf]
    rw [List.length_replicate] at hdata
    exact hdata
  · rintro start ⟨⟩
    simp only [Buffer.fetched, take_overlay]
    exact fromVersions_pread hfirst hlast bufSize offset

/-- Inside the bounds of the buffer the unsigned sums of the test do not wrap around, so
that a request which the buffer answers lies inside the window. -/
theorem Buffer.Shows.copy (h : b.Shows content first last) (hoffset : offset < 2 ^ 63) {res : ℤ}
    {copied : Bytes} (hcopy : b.copy size offset = .ret res copied) (hres : ¬ res < 0) :
    res = toInt size ∧ copied.length = size ∧ FromVersions content first last offset copied := by
  unfold Buffer.copy at hcopy
  split at hcopy
  · next hnone =>
    obtain ⟨rfl, rfl⟩ := Outcome.ret.inj hcopy
    omega
  · next start hstart =>
    split at hcopy
    · next hhit =>
      split at hcopy
      · next hbound =>
        obtain ⟨rfl, rfl⟩ := Outcome.ret.inj hcopy
        have hlt := h.length_lt
        have hinside : offset - start + size ≤ b.size := by
          have hleft : (offset + size) % 2 ^ 64 = offset + size := Nat.mod_eq_of_lt (by omega)
          have hright := Nat.mod_le (start + b.size) (2 ^ 64)
          omega
        refine ⟨rfl, ?_, ?_⟩
        · rw [List.length_take, List.length_drop]
          omega
        · intro i hi
          rw [List.length_take, List.length_drop] at hi
          obtain ⟨j, hj, hj', hbyte⟩ := h.bytes start hstart (offset - start + i) (by
            rw [List.length_take]
            omega)
          refine ⟨j, hj, hj', ?_⟩
          rw [List.getElem?_take, if_pos (by omega)] at hbyte
          rw [List.getElem?_take, if_pos (by omega), List.getElem?_drop, ← hbyte]
          congr 1
          omega
      · cases hcopy
    · obtain ⟨rfl, rfl⟩ := Outcome.ret.inj hcopy
      omega

end Bytes

variable {config : ReadAheadConfig} {lower : ReadLayer σ} {versions : Versions σ} {s t : Threads σ}
  {r : ReadCall} {window : Buffer}

/-- The place of a thread matters only if it is about to store a window. -/
theorem Windows.goto (h : Windows versions lower s) {thread : ℕ} {pc : Pc}
    (hpc : ∀ r window, pc = .updating r window → Fetched versions s r window) :
    Windows versions lower (s.goto thread pc) := by
  refine ⟨h.made, h.held, ?_, h.returned⟩
  intro other r window hother
  by_cases heq : other = thread
  · subst heq
    simp only [Threads.goto, Function.update_self] at hother
    exact hpc r window hother
  · simp only [Threads.goto, Function.update_of_ne heq] at hother
    exact h.pending other r window hother

/-- Newer files keep the invariant. -/
theorem Windows.world (h : Windows versions lower s) {w : σ} (hw : versions.Advances s.world w)
    (opened : PathName → Option ℕ) : Windows versions lower { s with world := w, opened } := by
  refine ⟨fun p => Nat.le_trans (h.made p) (hw p),
    fun p b hb => (h.held p b hb).mono le_rfl (hw p), ?_, h.returned⟩
  intro thread r window hpc
  obtain ⟨j, bufSize, hj, hj', hrest⟩ := h.pending thread r window hpc
  exact ⟨j, bufSize, hj, Nat.le_trans hj' (hw r.path), hrest⟩

/-- A buffer whose window is of versions since it was made may take another's place. -/
theorem Windows.insert (h : Windows versions lower s) {path : PathName} {b : Buffer}
    (hb : b.Shows (versions.content path) (s.made path) (versions.current s.world path)) :
    Windows versions lower { s with cache := ⟨s.cache.buffers.insert path b⟩ } := by
  refine ⟨h.made, ?_, h.pending, h.returned⟩
  intro p b' hlookup
  dsimp only at hlookup
  by_cases hp : p = path
  · subst hp
    rw [AList.lookup_insert] at hlookup
    exact Option.some.inj hlookup ▸ hb
  · rw [AList.lookup_insert_ne hp] at hlookup
    exact h.held p b' hlookup

/-- The buffer that an `open` makes begins a new range of versions. No window is about to
be stored then. -/
theorem Windows.emplace (h : Windows versions lower s) (hlocked : Locked s) (hshared : s.shared = [])
    (path : PathName) :
    Windows versions lower { s with
      cache := ⟨s.cache.buffers.insert path .empty⟩
      made := Function.update s.made path (versions.current s.world path) } := by
  refine ⟨?_, ?_, ?_, h.returned⟩
  · intro p
    by_cases hp : p = path
    · subst hp
      simp
    · simp only [Function.update_of_ne hp]
      exact h.made p
  · intro p b hlookup
    dsimp only at hlookup
    by_cases hp : p = path
    · subst hp
      rw [AList.lookup_insert] at hlookup
      exact Option.some.inj hlookup ▸ Buffer.shows_empty _ _ _
    · rw [AList.lookup_insert_ne hp] at hlookup
      simp only [Function.update_of_ne hp]
      exact h.held p b hlookup
  · intro thread r window hpc
    have hnone := hlocked.call_eq_none hshared thread
    simp [show s.pcs thread = _ from hpc, Pc.call] at hnone

/-- Dropping a buffer keeps the others right. -/
theorem Windows.erase (h : Windows versions lower s) (path : PathName) :
    Windows versions lower { s with cache := ⟨s.cache.buffers.erase path⟩ } := by
  refine ⟨h.made, ?_, h.pending, h.returned⟩
  intro p b hlookup
  dsimp only at hlookup
  by_cases hp : p = path
  · subst hp
    simp at hlookup
  · rw [AList.lookup_erase_ne hp] at hlookup
    exact h.held p b hlookup

/-- The end of a read keeps the invariant if what it returns is right. -/
theorem Windows.return (h : Windows versions lower s) {thread : ℕ} {r : ReadCall} {outcome : Outcome}
    (hfrom : (⟨r, s.made r.path, versions.current s.world r.path, outcome⟩ : Returned).Failed lower ∨
      ∃ out, (⟨r, s.made r.path, versions.current s.world r.path, outcome⟩ : Returned).From
        versions out) :
    Windows versions lower (s.return versions.current thread r outcome) := by
  refine ⟨h.made, h.held, ?_, ?_⟩
  · intro other r' window hother
    by_cases heq : other = thread
    · subst heq
      simp [Threads.return, Threads.goto] at hother
    · simp only [Threads.return, Threads.goto, Function.update_of_ne heq] at hother
      exact h.pending other r' window hother
  · intro e he
    rcases List.mem_cons.mp he with rfl | hold
    · exact hfrom
    · exact h.returned e hold

/-- What a read that stores its window returns is a read of one version. -/
theorem Fetched.from (h : Fetched versions s r window) :
    ∃ out, (⟨r, s.made r.path, versions.current s.world r.path,
      .ret (toInt (min window.size r.size)) (window.buf.take (min window.size r.size))⟩ :
        Returned).From versions out := by
  obtain ⟨j, bufSize, hj, hj', hsize, _, rfl⟩ := h
  obtain ⟨hn, hbytes⟩ := take_fetched (versions.content r.path j) r.offset hsize
  refine ⟨pread (versions.content r.path j) r.size r.offset, ?_, fromVersions_pread hj hj' _ _,
    Or.inr ⟨j, hj, hj', rfl⟩⟩
  simp only [Buffer.fetched, hn, hbytes]

/-- **Step lemma.** Every step keeps the invariant. -/
theorem Windows.step (hgoverns : versions.Governs lower) (h : Windows versions lower s)
    (hlocked : Locked s) {a : ThreadAction σ} (hforward : Forward versions s a)
    (hstep : s.step config lower versions.current a = some t) : Windows versions lower t := by
  cases steps_of_step hstep with
  | openFound hpc hmem => exact h.goto (by simp)
  | openMissed hpc hmem => exact h.goto (by simp)
  | @read thread r hpc hmem hopened =>
    have hshared : Windows versions lower { s with shared := thread :: s.shared } :=
      ⟨h.made, h.held, h.pending, h.returned⟩
    exact hshared.goto (by simp)
  | @erase thread path fi hpc hshared => exact (h.erase path).goto (by simp)
  | emplaced hpc hmem => exact h.goto (by simp)
  | @emplace thread path fi hpc hshared hmem =>
    exact (h.emplace hlocked hshared path).goto (by simp)
  | @opened thread path fi hpc => exact (h.world (hgoverns.open path fi s.world) _).goto (by simp)
  | @hit thread r b res copied hpc hb hcopy hres =>
    obtain ⟨hcount, hlength, hfrom⟩ := (h.held r.path b hb).copy r.offset_lt hcopy hres
    exact h.return (Or.inr ⟨copied, by rw [hcount, hlength], hfrom, Or.inl hlength⟩)
  | miss hpc => exact h.goto (by simp)
  | fetchFailed hpc hres => exact h.return (Or.inl ⟨_, _, hres, rfl⟩)
  | @fetched thread r hpc hsize hres =>
    refine h.goto fun r' window hpending => ?_
    obtain ⟨rfl, rfl⟩ := Pc.updating.inj hpending
    have hread := hgoverns.read r.path (max r.size config.size) r.offset r.fi s.world (by omega)
    refine ⟨_, max r.size config.size, h.made r.path, le_rfl, Nat.le_max_left _ _, hsize, ?_⟩
    rw [hread, Int.toNat_natCast, Buffer.fetched]
  | @stored thread r window hpc =>
    have hfetched := h.pending thread r window hpc
    have hshows : window.Shows (versions.content r.path) (s.made r.path)
        (versions.current s.world r.path) := by
      obtain ⟨j, bufSize, hj, hj', _, hlt, rfl⟩ := hfetched
      exact Buffer.shows_fetched hlt hj hj' r.offset
    exact (h.insert hshows).return (Or.inr hfetched.from)
  | @released thread path fi hpc =>
    exact (h.world (hgoverns.release path fi s.world) s.opened).goto (by simp)
  | changed => exact h.world hforward s.opened

/-- **Run lemma.** The invariant holds after every run in which files only advance. -/
theorem locked_windows (hgoverns : versions.Governs lower) {w : σ} {actions : List (ThreadAction σ)}
    (hrun : Transition.run (Threads.step config lower versions.current) (Threads.initial w)
      actions = some s)
    (hforward : Transition.Meets (Threads.step config lower versions.current) (Forward versions)
      (Threads.initial w) actions) : Locked s ∧ Windows versions lower s := by
  refine Transition.invariant (I := fun s => Locked s ∧ Windows versions lower s)
    (fun s a t h hok hstep => ⟨h.1.step hstep, h.2.step hgoverns h.1 hok hstep⟩) hrun hforward
    ⟨fun thread r hcall => ?_, fun p => Nat.zero_le _, fun p b hb => ?_,
      fun thread r window hpc => ?_, fun e he => absurd he List.not_mem_nil⟩
  · cases hcall
  · cases hb
  · cases hpc

/-- **Freshness.** Every byte that a read returns is of a version of the file not older
than the one at which its buffer was made, by the first `open` of the path since it had
none. -/
theorem read_since_made (hgoverns : versions.Governs lower) {w : σ}
    {actions : List (ThreadAction σ)}
    (hrun : Transition.run (Threads.step config lower versions.current) (Threads.initial w)
      actions = some s)
    (hforward : Transition.Meets (Threads.step config lower versions.current) (Forward versions)
      (Threads.initial w) actions) {e : Returned} (he : e ∈ s.returned) :
    FromVersions (versions.content e.call.path) e.made e.last e.call.offset e.outcome.bytes := by
  have hwindows := (locked_windows hgoverns hrun hforward).2
  rcases hwindows.returned e he with ⟨size, w, _, hout⟩ | ⟨out, hfrom⟩
  · rw [hout]
    intro i hi
    cases hi
  · rw [hfrom.outcome]
    exact hfrom.bytes

/-- Files whose only byte counts their versions. -/
def counted : Versions ℕ := ⟨fun _ n => [n.toUInt8], fun w _ => w⟩

/-- The layer below that shows them. -/
def countedLayer : ReadLayer ℕ where
  «open» _ fi w := ((0, fi), w)
  getattr _ _ := (0, default)
  read _ size offset _ w := ((pread [w.toUInt8] size offset).length, pread [w.toUInt8] size offset)
  release _ _ w := (0, w)

theorem counted_governs : counted.Governs countedLayer where
  read _ _ _ _ _ _ := rfl
  «open» _ _ _ _ := le_rfl
  release _ _ _ _ := le_rfl

theorem size_lt_of_short {size offset : ℕ} (h : size + offset < 8) : size < 2 ^ 64 := by omega

theorem offset_lt_of_short {size offset : ℕ} (h : size + offset < 8) : offset < 2 ^ 63 := by omega

/-- A short read near the start of one file. -/
def readRequest (size offset : ℕ) (h : size + offset < 8) : Request :=
  .read ['/', 'f'] size offset default (size_lt_of_short h) (offset_lt_of_short h)

/-- A file is opened and read; it changes; it is opened again, as a second handle, and read. -/
def openedTwice : List (ThreadAction ℕ) :=
  [.start 0 (.open ['/', 'f'] default), .advance 0, .advance 0,
    .start 0 (readRequest 1 0 (by decide)), .advance 0, .advance 0, .advance 0,
    .change 1, .start 0 (.open ['/', 'f'] default), .advance 0,
    .start 0 (readRequest 1 0 (by decide)), .advance 0]

theorem openedTwice_forward :
    Transition.Meets (Threads.step { size := 1 } countedLayer counted.current) (Forward counted)
      (Threads.initial 0) openedTwice := by
  have hchange : counted.Advances 0 1 := fun _ => Nat.zero_le 1
  exact .cons trivial rfl (.cons trivial rfl (.cons trivial rfl (.cons trivial rfl
    (.cons trivial rfl (.cons trivial rfl (.cons trivial rfl (.cons hchange rfl
      (.cons trivial rfl (.cons trivial rfl (.cons trivial rfl (.cons trivial rfl
        trivial)))))))))))

/-- Both reads return the version at which the buffer was made. -/
theorem read_since_made_openedTwice :
    ∃ s, Transition.run (Threads.step { size := 1 } countedLayer counted.current)
        (Threads.initial 0) openedTwice = some s ∧ s.returned.length = 2 ∧
      ∀ e ∈ s.returned, FromVersions (counted.content e.call.path) e.made e.last e.call.offset
        e.outcome.bytes :=
  ⟨_, rfl, rfl, fun _ he => read_since_made counted_governs rfl openedTwice_forward he⟩

/-- The second `open` keeps the buffer of the first, so that the read after it returns a
version older than the one it opened. -/
theorem not_read_since_opened : ¬ ∀ (config : ReadAheadConfig) (lower : ReadLayer ℕ)
    (versions : Versions ℕ) (w : ℕ) (actions : List (ThreadAction ℕ)) (s : Threads ℕ),
    versions.Governs lower →
    Transition.run (Threads.step config lower versions.current) (Threads.initial w) actions =
      some s →
    Transition.Meets (Threads.step config lower versions.current) (Forward versions)
      (Threads.initial w) actions →
    ∀ e ∈ s.returned, ∀ k, e.call.opened = some k →
      FromVersions (versions.content e.call.path) k e.last e.call.offset e.outcome.bytes := by
  intro hall
  obtain ⟨j, hopened, hlast, hbyte⟩ := hall { size := 1 } countedLayer counted 0 openedTwice _
    counted_governs rfl openedTwice_forward _ List.mem_cons_self 1 rfl 0 (by decide)
  obtain rfl : j = 1 := Nat.le_antisymm hlast hopened
  exact absurd hbyte (by decide)

section Transparency

variable {content : PathName → Bytes}

/-- Files that never change have one version. -/
def unchanging (content : PathName → Bytes) : Versions σ := ⟨fun p _ => content p, fun _ _ => 0⟩

theorem unchanging_governs (hexact : ∀ path w, ReadsExactly lower path (content path) w) :
    (unchanging content).Governs lower where
  read path size offset fi w _ := hexact path w size offset fi
  «open» _ _ _ _ := le_rfl
  release _ _ _ _ := le_rfl

/-- As many bytes as requested, each from the only version, are a read of it. -/
theorem eq_pread_of_fromVersions {content out : Bytes} {size offset : ℕ}
    (h : FromVersions (fun _ => content) 0 0 offset out) (hlength : out.length = size) :
    out = pread content size offset := by
  apply List.ext_getElem?
  intro i
  rw [getElem?_pread]
  by_cases hi : i < size
  · obtain ⟨_, _, _, hbyte⟩ := h i (hlength ▸ hi)
    rw [if_pos hi]
    exact hbyte.symm
  · rw [if_neg hi, List.getElem?_eq_none (by omega)]

/-- How many steps of its own a read has left at most. -/
def Pc.left : Pc → ℕ
  | .reading _ => 3
  | .fetching _ => 2
  | .updating _ _ => 1
  | _ => 0

/-- The thread has moved to a later step of the read, or the read has returned. -/
def Closer (s t : Threads σ) (thread : ℕ) (r : ReadCall) : Prop :=
  ((t.pcs thread).call = some r ∧ (t.pcs thread).left < (s.pcs thread).left) ∨
    (t.pcs thread = .idle ∧ ∃ e, e.call = r ∧ t.returned = e :: s.returned)

/-- A request that does not reach past 2^63 never reads beyond a buffer. -/
theorem Buffer.Shows.copy_defined {content : ℕ → Bytes} {b : Buffer} {first last size offset : ℕ}
    (h : b.Shows content first last) (hsum : offset + size < 2 ^ 63) :
    ∃ res copied, b.copy size offset = .ret res copied := by
  unfold Buffer.copy
  split
  · exact ⟨_, _, rfl⟩
  · next start hstart =>
    split
    · next hhit =>
      have hbound : offset - start + size ≤ b.buf.length := by
        have hleft : (offset + size) % 2 ^ 64 = offset + size := Nat.mod_eq_of_lt (by omega)
        have hright := Nat.mod_le (start + b.size) (2 ^ 64)
        have hsize := h.size_le
        omega
      rw [if_pos hbound]
      exact ⟨_, _, rfl⟩
    · exact ⟨_, _, rfl⟩

/-- **Progress.** A read in progress can take its next step, whatever other threads have
done, and comes closer to its return with it. -/
theorem read_advances (hlocked : Locked s) (hwindows : Windows versions lower s) {thread : ℕ}
    (hcall : (s.pcs thread).call = some r) (hsum : r.offset + r.size < 2 ^ 63)
    (hmax : max r.size config.size ≤ 2 ^ 31 - 1) :
    ∃ t, s.step config lower versions.current (.advance thread) = some t ∧ Closer s t thread r := by
  have hbuffer := (hlocked thread r hcall).2
  cases hpc : s.pcs thread with
  | idle => simp [hpc, Pc.call] at hcall
  | emplacing path fi => simp [hpc, Pc.call] at hcall
  | opening path fi => simp [hpc, Pc.call] at hcall
  | releasing path fi => simp [hpc, Pc.call] at hcall
  | reading r' =>
    rw [hpc] at hcall
    obtain rfl := Option.some.inj hcall
    obtain ⟨b, hb⟩ := Option.isSome_iff_exists.mp (AList.lookup_isSome.mpr hbuffer)
    obtain ⟨res, copied, hcopy⟩ := (hwindows.held _ b hb).copy_defined hsum
    simp only [Threads.step, hpc, Threads.advance, hb, hcopy]
    by_cases hres : res < 0
    · rw [if_pos hres]
      refine ⟨_, rfl, Or.inl ?_⟩
      simp [Threads.goto, Pc.call, Pc.left, hpc]
    · rw [if_neg hres]
      refine ⟨_, rfl, Or.inr ⟨?_, _, ?_, rfl⟩⟩
      · simp [Threads.return, Threads.goto]
      · rfl
  | fetching r' =>
    rw [hpc] at hcall
    obtain rfl := Option.some.inj hcall
    have hsmall : ¬ 2 ^ 63 ≤ max r'.size config.size := by omega
    simp only [Threads.step, hpc, Threads.advance, if_neg hsmall]
    split
    · refine ⟨_, rfl, Or.inr ⟨?_, _, ?_, rfl⟩⟩
      · simp [Threads.return, Threads.goto]
      · rfl
    · refine ⟨_, rfl, Or.inl ?_⟩
      simp [Threads.goto, Pc.call, Pc.left, hpc]
  | updating r' window =>
    rw [hpc] at hcall
    obtain rfl := Option.some.inj hcall
    simp only [Threads.step, hpc, Threads.advance]
    refine ⟨_, rfl, Or.inr ⟨?_, _, ?_, rfl⟩⟩
    · simp [Threads.return, Threads.goto]
    · rfl

/-- What a read of an unchanging file returned is what the layer below returns. -/
theorem returned_exact (hexact : ∀ path w, ReadsExactly lower path (content path) w)
    (hwindows : Windows (unchanging content) lower s) {e : Returned} (he : e ∈ s.returned)
    (hsize : e.call.size ≤ 2 ^ 31 - 1) (w : σ) :
    e.outcome = .ret (lower.read e.call.path e.call.size e.call.offset e.call.fi w).1
      (lower.read e.call.path e.call.size e.call.offset e.call.fi w).2 := by
  rcases hwindows.returned e he with ⟨size, w, hneg, _⟩ | ⟨out, hfrom⟩
  · rw [hexact] at hneg
    dsimp only at hneg
    omega
  · have hout : out = pread (content e.call.path) e.call.size e.call.offset := by
      rcases hfrom.length with hlength | ⟨j, _, _, hpread⟩
      · refine eq_pread_of_fromVersions (fun i hi => ?_) hlength
        obtain ⟨_, _, _, hbyte⟩ := hfrom.bytes i hi
        exact ⟨0, le_rfl, le_rfl, hbyte⟩
      · exact hpread
    rw [hfrom.outcome, hexact, ← hout, toInt_of_le]
    rw [hout, length_pread]
    omega

/-- **Transparency.** On files that do not change, whatever the threads do: a read that has
returned has delivered the count and the bytes of the layer below, a read of a path with a
buffer can begin, and every read in progress comes closer to its return with each step. -/
theorem readAhead_transparent (hexact : ∀ path w, ReadsExactly lower path (content path) w) {w : σ}
    {actions : List (ThreadAction σ)}
    (hrun : Transition.run (Threads.step config lower fun _ _ => 0) (Threads.initial w) actions =
      some s) :
    (∀ e ∈ s.returned, e.call.offset + e.call.size < 2 ^ 63 →
      max e.call.size config.size ≤ 2 ^ 31 - 1 →
      ∀ w, e.outcome = .ret (lower.read e.call.path e.call.size e.call.offset e.call.fi w).1
        (lower.read e.call.path e.call.size e.call.offset e.call.fi w).2) ∧
    (∀ thread r, s.pcs thread = .idle → r.path ∈ s.cache.buffers → r.opened = s.opened r.path →
      ∃ t, s.step config lower (fun _ _ => 0)
        (.start thread (.read r.path r.size r.offset r.fi r.size_lt r.offset_lt)) = some t ∧
        t.pcs thread = .reading r) ∧
    (∀ thread r, (s.pcs thread).call = some r → r.offset + r.size < 2 ^ 63 →
      max r.size config.size ≤ 2 ^ 31 - 1 →
      ∃ t, s.step config lower (fun _ _ => 0) (.advance thread) = some t ∧
        Closer s t thread r) := by
  obtain ⟨hlocked, hwindows⟩ : Locked s ∧ Windows (unchanging content) lower s := by
    refine locked_windows (unchanging_governs hexact) hrun (.of_forall_mem fun a _ s => ?_)
    cases a with
    | change w => exact fun _ => le_rfl
    | start thread request => trivial
    | advance thread => trivial
  refine ⟨fun e he _ hmax w => ?_, fun thread r hpc hmem hopened => ?_,
    fun thread r hcall hsum hmax => read_advances hlocked hwindows hcall hsum hmax⟩
  · exact returned_exact hexact hwindows he (Nat.le_trans (Nat.le_max_left _ _) hmax) w
  · simp only [Threads.step, hpc, Threads.enter, hmem, if_true]
    refine ⟨_, rfl, ?_⟩
    simp only [Threads.goto, Function.update_self, ← hopened]

/-- A layer below on which every path names a file of three bytes. -/
def threeBytes : ReadLayer Unit where
  «open» _ fi w := ((0, fi), w)
  getattr _ _ := (0, default)
  read _ size offset _ _ := ((pread [1, 2, 3] size offset).length, pread [1, 2, 3] size offset)
  release _ _ w := (0, w)

theorem threeBytes_exact (path : PathName) (w : Unit) :
    ReadsExactly threeBytes path ((fun _ => [1, 2, 3]) path) w := fun _ _ _ => rfl

/-- Two reads that both miss, one of them past the end of the file, and a third that the
window left by the second does not answer. -/
def threeReads : List (ThreadAction Unit) :=
  [.start 0 (.open ['/', 'f'] default), .advance 0, .advance 0,
    .start 0 (readRequest 2 0 (by decide)),
    .start 1 (readRequest 3 2 (by decide)),
    .advance 0, .advance 1, .advance 0, .advance 1, .advance 0, .advance 1,
    .start 0 (readRequest 2 1 (by decide)),
    .advance 0, .advance 0, .advance 0]

theorem readAhead_transparent_threeReads :
    ∃ s e, Transition.run (Threads.step { size := 2 } threeBytes fun _ _ => 0)
        (Threads.initial ()) threeReads = some s ∧
      s.returned.length = 3 ∧ e ∈ s.returned ∧ e.call.offset = 1 ∧ e.outcome = .ret 2 [2, 3] := by
  have hreturned := fun s (hrun : Transition.run (Threads.step { size := 2 } threeBytes fun _ _ => 0)
      (Threads.initial ()) threeReads = some s) => (readAhead_transparent threeBytes_exact hrun).1
  exact ⟨_, _, rfl, rfl, List.mem_cons_self, rfl,
    hreturned _ rfl _ List.mem_cons_self (by decide) (by decide) ()⟩

end Transparency

end RSafeFS.ReadAhead
