import RSafeFS.Cache.ReadLayer
import RSafeFS.Config.Layers
import RSafeFS.Lib.Transition
import Mathlib.Data.List.AList

/-!
# The read-ahead cache

`read_ahead::cache` keeps, for every open path, the window of the file that the last
read fetched. A request inside the window is answered from it. Modifications of the file
are not hooked; a run notes the windows whose bytes a modification changed while they
were held.
-/

namespace RSafeFS.ReadAhead

open ByteFile

/-- `cache::buffer`. The offset `-1` of a buffer that was never filled is `none`. -/
structure Buffer where
  size : ℕ
  offset : Option ℕ
  buf : Bytes
  deriving DecidableEq, Repr

/-- `buffer::buffer`. -/
def Buffer.empty : Buffer := ⟨0, none, []⟩

/-- The test of `buffer::read`: the request lies inside the window. -/
def Buffer.covers (b : Buffer) (size offset : ℕ) : Bool :=
  match b.offset with
  | none => false
  | some start => decide (start ≤ offset ∧ offset + size ≤ start + b.size)

/-- `buffer::read`: its result, and the bytes it puts into the caller's buffer. -/
def Buffer.read (b : Buffer) (size offset : ℕ) : ℤ × Bytes :=
  if b.covers size offset then
    (toInt size, (b.buf.drop (offset - b.offset.getD 0)).take size)
  else (-1, [])

/-- `read_ahead::cache`: the map `buffers_`. -/
structure Cache where
  buffers : AList fun _ : PathName => Buffer

variable {σ : Type} (config : ReadAheadConfig) (lower : ReadLayer σ)

/-- `cache::open`. The buffer is made before the layer below is asked. -/
def Cache.open (path : PathName) (fi : FuseFileInfo) (c : Cache) (w : σ) :
    (ℤ × FuseFileInfo) × Cache × σ :=
  let c := match c.buffers.lookup path with
    | some _ => c
    | none => ⟨c.buffers.insert path .empty⟩
  let (result, w) := lower.open path fi w
  (result, c, w)

/-- `cache::read`. The buffer of the path is dereferenced without a test that there is one. -/
def Cache.read (path : PathName) (size offset : ℕ) (fi : FuseFileInfo) (c : Cache) (w : σ) :
    Outcome × Cache :=
  match c.buffers.lookup path with
  | none => (.undefined, c)
  | some buffer =>
    let (nOfBytesRead, copied) := buffer.read size offset
    if nOfBytesRead < 0 then
      let bufSize := max size config.size
      let (res, data) := lower.read path bufSize offset fi w
      if res < 0 then (.ret res copied, c)
      else
        let newBuf := overlay data (List.replicate bufSize 0)
        let n := min res.toNat size
        (.ret (toInt n) (newBuf.take n), ⟨c.buffers.insert path ⟨res.toNat, some offset, newBuf⟩⟩)
    else (.ret nOfBytesRead copied, c)

/-- `cache::release`. -/
def Cache.release (path : PathName) (fi : FuseFileInfo) (c : Cache) (w : σ) : ℤ × Cache × σ :=
  let (res, w) := lower.release path fi w
  (res, ⟨c.buffers.erase path⟩, w)

/-- One client above the cache, with the windows that a modification has outdated. -/
structure Client (σ : Type) where
  cache : Cache
  world : σ
  outdated : List (PathName × Buffer)

/-- The start of a run. -/
def Client.start (w : σ) : Client σ := ⟨⟨∅⟩, w, []⟩

/-- The held windows whose bytes differ between two states of the files. -/
def outdatedBy (old new : PathName → Bytes) (c : Cache) : List (PathName × Buffer) :=
  (c.buffers.entries.filter fun ⟨path, b⟩ =>
    pread (old path) b.size (b.offset.getD 0) ≠ pread (new path) b.size (b.offset.getD 0)).map
    fun ⟨path, b⟩ => (path, b)

variable (lower : FileLayer σ) (content : σ → PathName → Bytes)

/-- One request of the client through the hooks of the layer. -/
def Client.step (s : Client σ) : ClientAction → Option (Client σ)
  | .open path fi =>
    let (_, c, w) := s.cache.open lower.toReadLayer path fi s.world
    some { s with cache := c, world := w }
  | .read path size offset fi _ =>
    match s.cache.read config lower.toReadLayer path size offset fi s.world with
    | (.ret _ _, c) => some { s with cache := c }
    | _ => none
  | .release path fi =>
    let (_, c, w) := s.cache.release lower.toReadLayer path fi s.world
    some { s with cache := c, world := w }
  | .modify m =>
    let (_, w) := lower.modify m s.world
    some { s with
      world := w
      outdated := outdatedBy (content s.world) (content w) s.cache ++ s.outdated }

/-- The window that would answer the request is not outdated. -/
def Client.UpToDate (s : Client σ) (path : PathName) (size offset : ℕ) : Prop :=
  ∀ b, s.cache.buffers.lookup path = some b → b.covers size offset = true →
    (path, b) ∉ s.outdated

/-- The buffer holds a window of the contents, all of it inside them. -/
def Buffer.Holds (b : Buffer) (content : Bytes) : Prop :=
  ∀ start, b.offset = some start → b.buf.take b.size = pread content b.size start ∧
    (pread content b.size start).length = b.size

/-- Every buffer holds its window unless it is outdated. -/
def HoldsUnlessOutdated (s : Client σ) : Prop :=
  ∀ path b, s.cache.buffers.lookup path = some b → (path, b) ∉ s.outdated →
    b.Holds (content s.world path)

variable {config lower content} {s t : Client σ} {path : PathName} {size offset : ℕ}
  {fi : FuseFileInfo}

/-- What a buffer that is not outdated by a modification holds stays right. -/
theorem holds_of_not_outdatedBy {old new : PathName → Bytes} {c : Cache} {b : Buffer}
    (hb : c.buffers.lookup path = some b) (hnot : (path, b) ∉ outdatedBy old new c)
    (hholds : b.Holds (old path)) : b.Holds (new path) := by
  intro start hstart
  have hsame : pread (old path) b.size start = pread (new path) b.size start := by
    by_contra hne
    apply hnot
    refine List.mem_map.mpr ⟨⟨path, b⟩, List.mem_filter.mpr ⟨AList.mem_lookup_iff.mp hb, ?_⟩, rfl⟩
    simpa [hstart] using hne
  rw [← hsame]
  exact hholds start hstart

/-- A window filled from the contents holds them. -/
theorem holds_fetched (content : Bytes) (bufSize offset : ℕ) :
    (⟨(pread content bufSize offset).length, some offset,
      overlay (pread content bufSize offset) (List.replicate bufSize 0)⟩ : Buffer).Holds content := by
  rintro start ⟨⟩
  dsimp only
  rw [pread_length_pread]
  exact ⟨take_overlay _ _, rfl⟩

/-- A request inside a window that holds the contents gets their bytes, as many as asked for. -/
theorem Buffer.Holds.read {b : Buffer} {content : Bytes} (h : b.Holds content)
    (hcovers : b.covers size offset = true) :
    (b.read size offset).2 = pread content size offset ∧
      (pread content size offset).length = size := by
  cases hstart : b.offset with
  | none => simp [Buffer.covers, hstart] at hcovers
  | some start =>
    have hinside : start ≤ offset ∧ offset + size ≤ start + b.size := by
      simpa [Buffer.covers, hstart] using hcovers
    obtain ⟨hbytes, hlength⟩ := h start hstart
    rw [length_pread] at hlength
    constructor
    · have hposition : start + (offset - start) = offset := by omega
      simp only [Buffer.read, hcovers, if_true, hstart, Option.getD_some]
      rw [drop_take_of_take_eq hbytes (by omega) (by omega), hposition]
    · rw [length_pread]
      omega

/-- The start of a window filled from the contents has the bytes that were asked for. -/
theorem take_fetched (content : Bytes) {size bufSize : ℕ} (offset : ℕ) (h : size ≤ bufSize) :
    min (pread content bufSize offset).length size = (pread content size offset).length ∧
      (overlay (pread content bufSize offset) (List.replicate bufSize 0)).take
        (pread content size offset).length = pread content size offset := by
  have hle : (pread content size offset).length ≤ (pread content bufSize offset).length := by
    simp only [length_pread]
    omega
  constructor
  · simp only [length_pread]
    omega
  · have hwindow : ((pread content bufSize offset).drop 0).take (pread content size offset).length =
        pread content (pread content size offset).length (offset + 0) := by
      apply drop_take_pread
      simp only [length_pread]
      omega
    rw [overlay, List.take_append_of_le_length hle]
    rwa [List.drop_zero, Nat.add_zero, pread_length_pread] at hwindow

/-- A request that the window does not answer fetches the bytes and a new window. -/
theorem read_fetch (config : ReadAheadConfig) (fi : FuseFileInfo) {lower : ReadLayer σ}
    {content : Bytes} {w : σ} {c : Cache} {b : Buffer}
    (hexact : ReadsExactly lower path content w) (hb : c.buffers.lookup path = some b)
    (hmiss : (b.read size offset).1 < 0) :
    ∃ b', b'.Holds content ∧ c.read config lower path size offset fi w =
      (.ret (toInt (pread content size offset).length) (pread content size offset),
        ⟨c.buffers.insert path b'⟩) := by
  refine ⟨_, holds_fetched content (max size config.size) offset, ?_⟩
  obtain ⟨hn, hbytes⟩ := take_fetched content offset (Nat.le_max_left size config.size)
  have hnonneg : ¬ ((pread content (max size config.size) offset).length : ℤ) < 0 := by omega
  simp only [Cache.read, hb, hmiss, if_true, hexact _ _ _, hnonneg, if_false, Int.toNat_natCast, hn,
    hbytes]

/-- A read on a path with a buffer that is right, or not used, delivers the bytes of the
contents; the path then still has a buffer, the same one or one that is right. -/
theorem read_exact (config : ReadAheadConfig) (size offset : ℕ) (fi : FuseFileInfo)
    {lower : ReadLayer σ} {content : Bytes} {w : σ} {c : Cache} {b : Buffer}
    (hexact : ReadsExactly lower path content w) (hb : c.buffers.lookup path = some b)
    (hholds : b.covers size offset = true → b.Holds content) :
    ∃ res c', c.read config lower path size offset fi w =
        (.ret res (pread content size offset), c') ∧
      res = toInt (pread content size offset).length := by
  by_cases hmiss : (b.read size offset).1 < 0
  · obtain ⟨b', _, hread⟩ := read_fetch config fi hexact hb hmiss
    exact ⟨_, _, hread, rfl⟩
  · have hcovers : b.covers size offset = true := by
      by_contra hnot
      simp [Buffer.read, hnot] at hmiss
    obtain ⟨hbytes, hlength⟩ := (hholds hcovers).read hcovers
    refine ⟨(b.read size offset).1, c, ?_, ?_⟩
    · simp only [Cache.read, hb, hmiss, if_false, hbytes]
    · rw [hlength]
      simp [Buffer.read, hcovers]

/-- A new buffer, or one just filled, keeps the others right. -/
theorem HoldsUnlessOutdated.insert (h : HoldsUnlessOutdated content s) {b : Buffer}
    (hb : b.Holds (content s.world path)) :
    HoldsUnlessOutdated content { s with cache := ⟨s.cache.buffers.insert path b⟩ } := by
  intro p b' hlookup hnot
  dsimp only at hlookup
  by_cases hp : p = path
  · subst hp
    rw [AList.lookup_insert] at hlookup
    exact Option.some.inj hlookup ▸ hb
  · rw [AList.lookup_insert_ne hp] at hlookup
    exact h p b' hlookup hnot

/-- Where the contents are the same, right buffers are right. -/
theorem HoldsUnlessOutdated.world (h : HoldsUnlessOutdated content s) {w : σ}
    (hw : content w = content s.world) : HoldsUnlessOutdated content { s with world := w } := by
  intro p b hlookup hnot
  dsimp only
  rw [hw]
  exact h p b hlookup hnot

/-- Every request keeps the buffers that are not outdated right. -/
theorem HoldsUnlessOutdated.step (hshows : lower.Shows content) {a : ClientAction}
    (h : HoldsUnlessOutdated content s) (hstep : s.step config lower content a = some t) :
    HoldsUnlessOutdated content t := by
  cases a with
  | «open» path fi =>
    have hworld := h.world (hshows.open path fi s.world)
    simp only [Client.step, Cache.open, Option.some.injEq] at hstep
    subst hstep
    split
    · exact hworld
    · exact hworld.insert fun start hstart => by cases hstart
  | read path size offset fi clock =>
    simp only [Client.step] at hstep
    cases hlookup : s.cache.buffers.lookup path with
    | none => simp [Cache.read, hlookup] at hstep
    | some b =>
      by_cases hmiss : (b.read size offset).1 < 0
      · obtain ⟨b', hb', hread⟩ := read_fetch config fi (hshows.read path s.world)
          hlookup hmiss
        simp only [hread, Option.some.injEq] at hstep
        subst hstep
        exact h.insert hb'
      · simp only [Cache.read, hlookup, hmiss, if_false, Option.some.injEq] at hstep
        subst hstep
        exact h
  | release path fi =>
    have hworld := h.world (hshows.release path fi s.world)
    simp only [Client.step, Cache.release, Option.some.injEq] at hstep
    subst hstep
    intro p b hlookup hnot
    dsimp only at hlookup
    by_cases hp : p = path
    · subst hp
      simp at hlookup
    · rw [AList.lookup_erase_ne hp] at hlookup
      exact hworld p b hlookup hnot
  | modify m =>
    simp only [Client.step, Option.some.injEq] at hstep
    subst hstep
    intro p b hlookup hnot
    dsimp only at hnot
    rw [List.mem_append, not_or] at hnot
    exact holds_of_not_outdatedBy hlookup hnot.1 (h p b hlookup hnot.2)

/-- A read on a path with a buffer whose window, if used, is not outdated delivers the
bytes of the file at that moment. -/
theorem read_upToDate (hshows : lower.Shows content) {w : σ} {actions : List ClientAction}
    (hrun : Transition.run (Client.step config lower content) (Client.start w) actions = some s)
    (hopened : s.cache.buffers.lookup path ≠ none) (hupToDate : s.UpToDate path size offset)
    (fi : FuseFileInfo) :
    ∃ res c, s.cache.read config lower.toReadLayer path size offset fi s.world =
        (.ret res (lower.read path size offset fi s.world).2, c) ∧
      (size ≤ 2 ^ 31 - 1 → res = (lower.read path size offset fi s.world).1) := by
  have hinv : HoldsUnlessOutdated content s :=
    Transition.invariant_of_forall (fun s a t h hstep => h.step hshows hstep) hrun
      fun p b hb => by simp [Client.start] at hb
  obtain ⟨b, hb⟩ := Option.ne_none_iff_exists'.mp hopened
  obtain ⟨res, c, hread, hres⟩ := read_exact config size offset fi
    (hshows.read path s.world) hb fun hcovers => hinv path b hb (hupToDate b hb hcovers)
  rw [hshows.read path s.world size offset fi]
  refine ⟨res, c, hread, fun hsize => hres.trans (toInt_of_le ?_)⟩
  rw [length_pread]
  omega

end RSafeFS.ReadAhead
