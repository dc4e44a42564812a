import RSafeFS.DataCache.ReadLoop
import RSafeFS.Lib.Transition

/-!
# Close-to-open consistency of the data cache

Every file goes through a sequence of versions, advanced at any time by other clients.
A block carries the modification time recorded at an open, which may be older than the
version it was fetched from. The invariant relates the two: the label of a block is the
modification time of a version that is not newer than the version of its bytes.
-/

namespace RSafeFS.DataCache

open ByteFile

/-- One version of a file. -/
structure Version where
  content : Bytes
  mtime : Timespec
  deriving DecidableEq, Repr

/-- The versions that each path goes through, and the one that a state below is at. -/
structure Timeline (σ : Type) where
  version : PathName → ℕ → Version
  current : σ → PathName → ℕ

variable {σ ρ : Type}

/-- The contents that a path has in a state below. -/
def Timeline.content (timeline : Timeline σ) (w : σ) (path : PathName) : Bytes :=
  (timeline.version path (timeline.current w path)).content

/-- No file goes back to an earlier version. -/
def Timeline.Advances (timeline : Timeline σ) (w w' : σ) : Prop :=
  ∀ p, timeline.current w p ≤ timeline.current w' p

/-- What is required of the layer below: it reads the current version, reports its
modification time, and never goes back. Different versions have different times. -/
structure Timeline.Governs (timeline : Timeline σ) (lower : ReadLayer σ) : Prop where
  read : ∀ path w, ReadsExactly lower path (timeline.content w path) w
  getattr : ∀ path w, 0 ≤ (lower.getattr path w).1 →
    (lower.getattr path w).2.mtim = (timeline.version path (timeline.current w path)).mtime
  «open» : ∀ path fi w, timeline.Advances w (lower.open path fi w).2
  release : ∀ path fi w, timeline.Advances w (lower.release path fi w).2
  distinct : ∀ path i j,
    (timeline.version path i).mtime = (timeline.version path j).mtime → i = j

/-- The cache over a layer below, with the version that was current at the last
successful open of each path that has not been released since. -/
structure Session (σ ρ : Type) where
  cache : Cache ρ
  world : σ
  openedAt : PathName → Option ℕ

/-- The start of a run. -/
def Session.start (w : σ) (policyState : ρ) : Session σ ρ := ⟨.empty policyState, w, fun _ => none⟩

/-- A request to the cache, or a change of the files by other clients. A read makes all
its clock readings at one time. -/
inductive SessionAction (σ : Type) where
  | «open» (path : PathName) (fi : FuseFileInfo)
  | read (path : PathName) (size offset : ℕ) (fi : FuseFileInfo) (now : ℤ)
  | release (path : PathName) (fi : FuseFileInfo)
  | change (w : σ)

variable (config : DataCacheConfig) (policy : EvictionPolicy Key ρ) (lower : ReadLayer σ)
  (timeline : Timeline σ)

/-- One step of a run, which does not go on after undefined behaviour. -/
def Session.step (s : Session σ ρ) : SessionAction σ → Option (Session σ ρ)
  | .open path fi =>
    let ((res, _), c, w) := s.cache.open lower path fi s.world
    some ⟨c, w, if res < 0 then s.openedAt
      else Function.update s.openedAt path (some (timeline.current w path))⟩
  | .read path size offset fi now =>
    match s.cache.read config policy lower path size offset fi (fun _ => (now, now)) s.world with
    | some (.ret _ _, c) => some { s with cache := c }
    | _ => none
  | .release path fi =>
    let (_, c, w) := s.cache.release lower path fi s.world
    some ⟨c, w, Function.update s.openedAt path none⟩
  | .change w => some { s with world := w }

/-- Other clients only advance files. -/
def Session.Forward (s : Session σ ρ) : SessionAction σ → Prop
  | .change w => timeline.Advances s.world w
  | _ => True

/-- The label of the block is the modification time of a version, and its bytes are
the slice of that version or of a later one, up to the current one. -/
def Labelled (w : σ) (key : Key) (b : Block) : Prop :=
  ∃ i j, i ≤ j ∧ j ≤ timeline.current w key.1 ∧ (timeline.version key.1 i).mtime = b.mtime ∧
    b.Holds config.blockSize key.2 (timeline.version key.1 j).content

/-- The invariant of a run. -/
structure SessionInvariant (s : Session σ ρ) : Prop where
  blocks : AllBlocks (Labelled config timeline s.world) s.cache
  mtimes : ∀ p, s.cache.mtimes.lookup p =
    (s.openedAt p).map fun k => (timeline.version p k).mtime
  past : ∀ p k, s.openedAt p = some k → k ≤ timeline.current s.world p

variable {config policy lower timeline} {s t : Session σ ρ}

/-- Labels stay right when files advance. -/
theorem Labelled.advance {w w' : σ} (hadvances : timeline.Advances w w') {key : Key} {b : Block}
    (h : Labelled config timeline w key b) : Labelled config timeline w' key b := by
  obtain ⟨i, j, hij, hj, hlabel, hholds⟩ := h
  exact ⟨i, j, hij, Nat.le_trans hj (hadvances key.1), hlabel, hholds⟩

/-- The invariant stays when only the files advance. -/
theorem SessionInvariant.advance (h : SessionInvariant config timeline s) {w : σ}
    (hadvances : timeline.Advances s.world w) :
    SessionInvariant config timeline { s with world := w } where
  blocks key b hb := (h.blocks key b hb).advance hadvances
  mtimes := h.mtimes
  past p k hk := Nat.le_trans (h.past p k hk) (hadvances p)

/-- A successful open records the current version. -/
theorem SessionInvariant.open (h : SessionInvariant config timeline s) (path : PathName)
    {mtime : Timespec}
    (hmtime : mtime = (timeline.version path (timeline.current s.world path)).mtime) :
    SessionInvariant config timeline
      ⟨{ s.cache with mtimes := s.cache.mtimes.insert path mtime }, s.world,
        Function.update s.openedAt path (some (timeline.current s.world path))⟩ where
  blocks := h.blocks
  mtimes p := by
    by_cases hp : p = path
    · subst hp
      simp [hmtime]
    · simpa [hp] using h.mtimes p
  past p k hk := by
    dsimp only at hk
    by_cases hp : p = path
    · subst hp
      rw [Function.update_self] at hk
      exact Nat.le_of_eq (Option.some.inj hk).symm
    · rw [Function.update_of_ne hp] at hk
      exact h.past p k hk

/-- A release forgets the path. -/
theorem SessionInvariant.release (h : SessionInvariant config timeline s) (path : PathName) :
    SessionInvariant config timeline
      ⟨{ s.cache with mtimes := s.cache.mtimes.erase path }, s.world,
        Function.update s.openedAt path none⟩ where
  blocks := h.blocks
  mtimes p := by
    by_cases hp : p = path
    · subst hp
      simp
    · simpa [hp] using h.mtimes p
  past p k hk := by
    dsimp only at hk
    by_cases hp : p = path
    · subst hp
      simp at hk
    · rw [Function.update_of_ne hp] at hk
      exact h.past p k hk

/-- What a read of an open path fetches is labelled rightly: its label is the version
at the open, and its bytes are those of the current one. -/
theorem SessionInvariant.fetch (h : SessionInvariant config timeline s) {path : PathName} {id : ℕ}
    {b : Block} (hholds : b.Holds config.blockSize id (timeline.content s.world path))
    (hmtime : s.cache.mtimes.lookup path = some b.mtime) :
    Labelled config timeline s.world (path, id) b := by
  rw [h.mtimes path, Option.map_eq_some_iff] at hmtime
  obtain ⟨k, hk, hlabel⟩ := hmtime
  exact ⟨k, timeline.current s.world path, h.past path k hk, le_rfl, hlabel, hholds⟩

/-- Every step keeps the invariant. -/
theorem SessionInvariant.step (hgoverns : timeline.Governs lower)
    (h : SessionInvariant config timeline s) {a : SessionAction σ}
    (hforward : s.Forward timeline a) (hstep : s.step config policy lower timeline a = some t) :
    SessionInvariant config timeline t := by
  cases a with
  | «open» path fi =>
    have hworld := h.advance (hgoverns.open path fi s.world)
    simp only [Session.step, Cache.open] at hstep
    obtain rfl := Option.some.inj hstep
    split
    · next hres => simpa only [if_pos hres] using hworld
    · split
      · next hattr => simpa only [if_pos hattr] using hworld
      · next hattr =>
        exact hworld.open path (hgoverns.getattr path _ (Int.not_lt.mp hattr))
  | read path size offset fi now =>
    simp only [Session.step] at hstep
    split at hstep
    · next res buf c hread =>
      obtain rfl := Option.some.inj hstep
      obtain ⟨hblocks, hmtimes⟩ := read_preserves (hgoverns.read path s.world)
        (fun id b ⟨_, _, _, _, _, hholds⟩ => ⟨hholds.offset, hholds.length⟩)
        (fun id b hholds hmtime _ => h.fetch hholds hmtime) h.blocks hread
      exact ⟨hblocks, fun p => hmtimes ▸ h.mtimes p, h.past⟩
    · cases hstep
  | release path fi =>
    have hworld := h.advance (hgoverns.release path fi s.world)
    obtain rfl := Option.some.inj hstep
    exact hworld.release path
  | change w =>
    obtain rfl := Option.some.inj hstep
    exact h.advance hforward

/-- Every run keeps the invariant. -/
theorem SessionInvariant.run (hgoverns : timeline.Governs lower) {w : σ} {policyState : ρ} {actions : List (SessionAction σ)}
    (hrun : Transition.run (Session.step config policy lower timeline)
      (Session.start w policyState) actions = some s)
    (hforward : Transition.Meets (Session.step config policy lower timeline)
      (Session.Forward timeline) (Session.start w policyState) actions) :
    SessionInvariant config timeline s := by
  refine Transition.invariant (fun _ _ _ hs hok hstep => hs.step hgoverns hok hstep) hrun
    hforward ⟨?_, fun _ => rfl, ?_⟩
  · intro key b hb
    simp [Session.start, Cache.empty] at hb
  · intro p k hk
    cases hk

/-- The byte at each position of the output comes from a version in the given range. -/
def FromVersions (timeline : Timeline σ) (path : PathName) (first last offset : ℕ) (out : Bytes) :
    Prop :=
  ∀ i < out.length, ∃ j, first ≤ j ∧ j ≤ last ∧
    (timeline.version path j).content[offset + i]? = out[i]?

/-- Appending bytes of one version in the range keeps the property. -/
theorem FromVersions.append {path : PathName} {first last offset j n : ℕ} {out : Bytes}
    (h : FromVersions timeline path first last offset out) (hfirst : first ≤ j) (hlast : j ≤ last) :
    FromVersions timeline path first last offset
      (out ++ pread (timeline.version path j).content n (offset + out.length)) := by
  intro i hi
  by_cases hold : i < out.length
  · rw [List.getElem?_append_left hold]
    exact h i hold
  · refine ⟨j, hfirst, hlast, ?_⟩
    rw [List.length_append, length_pread] at hi
    rw [List.getElem?_append_right (Nat.not_lt.mp hold), getElem?_pread, if_pos (by omega)]
    congr 1
    omega

/-- A block fetched at this very moment is valid. -/
theorem isValid_of_fetched {b : Block} {timeOut now : ℤ} {mtime : Timespec}
    (hmtime : b.mtime = mtime) (htimestamp : b.timestamp = now) :
    b.isValid timeOut mtime now = true := by
  unfold Block.isValid
  rw [hmtime, htimestamp, if_neg (by simp)]
  split
  · simp only [Int.sub_self, Int.zero_tdiv, decide_eq_true_eq]
    omega
  · rfl

/-- Where the loop of a read can be: at the start, at the beginning of a block, or
inside a valid cached block and not behind its bytes. -/
def Aligned (config : DataCacheConfig) (path : PathName) (offset : ℕ) (mtime : Timespec) (now : ℤ)
    (c : Cache ρ) (position : ℕ) : Prop :=
  position = offset ∨ position % config.blockSize = 0 ∨
    ∃ b, c.cache.lookup (path, position / config.blockSize) = some b ∧
      b.isValid config.timeOut mtime now = true ∧
      position - position / config.blockSize * config.blockSize ≤ b.size

/-- After all the bytes of a valid block have been copied, the position is aligned. -/
theorem aligned_of_copied {path : PathName} {offset id : ℕ} {mtime : Timespec} {now : ℤ}
    {c : Cache ρ} {b : Block} (hbs : 0 < config.blockSize)
    (hlookup : c.cache.lookup (path, id) = some b)
    (hvalid : b.isValid config.timeOut mtime now = true) (hsize : b.size ≤ config.blockSize) :
    Aligned config path offset mtime now c (id * config.blockSize + b.size) := by
  rcases Nat.lt_or_eq_of_le hsize with hlt | heq
  · have hdiv : (id * config.blockSize + b.size) / config.blockSize = id := by
      rw [Nat.mul_comm, Nat.mul_add_div hbs, Nat.div_eq_of_lt hlt, Nat.add_zero]
    refine Or.inr (Or.inr ⟨b, by rwa [hdiv], hvalid, ?_⟩)
    rw [hdiv]
    omega
  · refine Or.inr (Or.inl ?_)
    rw [heq, ← Nat.succ_mul, Nat.mul_mod_left]

/-- The invariant of the loop of a read on a path that was opened at version `k`. -/
structure ReadSince (config : DataCacheConfig) (timeline : Timeline σ) (w : σ) (path : PathName)
    (k size offset : ℕ) (now : ℤ) (t : ReadState ρ) : Prop where
  blocks : AllBlocks (Labelled config timeline w) t.1
  out : FromVersions timeline path k (timeline.current w path) offset t.2
  aligned : t.2.length = size ∨ Aligned config path offset (timeline.version path k).mtime now t.1
    (offset + t.2.length)

section Iteration

variable {w : σ} {path : PathName} {k size offset : ℕ} {now : ℤ} {c : Cache ρ} {out : Bytes}

/-- The bytes of a valid block are those of a version since the open. -/
theorem Labelled.since (hgoverns : timeline.Governs lower) {id : ℕ} {b : Block}
    (h : Labelled config timeline w (path, id) b)
    (hvalid : b.isValid config.timeOut (timeline.version path k).mtime now = true) :
    ∃ j, k ≤ j ∧ j ≤ timeline.current w path ∧
      b.Holds config.blockSize id (timeline.version path j).content := by
  obtain ⟨i, j, hij, hj, hlabel, hslice⟩ := h
  -- The label is the version at the open, so the bytes are not older.
  have hi : i = k := hgoverns.distinct path i k (hlabel.trans (mtime_eq_of_isValid hvalid))
  exact ⟨j, hi ▸ hij, hj, hslice⟩

/-- Copying from a valid block that reaches the position keeps the invariant. -/
theorem ReadSince.copyBlock (hbs : 0 < config.blockSize) {id j : ℕ} {b : Block}
    (hall : AllBlocks (Labelled config timeline w) c)
    (hout : FromVersions timeline path k (timeline.current w path) offset out)
    (hle : out.length ≤ size) (hlookup : c.cache.lookup (path, id) = some b)
    (hvalid : b.isValid config.timeOut (timeline.version path k).mtime now = true)
    (hfirst : k ≤ j) (hlast : j ≤ timeline.current w path)
    (hslice : b.Holds config.blockSize id (timeline.version path j).content)
    (hstart : id * config.blockSize ≤ offset + out.length)
    (hposition : offset + out.length - b.offset ≤ b.size) :
    (DataCache.copyBlock policy size offset (path, id) b (c, out)).Sat
      (ReadSince config timeline w path k size offset now)
      (fun r => ∃ buf, r.1 = .ret (toInt buf.length) buf ∧
        FromVersions timeline path k (timeline.current w path) offset buf) := by
  have hsize := hslice.size_le
  have hlength := hslice.length
  have hboff := hslice.offset
  rw [copyBlock_of_le hle hposition (by omega)]
  split
  · exact ⟨out, rfl, hout⟩
  · refine ⟨hall, ?_, ?_⟩
    · have hskipped : id * config.blockSize + (offset + out.length - b.offset) =
          offset + out.length := by omega
      dsimp only
      rw [hslice.copy (by omega), hskipped]
      exact hout.append hfirst hlast
    · by_cases hmore : size - out.length ≤ b.size - (offset + out.length - b.offset)
      · left
        simp only [List.length_append, List.length_take, List.length_drop]
        omega
      · right
        have hend : offset + (out ++ (b.buf.drop (offset + out.length - b.offset)).take
            (min (size - out.length) (b.size - (offset + out.length - b.offset)))).length =
            id * config.blockSize + b.size := by
          simp only [List.length_append, List.length_take, List.length_drop]
          omega
        dsimp only
        rw [hend]
        exact aligned_of_copied hbs hlookup hvalid hsize

/-- One iteration of a read on an open path keeps to the versions since the open. -/
theorem ReadSince.readBody (hgoverns : timeline.Governs lower) (hbs : 0 < config.blockSize)
    {fi : FuseFileInfo} (hk : k ≤ timeline.current w path)
    (hoffset : ∀ j, k ≤ j → j ≤ timeline.current w path →
      offset ≤ (timeline.version path j).content.length)
    (h : ReadSince config timeline w path k size offset now (c, out)) (hle : out.length ≤ size) :
    (DataCache.readBody config policy lower path size offset fi w (timeline.version path k).mtime
      (now, now) (c, out)).Sat
      (ReadSince config timeline w path k size offset now)
      (fun r => ∃ buf, r.1 = .ret (toInt buf.length) buf ∧
        FromVersions timeline path k (timeline.current w path) offset buf) := by
  by_cases hfull : out.length = size
  · rw [readBody_of_eq hfull]
    exact ⟨out, rfl, h.out⟩
  have haligned := h.aligned.resolve_left hfull
  obtain ⟨hstart, hskip⟩ := position_in_block hbs (offset + out.length)
  have hmod := Nat.div_add_mod (offset + out.length) config.blockSize
  rw [Nat.mul_comm] at hmod
  have hresult := readBody_result policy offset fi (timeline.version path k).mtime (now, now)
    (hgoverns.read path w)
    (fun id b ⟨_, _, _, _, _, hholds⟩ => ⟨hholds.offset, hholds.length⟩)
    (fun id b hholds hlabel _ =>
      ⟨k, timeline.current w path, hk, le_rfl, hlabel.symm, hholds⟩) h.blocks hbs hfull
  unfold Aligned at haligned
  dsimp only at haligned
  generalize (offset + out.length) / config.blockSize = id at *
  generalize DataCache.readBody config policy lower path size offset fi w _ (now, now) (c, out) =
    step at *
  cases hresult with
  | copied b c' hall' _ hlookup hb =>
    have hvalid : b.isValid config.timeOut (timeline.version path k).mtime now = true := by
      rcases hb with ⟨_, hvalid⟩ | ⟨_, hlabel, htimestamp, _⟩
      · exact hvalid
      · exact isValid_of_fetched hlabel htimestamp
    obtain ⟨j, hfirst, hlast, hslice⟩ := (hall' _ _ hlookup).since hgoverns hvalid
    have hsize := hslice.size
    have hboff := hslice.offset
    rw [length_pread] at hsize
    have hposition : offset + out.length - b.offset ≤ b.size := by
      rcases haligned with hbegin | hzero | ⟨b', hb', hvalid', hle'⟩
      · have := hoffset j hfirst hlast
        omega
      · omega
      · rcases hb with ⟨hb, _⟩ | ⟨_, _, _, hinvalid⟩
        · obtain rfl := Option.some.inj (hb'.symm.trans hb)
          omega
        · exact absurd hvalid' (hinvalid b' hb')
    exact ReadSince.copyBlock hbs hall' h.out hle hlookup hvalid hfirst hlast hslice hstart
      hposition
  | fetched b c' hall' _ _ hnone =>
    refine ⟨hall', h.out, Or.inr ?_⟩
    rcases haligned with hbegin | hzero | ⟨b', hb', _⟩
    · exact Or.inl hbegin
    · exact Or.inr (Or.inl hzero)
    · simp [hnone] at hb'
  | ended c' => exact ⟨out, rfl, h.out⟩

end Iteration

/-- **Close-to-open consistency.** In every run with versions advancing at any time, a
read on an open path that starts inside all versions since the open returns bytes each
of which is the byte of such a version at its position. -/
theorem read_closeToOpen (hgoverns : timeline.Governs lower) (hbs : 1 ≤ config.blockSize)
    {w : σ} {policyState : ρ} {actions : List (SessionAction σ)}
    (hrun : Transition.run (Session.step config policy lower timeline)
      (Session.start w policyState) actions = some s)
    (hforward : Transition.Meets (Session.step config policy lower timeline)
      (Session.Forward timeline) (Session.start w policyState) actions)
    {path : PathName} {k : ℕ} (hopened : s.openedAt path = some k) {offset : ℕ}
    (hoffset : ∀ j, k ≤ j → j ≤ timeline.current s.world path →
      offset ≤ (timeline.version path j).content.length)
    (size : ℕ) (fi : FuseFileInfo) (now : ℤ) :
    ∃ buf c, s.cache.read config policy lower path size offset fi (fun _ => (now, now)) s.world =
        some (.ret (toInt buf.length) buf, c) ∧
      ∀ i < buf.length, ∃ j, k ≤ j ∧ j ≤ timeline.current s.world path ∧
        (timeline.version path j).content[offset + i]? = buf[i]? := by
  have hinv := SessionInvariant.run hgoverns hrun hforward
  have hmtime : s.cache.mtimes.lookup path = some (timeline.version path k).mtime := by
    rw [hinv.mtimes path, hopened]
    rfl
  have hloop : ∃ r, readLoop config policy lower path size offset fi s.world
      (timeline.version path k).mtime (fun _ => (now, now)) s.cache = some r ∧
      ∃ buf, r.1 = .ret (toInt buf.length) buf ∧
        FromVersions timeline path k (timeline.current s.world path) offset buf :=
    readLoop_rule (I := ReadSince config timeline s.world path k size offset now)
      (fun i t hI hle => hI.readBody hgoverns hbs (hinv.past path k hopened) hoffset hle)
      ⟨hinv.blocks, fun i hi => absurd hi (Nat.not_lt_zero i), Or.inr (Or.inl rfl)⟩
  obtain ⟨⟨outcome, c⟩, hread, buf, houtcome, hbuf⟩ := hloop
  dsimp only at houtcome
  exact ⟨buf, c, by simp only [Cache.read, hmtime, hread, houtcome], hbuf⟩

/-- Files of four bytes that all count the versions, with the time as their number. -/
def counting : Timeline ℕ where
  version _ n := ⟨List.replicate 4 (UInt8.ofNat n), ⟨n, 0⟩⟩
  current w _ := w

/-- The layer below that shows those files. -/
def countingLayer : ReadLayer ℕ where
  «open» _ fi w := ((0, fi), w)
  getattr _ w := (0, { (default : Stat) with mtim := ⟨w, 0⟩ })
  read path size offset _ w :=
    ((pread (counting.content w path) size offset).length,
      pread (counting.content w path) size offset)
  release _ _ w := (0, w)

theorem counting_governs : counting.Governs countingLayer where
  read _ _ _ _ _ := rfl
  getattr _ _ _ := rfl
  «open» _ _ _ _ := le_rfl
  release _ _ _ _ := le_rfl
  distinct _ _ _ h := Int.ofNat.inj (congrArg Timespec.tvSec h)

/-- A file that changes between two reads of one open is read partly in its old and
partly in its new version. -/
theorem read_closeToOpen_counting :
    ∃ s, Transition.run (Session.step { blockSize := 2 } lruEviction countingLayer counting)
        (Session.start 0 LruState.empty)
        [.open "/f".toList default, .read "/f".toList 2 0 default 0, .change 1] = some s ∧
      ∃ buf c, s.cache.read { blockSize := 2 } lruEviction countingLayer "/f".toList 4 0 default
          (fun _ => (0, 0)) s.world = some (.ret (toInt buf.length) buf, c) ∧
        ∀ i < buf.length, ∃ j, 0 ≤ j ∧ j ≤ counting.current s.world "/f".toList ∧
          (counting.version "/f".toList j).content[0 + i]? = buf[i]? := by
  obtain ⟨s, hrun, hopened⟩ : ∃ s, Transition.run
      (Session.step { blockSize := 2 } lruEviction countingLayer counting)
      (Session.start 0 LruState.empty)
      [.open "/f".toList default, .read "/f".toList 2 0 default 0, .change 1] = some s ∧
      s.openedAt "/f".toList = some 0 := ⟨_, rfl, rfl⟩
  refine ⟨s, hrun, read_closeToOpen counting_governs (by decide) hrun ?_ hopened
    (fun _ _ _ => Nat.zero_le _) 4 default 0⟩
  exact .cons trivial rfl (.cons trivial rfl (.cons (fun _ => Nat.zero_le 1) rfl trivial))

end RSafeFS.DataCache
