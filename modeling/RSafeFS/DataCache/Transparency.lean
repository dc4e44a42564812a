import RSafeFS.DataCache.ReadLoop
import RSafeFS.Lib.Transition

/-!
# The data cache over files that do not change

When every usable block holds its slice of a file's contents, a read through the cache
that starts inside the file delivers what a read of the contents would. A read that
starts behind the end of a file, inside its last and partly filled block, computes the
number of bytes to copy by an unsigned subtraction that wraps around.
-/

namespace RSafeFS.DataCache

open ByteFile

variable {σ ρ : Type} {config : DataCacheConfig} {policy : EvictionPolicy Key ρ}
  {lower : ReadLayer σ} {path : PathName} {size offset : ℕ} {fi : FuseFileInfo} {w : σ}
  {mtime : Timespec} {clock : ℕ → ℤ × ℤ}

section Snapshot

variable {P : Key → Block → Prop} {content : Bytes}

/-- One iteration of a read inside the contents extends the bytes copied so far to a
longer prefix of the answer, or ends the call with the whole answer. -/
theorem readBody_snapshot (policy : EvictionPolicy Key ρ) (fi : FuseFileInfo) (now : ℤ × ℤ)
    (hexact : ReadsExactly lower path content w)
    (hgeometry : ∀ id b, P (path, id) b →
      b.offset = id * config.blockSize ∧ b.buf.length = config.blockSize)
    (hfetch : ∀ id b, b.Holds config.blockSize id content → b.mtime = mtime →
      (0 < b.size ∨ ∃ old, P (path, id) old) → P (path, id) b)
    (hholds : ∀ id b, id * config.blockSize < offset + size → offset < (id + 1) * config.blockSize →
      P (path, id) b → b.mtime = mtime → b.Holds config.blockSize id content)
    (hbs : 0 < config.blockSize) {c : Cache ρ} {out : Bytes} (hall : AllBlocks P c)
    (hout : out = pread content out.length offset) (hle : out.length ≤ size)
    (hinside : offset + out.length ≤ content.length) :
    (readBody config policy lower path size offset fi w mtime now (c, out)).Sat
      (fun t => AllBlocks P t.1 ∧ t.1.mtimes = c.mtimes ∧ t.2 = pread content t.2.length offset ∧
        offset + t.2.length ≤ content.length)
      (fun r => r.1 = .ret (toInt (pread content size offset).length) (pread content size offset) ∧
        AllBlocks P r.2 ∧ r.2.mtimes = c.mtimes) := by
  by_cases hfull : out.length = size
  · rw [readBody_of_eq hfull, ← hfull]
    exact ⟨by rw [← hout], hall, rfl⟩
  -- At the end of the contents the bytes copied so far are the whole answer.
  have hwhole (hend : content.length ≤ offset + out.length) : pread content size offset = out := by
    obtain ⟨rest, hrest⟩ := Nat.exists_eq_add_of_le hle
    rw [hrest, pread_add, pread_eq_nil hend, List.append_nil, ← hout]
  obtain ⟨hstart, hskip⟩ := position_in_block hbs (offset + out.length)
  have hresult := readBody_result policy offset fi mtime now hexact hgeometry hfetch hall hbs hfull
  generalize (offset + out.length) / config.blockSize = id at *
  generalize readBody config policy lower path size offset fi w mtime now (c, out) = step at *
  cases hresult with
  | copied b c' hall' hmtimes hlookup hb =>
    have hP := hall' _ _ hlookup
    have hmtime : b.mtime = mtime := by
      rcases hb with ⟨_, hvalid⟩ | ⟨_, hmtime, _, _⟩
      · exact mtime_eq_of_isValid hvalid
      · exact hmtime
    have hslice := hholds id b (by omega) (by rw [Nat.succ_mul]; omega) hP hmtime
    have hsize := hslice.size
    rw [length_pread] at hsize
    have hlength := hslice.length
    have hoffset := hslice.offset
    rw [copyBlock_of_le hle (by omega) (by omega)]
    split
    · next hzero =>
      have hall_out := hwhole (by omega)
      exact ⟨by rw [hall_out], hall', hmtimes⟩
    · refine ⟨hall', hmtimes, ?_, ?_⟩
      · rw [hslice.copy (by omega)]
        dsimp only
        have hposition : id * config.blockSize + (offset + out.length - b.offset) =
            offset + out.length := by omega
        rw [hposition, List.length_append, pread_add, ← hout, length_pread]
        congr 2
        omega
      · simp only [List.length_append, List.length_take, List.length_drop]
        omega
  | fetched b c' hall' hmtimes _ _ _ _ _ => exact ⟨hall', hmtimes, hout, hinside⟩
  | ended c' hall' hmtimes _ hend =>
    have hall_out := hwhole (by omega)
    exact ⟨by rw [hall_out], hall', hmtimes⟩

/-- **Snapshot lemma.** If every block of the requested range that is labelled with the
recorded modification time holds its slice of the contents, and the layer below reads
those contents, then a read that starts inside them returns exactly their bytes. -/
theorem read_snapshot (policy : EvictionPolicy Key ρ) (size : ℕ) (fi : FuseFileInfo)
    (clock : ℕ → ℤ × ℤ) (hexact : ReadsExactly lower path content w)
    (hgeometry : ∀ id b, P (path, id) b →
      b.offset = id * config.blockSize ∧ b.buf.length = config.blockSize)
    (hfetch : ∀ id b, b.Holds config.blockSize id content → b.mtime = mtime →
      (0 < b.size ∨ ∃ old, P (path, id) old) → P (path, id) b)
    (hholds : ∀ id b, id * config.blockSize < offset + size → offset < (id + 1) * config.blockSize →
      P (path, id) b → b.mtime = mtime → b.Holds config.blockSize id content)
    (hbs : 0 < config.blockSize) (hoffset : offset ≤ content.length)
    {c : Cache ρ} (hall : AllBlocks P c) (hmtime : c.mtimes.lookup path = some mtime) :
    ∃ c', c.read config policy lower path size offset fi clock w =
      some (.ret (toInt (pread content size offset).length) (pread content size offset), c') := by
  have hloop : ∃ r, readLoop config policy lower path size offset fi w mtime clock c = some r ∧
      r.1 = .ret (toInt (pread content size offset).length) (pread content size offset) := by
    refine readLoop_rule (I := fun t => AllBlocks P t.1 ∧ t.2 = pread content t.2.length offset ∧
      offset + t.2.length ≤ content.length) ?_ ⟨hall, by simp, by simpa using hoffset⟩
    rintro i ⟨c, out⟩ ⟨hall, hout, hinside⟩ hle
    have hstep := readBody_snapshot policy fi (clock i) hexact hgeometry hfetch hholds hbs hall hout
      hle hinside
    cases hcase : readBody config policy lower path size offset fi w mtime (clock i) (c, out) with
    | next t =>
      rw [hcase] at hstep
      exact ⟨hstep.1, hstep.2.2⟩
    | done r =>
      rw [hcase] at hstep
      exact hstep.1
  obtain ⟨⟨outcome, c'⟩, hrun, houtcome⟩ := hloop
  dsimp only at houtcome
  exact ⟨c', by simp only [Cache.read, hmtime, hrun, houtcome]⟩

end Snapshot

/-- A request to the cache. -/
inductive Action where
  | «open» (path : PathName) (fi : FuseFileInfo)
  | read (path : PathName) (size offset : ℕ) (fi : FuseFileInfo) (clock : ℕ → ℤ × ℤ)
  | release (path : PathName) (fi : FuseFileInfo)

/-- One request. A run does not go on after undefined behaviour. -/
def step (config : DataCacheConfig) (policy : EvictionPolicy Key ρ) (lower : ReadLayer σ) :
    Cache ρ × σ → Action → Option (Cache ρ × σ)
  | (c, w), .open path fi => some (c.open lower path fi w).2
  | (c, w), .read path size offset fi clock =>
    match c.read config policy lower path size offset fi clock w with
    | some (.ret _ _, c) => some (c, w)
    | _ => none
  | (c, w), .release path fi => some (c.release lower path fi w).2

/-- The block holds its slice of the file at its path, which is not empty. -/
def HoldsFile (config : DataCacheConfig) (content : PathName → Bytes) (key : Key) (b : Block) :
    Prop := b.Holds config.blockSize key.2 (content key.1) ∧ 0 < b.size

section Unchanging

variable {content : PathName → Bytes}

/-- What is fetched for a file holds its slice of it. -/
theorem holdsFile_of_holds {id : ℕ} {b : Block}
    (hholds : b.Holds config.blockSize id (content path))
    (hsize : 0 < b.size ∨ ∃ old, HoldsFile config content (path, id) old) :
    HoldsFile config content (path, id) b := by
  refine ⟨hholds, ?_⟩
  rcases hsize with hsize | ⟨old, hold, hpos⟩
  · exact hsize
  · rw [hholds.size, ← hold.size]
    exact hpos

/-- Every request keeps the cached blocks as slices of the files. -/
theorem allBlocks_step (hexact : ∀ path w, ReadsExactly lower path (content path) w)
    {s t : Cache ρ × σ} {a : Action}
    (hall : AllBlocks (HoldsFile config content) s.1)
    (hstep : step config policy lower s a = some t) :
    AllBlocks (HoldsFile config content) t.1 := by
  obtain ⟨c, w⟩ := s
  cases a with
  | «open» path fi =>
    simp only [step, Option.some.injEq] at hstep
    subst hstep
    intro key b hb
    rw [open_cache] at hb
    exact hall key b hb
  | read path size offset fi clock =>
    simp only [step] at hstep
    split at hstep
    · next res buf c' hread =>
      obtain rfl := Option.some.inj hstep
      exact (read_preserves (hexact path w)
        (fun id b hb => ⟨hb.1.offset, hb.1.length⟩)
        (fun id b hholds _ hsize => holdsFile_of_holds hholds hsize) hall hread).1
    · cases hstep
  | release path fi =>
    obtain rfl := Option.some.inj hstep
    exact hall

/-- In every reachable state the cached blocks are slices of the files. -/
theorem allBlocks_run (hexact : ∀ path w, ReadsExactly lower path (content path) w)
    {policyState : ρ} {w₀ : σ} {actions : List Action}
    {t : Cache ρ × σ}
    (hrun : Transition.run (step config policy lower) (Cache.empty policyState, w₀) actions =
      some t) : AllBlocks (HoldsFile config content) t.1 := by
  refine Transition.invariant_of_forall (I := fun t => AllBlocks (HoldsFile config content) t.1)
    (fun s a t hall hstep => allBlocks_step hexact hall hstep) hrun ?_
  intro key b hb
  simp [Cache.empty] at hb

/-- A read that starts behind the end of the file, in a block that starts behind it
too, finds no block and no bytes. -/
theorem read_behind (policy : EvictionPolicy Key ρ) (size : ℕ) (fi : FuseFileInfo)
    (clock : ℕ → ℤ × ℤ) (hexact : ReadsExactly lower path (content path) w)
    (hbs : 0 < config.blockSize) {c : Cache ρ} (hall : AllBlocks (HoldsFile config content) c)
    (hmtime : c.mtimes.lookup path = some mtime)
    (hblock : (content path).length ≤ offset / config.blockSize * config.blockSize) :
    ∃ c', c.read config policy lower path size offset fi clock w = some (.ret 0 [], c') := by
  -- A block at the position would be empty, and no empty block is ever kept.
  have hempty {c' : Cache ρ} (hall' : AllBlocks (HoldsFile config content) c') :
      c'.cache.lookup (path, offset / config.blockSize) = none := by
    rw [Option.eq_none_iff_forall_ne_some]
    intro b hb
    obtain ⟨hholds, hpos⟩ := hall' _ _ hb
    rw [hholds.size, length_pread] at hpos
    dsimp only at hpos
    omega
  have hloop : ∃ r, readLoop config policy lower path size offset fi w mtime clock c = some r ∧
      r.1 = .ret 0 [] := by
    refine readLoop_rule (I := fun t => AllBlocks (HoldsFile config content) t.1 ∧ t.2 = []) ?_
      ⟨hall, rfl⟩
    rintro i ⟨c₁, out⟩ ⟨hall₁, hout⟩ _
    dsimp only at hall₁ hout
    subst hout
    by_cases hfull : ([] : Bytes).length = size
    · rw [readBody_of_eq hfull]
      rfl
    have hresult := readBody_result policy offset fi mtime (clock i) hexact
      (fun id b hb => ⟨hb.1.offset, hb.1.length⟩)
      (fun id b hholds _ hsize => holdsFile_of_holds hholds hsize) hall₁ hbs hfull
    generalize readBody config policy lower path size offset fi w mtime (clock i) (c₁, []) =
      step at *
    cases hresult with
    | copied b c₂ hall₂ _ hlookup => simp [hempty hall₂] at hlookup
    | fetched b c₂ hall₂ _ hlookup => simp [hempty hall₂] at hlookup
    | ended c₂ => rfl
  obtain ⟨⟨outcome, c'⟩, hrun, houtcome⟩ := hloop
  dsimp only at houtcome
  exact ⟨c', by simp only [Cache.read, hmtime, hrun, houtcome]⟩

/-- A read that starts behind the end of the file, in a block that starts before it,
does not return zero bytes: the subtraction wraps and the whole request is copied. -/
theorem read_beyond (hexact : ReadsExactly lower path (content path) w)
    (hbs : 0 < config.blockSize) {c : Cache ρ} (hall : AllBlocks (HoldsFile config content) c)
    (hmtime : c.mtimes.lookup path = some mtime) (hpos : 0 < size) (hsize : size ≤ 2 ^ 31 - 1)
    (hbound : offset + size + config.blockSize < 2 ^ 63) (hoffset : (content path).length < offset)
    (hblock : offset / config.blockSize * config.blockSize < (content path).length) (c' : Cache ρ) :
    c.read config policy lower path size offset fi clock w ≠ some (.ret 0 [], c') := by
  obtain ⟨hstart, hskip⟩ := position_in_block hbs offset
  have hloop : ∃ r, readLoop config policy lower path size offset fi w mtime clock c = some r ∧
      r.1 ≠ .ret 0 [] := by
    refine readLoop_rule (I := fun t => AllBlocks (HoldsFile config content) t.1 ∧
      (t.2 = [] ∨ t.2.length = size)) ?_ ⟨hall, Or.inl rfl⟩
    rintro i ⟨c₁, out⟩ ⟨hall₁, hout⟩ _
    by_cases hfull : out.length = size
    · rw [readBody_of_eq hfull]
      rintro heq
      obtain rfl := (Outcome.ret.inj heq).2
      simp at hfull
      omega
    obtain rfl := hout.resolve_right hfull
    have hresult := readBody_result policy offset fi mtime (clock i) hexact
      (fun id b hb => ⟨hb.1.offset, hb.1.length⟩)
      (fun id b hholds _ hsize => holdsFile_of_holds hholds hsize) hall₁ hbs hfull
    generalize readBody config policy lower path size offset fi w mtime (clock i) (c₁, []) =
      step at *
    simp only [List.length_nil, Nat.add_zero] at hresult
    cases hresult with
    | copied b c₂ hall₂ _ hlookup =>
      obtain ⟨hholds, _⟩ := hall₂ _ _ hlookup
      have hlength := hholds.length
      have hboff := hholds.offset
      have hbsize := hholds.size
      rw [length_pread] at hbsize
      dsimp only at hlength hboff hbsize
      have hn : min (sizeSub size 0) (sizeSub b.size (offset - b.offset)) = size := by
        rw [sizeSub_of_le (Nat.zero_le _), sizeSub_of_lt (by omega)]
        omega
      simp only [copyBlock, List.length_nil, Nat.add_zero, hn, if_neg (Nat.ne_of_gt hpos)]
      split
      · refine ⟨hall₂, Or.inr ?_⟩
        simp only [List.nil_append, List.length_take, List.length_drop]
        omega
      · exact fun h => Outcome.noConfusion h
    | fetched b c₂ hall₂ => exact ⟨hall₂, Or.inl rfl⟩
    | ended c₂ hall₂ _ _ hend => omega
  obtain ⟨r, hrun, hr⟩ := hloop
  simp only [Cache.read, hmtime, hrun]
  rintro heq
  obtain rfl := Option.some.inj heq
  exact hr rfl

/-- **Transparency.** In every state reached over unchanging files, a read through the
cache returns what the layer below returns exactly if nothing is requested, the path is
not open, the read starts inside the file, or its first block starts behind the file. -/
theorem read_transparent_iff (hexact : ∀ path w, ReadsExactly lower path (content path) w)
    (hbs : 1 ≤ config.blockSize) {policyState : ρ} {w₀ : σ} {actions : List Action} {c : Cache ρ}
    (hrun : Transition.run (step config policy lower) (Cache.empty policyState, w₀) actions =
      some (c, w)) (path : PathName) (size offset : ℕ) (fi : FuseFileInfo) (clock : ℕ → ℤ × ℤ)
    (hsize : size ≤ 2 ^ 31 - 1) (hbound : offset + size + config.blockSize < 2 ^ 63) :
    (∃ c', c.read config policy lower path size offset fi clock w =
      some (.ret (lower.read path size offset fi w).1 (lower.read path size offset fi w).2, c')) ↔
    size = 0 ∨ c.mtimes.lookup path = none ∨ offset ≤ (content path).length ∨
      (content path).length ≤ offset / config.blockSize * config.blockSize := by
  have hall := allBlocks_run hexact hrun
  rw [hexact path w size offset fi]
  dsimp only
  cases hmtime : c.mtimes.lookup path with
  | none =>
    simp only [true_or, or_true, iff_true]
    exact ⟨c, by simp only [Cache.read, hmtime, hexact path w size offset fi]⟩
  | some mtime =>
    simp only [reduceCtorEq, false_or]
    constructor
    · rintro ⟨c', hread⟩
      by_contra hnot
      simp only [not_or, Nat.not_le] at hnot
      obtain ⟨hpos, hoffset, hblock⟩ := hnot
      rw [pread_eq_nil (by omega)] at hread
      exact read_beyond (hexact path w) hbs hall hmtime (Nat.pos_of_ne_zero hpos) hsize hbound
        hoffset hblock c' hread
    · rintro (rfl | hoffset | hblock)
      · refine ⟨c, ?_⟩
        simp only [Cache.read, hmtime, pread_zero]
        rfl
      · have hread := read_snapshot policy size fi clock (hexact path w)
          (fun id b hb => ⟨hb.1.offset, hb.1.length⟩)
          (fun id b hholds _ hsize => holdsFile_of_holds hholds hsize)
          (fun id b _ _ hb _ => hb.1) hbs hoffset hall hmtime
        rwa [toInt_of_le (by rw [length_pread]; omega)] at hread
      · obtain ⟨c', hread⟩ := read_behind policy size fi clock (hexact path w) hbs hall hmtime
          hblock
        have hstart := (position_in_block hbs offset).1
        rw [pread_eq_nil (by omega)]
        exact ⟨c', hread⟩

end Unchanging

/-- A layer below on which every path is a file with the given contents. -/
def fixedFile (content : Bytes) : ReadLayer Unit where
  «open» _ fi _ := ((0, fi), ())
  getattr _ _ := (0, default)
  read _ size offset _ _ := ((pread content size offset).length, pread content size offset)
  release _ _ _ := (0, ())

/-- With blocks of four bytes, a read across all blocks of an open file of six bytes. -/
theorem read_transparent_six :
    ∃ c w, Transition.run (step { blockSize := 4 } lruEviction (fixedFile [1, 2, 3, 4, 5, 6]))
        (Cache.empty LruState.empty, ()) [.open "/f".toList default] = some (c, w) ∧
      ∃ c', c.read { blockSize := 4 } lruEviction (fixedFile [1, 2, 3, 4, 5, 6]) "/f".toList 8 1
        default (fun _ => (0, 0)) w = some (.ret 5 [2, 3, 4, 5, 6], c') := by
  obtain ⟨c, w, hrun⟩ : ∃ c w, Transition.run
      (step { blockSize := 4 } lruEviction (fixedFile [1, 2, 3, 4, 5, 6]))
      (Cache.empty LruState.empty, ()) [.open "/f".toList default] = some (c, w) := ⟨_, _, rfl⟩
  have hexact : ∀ (path : PathName) w, ReadsExactly (fixedFile [1, 2, 3, 4, 5, 6]) path
      [1, 2, 3, 4, 5, 6] w := fun _ _ _ _ _ => rfl
  exact ⟨c, w, hrun, (read_transparent_iff hexact (by decide) hrun "/f".toList 8 1 default
    (fun _ => (0, 0)) (by decide) (by decide)).mpr (Or.inr (Or.inr (Or.inl (by decide))))⟩

/-- A read of two bytes at offset five of an open file of three bytes returns two. -/
theorem not_read_transparent : ¬ ∀ (σ ρ : Type) (config : DataCacheConfig)
    (policy : EvictionPolicy Key ρ) (lower : ReadLayer σ) (content : PathName → Bytes)
    (policyState : ρ) (w₀ w : σ) (actions : List Action) (c : Cache ρ),
    (∀ path w, ReadsExactly lower path (content path) w) → 1 ≤ config.blockSize →
    Transition.run (step config policy lower) (Cache.empty policyState, w₀) actions = some (c, w) →
    ∀ (path : PathName) (size offset : ℕ) (fi : FuseFileInfo) (clock : ℕ → ℤ × ℤ),
      size ≤ 2 ^ 31 - 1 → offset + size + config.blockSize < 2 ^ 63 →
      ∃ c', c.read config policy lower path size offset fi clock w =
        some (.ret (lower.read path size offset fi w).1 (lower.read path size offset fi w).2, c') := by
  intro hall
  obtain ⟨c', hread⟩ := hall Unit _ { blockSize := 8 } lruEviction (fixedFile [1, 2, 3])
    (fun _ => [1, 2, 3]) LruState.empty () () [.open "/f".toList default] _ (fun _ _ _ _ _ => rfl)
    (by decide) rfl "/f".toList 2 5 default (fun _ => (0, 0)) (by decide) (by decide)
  have houtcome : _ = some (Outcome.ret 0 []) := congrArg (Option.map Prod.fst) hread
  exact absurd houtcome (by decide)

end RSafeFS.DataCache
