import RSafeFS.DataCache.CloseToOpen
import RSafeFS.DataCache.Refresh

/-!
# Close-to-open consistency of concurrent reads

Reads, opens and releases of any number of threads are interleaved, and other clients change
the files at any time, also in the middle of a read. An open asks for the modification time
and records it in two steps. The layers below may answer from caches of their own, so what an
open finds and what a read fetches may be older than the current version. A block may be fetched
by one read and copied by another, so its label and its bytes are from two versions, of which
the label is never the newer one.
-/

namespace RSafeFS.DataCache

open ByteFile

variable {σ ρ : Type}

/-- Versions with different numbers have different modification times. -/
def Timeline.Distinct (timeline : Timeline σ) : Prop :=
  ∀ path i j, (timeline.version path i).mtime = (timeline.version path j).mtime → i = j

/-- The threads over files with versions. `found` is the version that an open has found and not
yet recorded, `openedAt` the version whose modification time the cache has, and `since` the
version whose modification time the read of a thread goes by. -/
structure SharedSession (σ ρ : Type) where
  threads : Threads ρ
  world : σ
  found : ℕ → Option (PathName × ℕ)
  openedAt : PathName → Option ℕ
  since : ℕ → Option ℕ

/-- The start of a run. -/
def SharedSession.start (w : σ) (policyState : ρ) : SharedSession σ ρ :=
  ⟨.initial policyState, w, fun _ => none, fun _ => none, fun _ => none⟩

/-- A step of a read, of an open or of a release, or a change of the files by other clients. An
open finds the modification time of a version, which is not newer than the current one. -/
inductive SharedAction (σ : Type) where
  | start (thread : ℕ) (path : PathName) (size offset : ℕ) (fi : FuseFileInfo)
  | advance (thread : ℕ) (env : Env)
  | find (opener : ℕ) (path : PathName) (k : ℕ)
  | record (opener : ℕ)
  | release (path : PathName)
  | change (w : σ)

variable (config : DataCacheConfig) (policy : EvictionPolicy Key ρ) (timeline : Timeline σ)

/-- One step of a run. -/
def SharedSession.step (s : SharedSession σ ρ) : SharedAction σ → Option (SharedSession σ ρ)
  | .start thread path size offset fi =>
    (s.threads.step config policy (.start thread path size offset fi)).map fun threads =>
      { s with threads, since := Function.update s.since thread (s.openedAt path) }
  | .advance thread env =>
    (s.threads.step config policy (.advance thread env)).map fun threads => { s with threads }
  | .find opener path k =>
    if s.found opener = none ∧ k ≤ timeline.current s.world path then
      some { s with found := Function.update s.found opener (some (path, k)) }
    else none
  | .record opener =>
    match s.found opener with
    | none => none
    | some (path, k) =>
      (s.threads.step config policy (.opened path (timeline.version path k).mtime)).map
        fun threads => { s with
          threads
          found := Function.update s.found opener none
          openedAt := Function.update s.openedAt path (some k) }
  | .release path =>
    (s.threads.step config policy (.released path)).map fun threads =>
      { s with threads, openedAt := Function.update s.openedAt path none }
  | .change w => some { s with world := w }

/-- The read that a thread is in, if it uses the cache. -/
def Pc.reading : Pc → Option Reading
  | .idle | .bypassing _ _ _ _ => none
  | .looking r | .refreshing r _ | .copying r _ | .touching r _ | .failed r _ _ | .removing r _ _
  | .dropping r _ _ | .sizing r _ | .evicting r _ | .discarding r _ _ | .fetching r _
  | .emplacing r _ _ _ | .counting r _ => some r

/-- Where a request ends in a version: at its own end or at that of the file. -/
def Version.ends (v : Version) (size offset : ℕ) : ℕ := min v.content.length (offset + size)

/-- The versions that a read can see from version `k` on end its request at the same place. -/
def Reading.Steady (w : σ) (k : ℕ) (r : Reading) : Prop :=
  ∀ j, k ≤ j → j ≤ timeline.current w r.path →
    (timeline.version r.path j).ends r.size r.offset = (timeline.version r.path k).ends r.size r.offset

/-- The read of the layer below by which the next step of a thread fetches a block. -/
def Threads.fetches (s : Threads ρ) (thread : ℕ) : Option (PathName × ℕ × ℕ) :=
  match s.pcs thread with
  | .refreshing r key => (s.cache.cache.lookup key).map fun b => (r.path, config.blockSize, b.offset)
  | .fetching r key => some (r.path, config.blockSize, key.2 * config.blockSize)
  | _ => none

/-- The version is not older than what any read of the path that is under way goes by, and not
newer than the current one. -/
structure SharedSession.Serves (s : SharedSession σ ρ) (path : PathName) (j : ℕ) : Prop where
  since : ∀ i r k, (s.threads.pcs i).reading = some r → r.path = path → s.since i = some k → k ≤ j
  current : j ≤ timeline.current s.world path

/-- What a run is promised. Other clients only advance files, the fetch of a block fails or is
exact on a version not older than what the reads under way go by, and each request lies within
the file or ends with it, at the same place in all versions that its read can see. -/
def SharedSession.Allowed (s : SharedSession σ ρ) : SharedAction σ → Prop
  | .start _ path _ offset _ => ∀ k, s.openedAt path = some k →
      offset ≤ (timeline.version path k).content.length
  | .advance thread env =>
    (∀ path size offset, s.threads.fetches config thread = some (path, size, offset) →
      ∃ j, s.Serves timeline path j ∧
        ReplyOf (timeline.version path j).content size offset env.reply) ∧
    ∀ r k, (s.threads.pcs thread).reading = some r → s.since thread = some k →
      r.Steady timeline s.world k
  | .change w => timeline.Advances s.world w
  | _ => True

/-- No failed fetch is disturbed. -/
def SharedSession.Undisturbed (s : SharedSession σ ρ) : SharedAction σ → Prop
  | .advance thread env => DataCache.Undisturbed config s.threads (.advance thread env)
  | _ => True

/-- Every fetch of a block succeeds. -/
def SharedSession.Succeeds (s : SharedSession σ ρ) : SharedAction σ → Prop
  | .advance thread env => s.threads.fetches config thread ≠ none → 0 ≤ env.reply.1
  | _ => True

/-- The block holds its slice of a version not older than `k`. -/
def HoldsSince (w : σ) (key : Key) (k : ℕ) (b : Block) : Prop :=
  ∃ j, k ≤ j ∧ j ≤ timeline.current w key.1 ∧
    b.Holds config.blockSize key.2 (timeline.version key.1 j).content

/-- A read that goes by the modification time of version `k`: every byte it has copied comes from
that version or a later one, and it is not behind the end of its request. -/
structure Reading.Since (w : σ) (k : ℕ) (r : Reading) : Prop where
  mtime : r.mtime = (timeline.version r.path k).mtime
  past : k ≤ timeline.current w r.path
  out : FromVersions timeline r.path k (timeline.current w r.path) r.offset r.out
  position : r.seeker ≤ (timeline.version r.path k).ends r.size r.offset

/-- The read is at a block, with bytes still missing. -/
structure Reading.Wants (r : Reading) (key : Key) : Prop where
  key : key = r.key config
  blockSize : config.blockSize ≠ 0
  missing : r.out.length ≠ r.size

/-- What is known of a thread at its place, and of the version that its read goes by. -/
def Pc.Since (w : σ) (since : Option ℕ) : Pc → Prop
  | .idle => True
  | .bypassing _ _ _ _ => since = none
  | .looking r | .touching r _ | .counting r _ => ∃ k, since = some k ∧ r.Since timeline w k
  | .refreshing r key | .copying r key | .sizing r key | .evicting r key | .discarding r key _
  | .fetching r key => ∃ k, since = some k ∧ r.Since timeline w k ∧ r.Wants config key
  | .failed r _ res | .removing r _ res | .dropping r _ res =>
    res < 0 ∧ ∃ k, since = some k ∧ r.Since timeline w k
  | .emplacing r key newBuf blockSize =>
    ∃ k, since = some k ∧ r.Since timeline w k ∧ r.Wants config key ∧
      ∀ timestamp, HoldsSince config timeline w key k
        ⟨newBuf, blockSize, key.2 * config.blockSize, timestamp, r.mtime⟩

/-- The invariant of a run. -/
structure SharedInvariant (s : SharedSession σ ρ) : Prop where
  shape : ∀ key b, s.threads.cache.cache.lookup key = some b →
    b.offset = key.2 * config.blockSize ∧ b.buf.length = config.blockSize
  labelled : ∀ key b, s.threads.cache.cache.lookup key = some b →
    Labelled config timeline s.world key b ∨ ∃ thread, (s.threads.pcs thread).removes = some key
  copying : ∀ thread key k b, (s.threads.pcs thread).copies = some key → s.since thread = some k →
    s.threads.cache.cache.lookup key = some b → HoldsSince config timeline s.world key k b
  pcs : ∀ thread, (s.threads.pcs thread).Since config timeline s.world (s.since thread)
  mtimes : ∀ p, s.threads.cache.mtimes.lookup p =
    (s.openedAt p).map fun k => (timeline.version p k).mtime
  past : ∀ p k, s.openedAt p = some k → k ≤ timeline.current s.world p
  found : ∀ opener p k, s.found opener = some (p, k) → k ≤ timeline.current s.world p

/-- The answer to a read that goes by version `k` is the whole request, each byte of it from that
version or a later one. -/
def Returned.Since (w : σ) (k : ℕ) (e : Returned) : Prop :=
  ∃ out, e.outcome = .ret (toInt out.length) out ∧
    e.offset + out.length = (timeline.version e.path k).ends e.size e.offset ∧
    FromVersions timeline e.path k (timeline.current w e.path) e.offset out

/-- The answer is the error of a fetch that fails in this step, or failed before. -/
def SharedSession.Fails (s : SharedSession σ ρ) (thread : ℕ) (env : Env) (e : Returned) : Prop :=
  ∃ res out, e.outcome = .ret res out ∧ res < 0 ∧
    ((s.threads.fetches config thread ≠ none ∧ env.reply.1 = res) ∨
      ∃ r key, s.threads.pcs thread = .dropping r key res)

variable {config policy timeline} {s t : SharedSession σ ρ} {w w' : σ}

section Advance

/-- Bytes of a range of versions are bytes of a wider range. -/
theorem FromVersions.mono {path : PathName} {first last last' offset : ℕ} {out : Bytes}
    (h : FromVersions timeline path first last offset out) (hle : last ≤ last') :
    FromVersions timeline path first last' offset out := by
  intro i hi
  obtain ⟨j, hfirst, hlast, hbyte⟩ := h i hi
  exact ⟨j, hfirst, Nat.le_trans hlast hle, hbyte⟩

theorem HoldsSince.advance {key : Key} {k : ℕ} {b : Block}
    (h : HoldsSince config timeline w key k b) (hadvances : timeline.Advances w w') :
    HoldsSince config timeline w' key k b := by
  obtain ⟨j, hfirst, hlast, hholds⟩ := h
  exact ⟨j, hfirst, Nat.le_trans hlast (hadvances key.1), hholds⟩

theorem Reading.Since.advance {r : Reading} {k : ℕ} (h : r.Since timeline w k)
    (hadvances : timeline.Advances w w') : r.Since timeline w' k where
  mtime := h.mtime
  past := Nat.le_trans h.past (hadvances r.path)
  out := h.out.mono (hadvances r.path)
  position := h.position

/-- What is known of a thread stays right when files advance. -/
theorem Pc.Since.advance {pc : Pc} {since : Option ℕ} (h : pc.Since config timeline w since)
    (hadvances : timeline.Advances w w') : pc.Since config timeline w' since := by
  cases pc with
  | idle => trivial
  | bypassing => exact h
  | looking | touching | counting =>
    obtain ⟨k, hk, hr⟩ := h
    exact ⟨k, hk, hr.advance hadvances⟩
  | refreshing | copying | sizing | evicting | discarding | fetching =>
    obtain ⟨k, hk, hr, hwants⟩ := h
    exact ⟨k, hk, hr.advance hadvances, hwants⟩
  | failed | removing | dropping =>
    obtain ⟨hres, k, hk, hr⟩ := h
    exact ⟨hres, k, hk, hr.advance hadvances⟩
  | emplacing =>
    obtain ⟨k, hk, hr, hwants, hnew⟩ := h
    exact ⟨k, hk, hr.advance hadvances, hwants, fun timestamp => (hnew timestamp).advance hadvances⟩

/-- The invariant stays when only the files advance. -/
theorem SharedInvariant.advance (h : SharedInvariant config timeline s)
    (hadvances : timeline.Advances s.world w) :
    SharedInvariant config timeline { s with world := w } where
  shape := h.shape
  labelled key b hb := (h.labelled key b hb).imp_left (Labelled.advance hadvances)
  copying thread key k b hkey hk hb := (h.copying thread key k b hkey hk hb).advance hadvances
  pcs thread := (h.pcs thread).advance hadvances
  mtimes := h.mtimes
  past p k hk := Nat.le_trans (h.past p k hk) (hadvances p)
  found opener p k hk := Nat.le_trans (h.found opener p k hk) (hadvances p)

end Advance

section Move

variable {u : Threads ρ} {thread : ℕ} {pc : Pc}

/-- A block that a thread leaves changed or new in the cache when it moves to a place. -/
structure SharedSession.Places (config : DataCacheConfig) (timeline : Timeline σ)
    (s : SharedSession σ ρ) (thread : ℕ) (pc : Pc) (key : Key) (b : Block) : Prop where
  shape : b.offset = key.2 * config.blockSize ∧ b.buf.length = config.blockSize
  labelled : Labelled config timeline s.world key b ∨ pc.removes = some key
  copying : ∀ other k, other ≠ thread → (s.threads.pcs other).copies = some key →
    s.since other = some k → HoldsSince config timeline s.world key k b

/-- A thread moves to a place that suits it. A block stays as it was, and its removal under way,
or is placed by the thread. -/
theorem SharedInvariant.move (h : SharedInvariant config timeline s)
    (hpcs : u.pcs = s.threads.pcs) (hmtimes : u.cache.mtimes = s.threads.cache.mtimes)
    (hblocks : ∀ key b, u.cache.cache.lookup key = some b →
      (s.threads.cache.cache.lookup key = some b ∧
        ((s.threads.pcs thread).removes = some key → pc.removes = some key)) ∨
      s.Places config timeline thread pc key b)
    (hpc : pc.Since config timeline s.world (s.since thread))
    (hcopies : ∀ key k b, pc.copies = some key → s.since thread = some k →
      u.cache.cache.lookup key = some b → HoldsSince config timeline s.world key k b) :
    SharedInvariant config timeline { s with threads := u.goto thread pc } where
  shape key b hb := by
    rcases hblocks key b hb with ⟨hold, -⟩ | hnew
    · exact h.shape key b hold
    · exact hnew.shape
  labelled key b hb := by
    rcases hblocks key b hb with ⟨hold, hremoves⟩ | hnew
    · refine (h.labelled key b hold).imp_right ?_
      rintro ⟨other, hother⟩
      refine ⟨other, ?_⟩
      by_cases heq : other = thread
      · subst heq
        dsimp only
        rw [goto_self]
        exact hremoves hother
      · dsimp only
        rwa [goto_of_ne _ _ _ heq, hpcs]
    · refine hnew.labelled.imp_right fun hremoves => ⟨thread, ?_⟩
      dsimp only
      rwa [goto_self]
  copying other key k b hkey hk hb := by
    by_cases heq : other = thread
    · subst heq
      dsimp only at hkey
      rw [goto_self] at hkey
      exact hcopies key k b hkey hk hb
    · dsimp only at hkey
      rw [goto_of_ne _ _ _ heq, hpcs] at hkey
      rcases hblocks key b hb with ⟨hold, -⟩ | hnew
      · exact h.copying other key k b hkey hk hold
      · exact hnew.copying other k heq hkey hk
  pcs other := by
    refine forall_goto u thread pc
      (P := fun i pc => pc.Since config timeline s.world (s.since i)) hpc (fun i _ => ?_) other
    rw [hpcs]
    exact h.pcs i
  mtimes p := by
    change u.cache.mtimes.lookup p = _
    rw [hmtimes]
    exact h.mtimes p
  past := h.past
  found := h.found

/-- A move that leaves the blocks as they are, and the removal of a block under way. -/
theorem SharedInvariant.goto (h : SharedInvariant config timeline s)
    (hpcs : u.pcs = s.threads.pcs) (hcache : u.cache.cache = s.threads.cache.cache)
    (hmtimes : u.cache.mtimes = s.threads.cache.mtimes)
    (hpc : pc.Since config timeline s.world (s.since thread)) (hcopies : pc.copies = none)
    (hremoves : ∀ key, (s.threads.pcs thread).removes = some key → pc.removes = some key) :
    SharedInvariant config timeline { s with threads := u.goto thread pc } := by
  refine h.move hpcs hmtimes (fun key b hb => Or.inl ⟨hcache ▸ hb, hremoves key⟩) hpc ?_
  intro key k b hkey
  rw [hcopies] at hkey
  cases hkey

/-- What is known of a thread at its place. -/
theorem SharedInvariant.at (h : SharedInvariant config timeline s)
    (hpc : s.threads.pcs thread = pc) : pc.Since config timeline s.world (s.since thread) :=
  hpc ▸ h.pcs thread

/-- A block whose label is the version that a read goes by holds its slice since that version. -/
theorem Labelled.holdsSince
    (hdistinct : timeline.Distinct) {key : Key} {b : Block} {k : ℕ} (h : Labelled config timeline w key b)
    (hlabel : b.mtime = (timeline.version key.1 k).mtime) : HoldsSince config timeline w key k b := by
  obtain ⟨i, j, hij, hj, hi, hholds⟩ := h
  have hik : i = k := hdistinct key.1 i k (hi.trans hlabel)
  exact ⟨j, hik ▸ hij, hj, hholds⟩

/-- A block that a read has fetched, with the modification time it goes by, is labelled rightly. -/
theorem Reading.Since.labelled {r : Reading} {k : ℕ} {key : Key} {b : Block}
    (hr : r.Since timeline w k) (hkey : key.1 = r.path) (hmtime : b.mtime = r.mtime)
    (hholds : HoldsSince config timeline w key k b) : Labelled config timeline w key b := by
  obtain ⟨j, hfirst, hlast, hslice⟩ := hholds
  refine ⟨k, j, hfirst, hlast, ?_, hslice⟩
  rw [hmtime, hr.mtime, hkey]

end Move

section Copy

variable {r : Reading} {key : Key} {k j : ℕ} {b : Block}

theorem Reading.Wants.path (h : r.Wants config key) : key.1 = r.path := by
  rw [h.key]
  rfl

/-- A request ends no later than the version. -/
theorem Version.ends_le (v : Version) (size offset : ℕ) :
    v.ends size offset ≤ v.content.length ∧ v.ends size offset ≤ offset + size :=
  ⟨Nat.min_le_left _ _, Nat.min_le_right _ _⟩

/-- In a block from a version that the read can see, the position is not behind the bytes, and at
the end of the bytes only if the request ends there. -/
theorem Reading.Since.position_in (hr : r.Since timeline w k) (hwants : r.Wants config key)
    (hsteady : r.Steady timeline w k) (hfirst : k ≤ j) (hlast : j ≤ timeline.current w r.path)
    (hholds : b.Holds config.blockSize key.2 (timeline.version r.path j).content) :
    b.offset ≤ r.seeker ∧ r.seeker - b.offset ≤ b.size ∧
      (r.seeker - b.offset = b.size →
        r.seeker = (timeline.version r.path k).ends r.size r.offset) ∧
      b.offset + b.size ≤ (timeline.version r.path j).content.length := by
  have hpos : 0 < config.blockSize := Nat.pos_of_ne_zero hwants.blockSize
  obtain ⟨hle, hlt⟩ := position_in_block hpos r.seeker
  have hoffset : b.offset = r.seeker / config.blockSize * config.blockSize := by
    rw [hholds.offset, hwants.key]
    rfl
  have hsize := hholds.size
  rw [length_pread, ← hholds.offset] at hsize
  have hends := hsteady j hfirst hlast
  have hposition := hr.position
  obtain ⟨hfile, -⟩ := (timeline.version r.path j).ends_le r.size r.offset
  rw [← hoffset] at hle hlt
  omega

/-- A read that has come to the end of its request. -/
theorem Reading.Since.answer (hr : r.Since timeline w k)
    (hend : r.seeker = (timeline.version r.path k).ends r.size r.offset) :
    (⟨r.path, r.size, r.offset, .ret (toInt r.out.length) r.out⟩ : Returned).Since timeline w k :=
  ⟨_, rfl, hend, hr.out⟩

/-- What the copy from such a block makes of a read: the end of the request, or more bytes. -/
theorem Reading.Since.copied (hr : r.Since timeline w k) (hwants : r.Wants config key)
    (hsteady : r.Steady timeline w k) (hholds : HoldsSince config timeline w key k b) :
    (r.nBytesToCopy b = 0 → r.seeker = (timeline.version r.path k).ends r.size r.offset) ∧
      r.seeker - b.offset + r.nBytesToCopy b ≤ b.buf.length ∧
      { r with out := r.out ++ (⟨key, b, r.seeker, r.nBytesToCopy b⟩ : Copy).bytes }.Since timeline
        w k := by
  obtain ⟨j, hfirst, hlast, hslice⟩ := hholds
  rw [hwants.path] at hlast hslice
  obtain ⟨hoffset, hinside, hend, hfile⟩ := hr.position_in hwants hsteady hfirst hlast hslice
  have hposition := hr.position
  obtain ⟨-, hrequest⟩ := (timeline.version r.path k).ends_le r.size r.offset
  have hseeker : r.seeker = r.offset + r.out.length := rfl
  have hmissing := hwants.missing
  have hlength := hslice.length
  have hsize := hslice.size_le
  have hn : r.nBytesToCopy b = min (r.size - r.out.length) (b.size - (r.seeker - b.offset)) := by
    rw [Reading.nBytesToCopy, sizeSub_of_le (by omega), sizeSub_of_le hinside]
  refine ⟨fun hzero => hend (by omega), by omega, ⟨hr.mtime, hr.past, ?_, ?_⟩⟩
  · have hwithin : r.seeker - b.offset + r.nBytesToCopy b ≤ b.size := by omega
    have hbytes := hslice.copy hwithin
    rw [← hslice.offset, Nat.add_sub_cancel' hoffset] at hbytes
    dsimp only [Copy.bytes]
    rw [hbytes, hseeker]
    exact hr.out.append hfirst hlast
  · have hends := hsteady j hfirst hlast
    have hcopied : (⟨key, b, r.seeker, r.nBytesToCopy b⟩ : Copy).bytes.length = r.nBytesToCopy b := by
      rw [Copy.bytes, List.length_take, List.length_drop]
      dsimp only
      omega
    change r.offset + (r.out ++ _).length ≤ (timeline.version r.path k).ends r.size r.offset
    rw [List.length_append, hcopied, ← hends]
    unfold Version.ends
    omega

/-- A copy from a block that holds its slice since the version of the read. -/
theorem SharedInvariant.copy (h : SharedInvariant config timeline s) {u : Threads ρ} {thread : ℕ}
    {pc : Pc} (hpc : s.threads.pcs thread = pc) (hnone : pc.removes = none)
    (hpcs : u.pcs = s.threads.pcs) (hcache : u.cache = s.threads.cache)
    (hsince : s.since thread = some k) (hr : r.Since timeline s.world k)
    (hwants : r.Wants config key) (hsteady : r.Steady timeline s.world k)
    (hholds : HoldsSince config timeline s.world key k b) :
    SharedInvariant config timeline { s with threads := u.copy thread r key b } := by
  obtain ⟨-, hinside, hnext⟩ := hr.copied hwants hsteady hholds
  have hremoves : ∀ {pc' : Pc}, ∀ key', (s.threads.pcs thread).removes = some key' →
      pc'.removes = some key' := by
    intro pc' key' hkey'
    rw [hpc, hnone] at hkey'
    cases hkey'
  unfold Threads.copy
  dsimp only
  split_ifs
  · exact h.goto hpcs (congrArg Cache.cache hcache) (congrArg Cache.mtimes hcache) trivial rfl hremoves
  · exact h.goto hpcs (congrArg Cache.cache hcache) (congrArg Cache.mtimes hcache)
      ⟨k, hsince, hnext⟩ rfl hremoves

/-- What a copy answers, if it ends the read. -/
theorem Reading.Since.copy_answer {u : Threads ρ} {thread : ℕ} (hr : r.Since timeline w k)
    (hwants : r.Wants config key) (hsteady : r.Steady timeline w k)
    (hholds : HoldsSince config timeline w key k b) {e : Returned}
    (hreturned : (u.copy thread r key b).returned = e :: u.returned) : e.Since timeline w k := by
  obtain ⟨hend, hinside, -⟩ := hr.copied hwants hsteady hholds
  unfold Threads.copy at hreturned
  dsimp only at hreturned
  split_ifs at hreturned with hzero
  · obtain ⟨rfl, -⟩ := List.cons.inj hreturned
    exact hr.answer (hend hzero)
  · exact absurd hreturned.symm (List.cons_ne_self e u.returned)

end Copy

end RSafeFS.DataCache
