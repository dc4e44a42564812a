import RSafeFS.DataCache.Transparency

/-!
# Modifications behind the data cache

`write`, `truncate` and `ftruncate` are not hooked by the data cache, so a modification
leaves the cached blocks as they are. A run notes the blocks whose bytes a modification
changed while they were cached. A read that uses none of them delivers the bytes of the
file as it is at that moment.
-/

namespace RSafeFS.DataCache

open ByteFile

/-- One client above the cache, with the blocks that a modification has outdated. -/
structure Client (σ ρ : Type) where
  cache : Cache ρ
  world : σ
  outdated : List (Key × Block)

variable {σ ρ : Type}

/-- The start of a run. -/
def Client.start (w : σ) (policyState : ρ) : Client σ ρ := ⟨.empty policyState, w, []⟩

/-- The cached blocks whose slice differs between two states of the files. -/
def outdatedBy (config : DataCacheConfig) (old new : PathName → Bytes) (c : Cache ρ) :
    List (Key × Block) :=
  (c.cache.entries.filter fun ⟨key, _⟩ =>
    pread (old key.1) config.blockSize (key.2 * config.blockSize) ≠
      pread (new key.1) config.blockSize (key.2 * config.blockSize)).map fun ⟨key, b⟩ => (key, b)

variable (config : DataCacheConfig) (policy : EvictionPolicy Key ρ) (lower : FileLayer σ)
  (content : σ → PathName → Bytes)

/-- One request of the client through the hooks of the layer. -/
def Client.step (s : Client σ ρ) : ClientAction → Option (Client σ ρ)
  | .open path fi =>
    let (_, c, w) := s.cache.open lower.toReadLayer path fi s.world
    some { s with cache := c, world := w }
  | .read path size offset fi clock =>
    match s.cache.read config policy lower.toReadLayer path size offset fi clock s.world with
    | some (.ret _ _, c) => some { s with cache := c }
    | _ => none
  | .release path fi =>
    let (_, c, w) := s.cache.release lower.toReadLayer path fi s.world
    some { s with cache := c, world := w }
  | .modify m =>
    let (_, w) := lower.modify m s.world
    some { s with
      world := w
      outdated := outdatedBy config (content s.world) (content w) s.cache ++ s.outdated }

/-- No block of the requested range that carries the modification time recorded for
the path is outdated. -/
def Client.UpToDate (s : Client σ ρ) (path : PathName) (size offset : ℕ) : Prop :=
  ∀ id b, id * config.blockSize < offset + size → offset < (id + 1) * config.blockSize →
    s.cache.cache.lookup (path, id) = some b → s.cache.mtimes.lookup path = some b.mtime →
    ((path, id), b) ∉ s.outdated

/-- A block has the shape of a block, and holds its slice unless it is outdated. -/
def HoldsUnlessOutdated (s : Client σ ρ) (key : Key) (b : Block) : Prop :=
  (b.offset = key.2 * config.blockSize ∧ b.buf.length = config.blockSize) ∧
    ((key, b) ∉ s.outdated → b.Holds config.blockSize key.2 (content s.world key.1))

variable {config policy lower content} {s t : Client σ ρ}

/-- What a block that is not outdated by a modification holds stays right. -/
theorem holds_of_not_outdatedBy {old new : PathName → Bytes} {c : Cache ρ} {key : Key} {b : Block}
    (hb : c.cache.lookup key = some b) (hnot : (key, b) ∉ outdatedBy config old new c)
    (hholds : b.Holds config.blockSize key.2 (old key.1)) :
    b.Holds config.blockSize key.2 (new key.1) := by
  have hsame : pread (old key.1) config.blockSize (key.2 * config.blockSize) =
      pread (new key.1) config.blockSize (key.2 * config.blockSize) := by
    by_contra hne
    apply hnot
    refine List.mem_map.mpr ⟨⟨key, b⟩, List.mem_filter.mpr ⟨?_, decide_eq_true hne⟩, rfl⟩
    exact AList.mem_lookup_iff.mp hb
  exact ⟨hholds.offset, hholds.length, hsame ▸ hholds.size, hsame ▸ hholds.bytes⟩

/-- Every request keeps the blocks that are not outdated right. -/
theorem holdsUnlessOutdated_step (hshows : lower.Shows content) {a : ClientAction}
    (hall : AllBlocks (HoldsUnlessOutdated config content s) s.cache)
    (hstep : s.step config policy lower content a = some t) :
    AllBlocks (HoldsUnlessOutdated config content t) t.cache := by
  cases a with
  | «open» path fi =>
    simp only [Client.step, Option.some.injEq] at hstep
    subst hstep
    intro key b hb
    rw [open_cache] at hb
    obtain ⟨hshape, hholds⟩ := hall key b hb
    refine ⟨hshape, fun hnot => ?_⟩
    dsimp only
    rw [open_world, hshows.open path fi s.world]
    exact hholds hnot
  | read path size offset fi clock =>
    simp only [Client.step] at hstep
    split at hstep
    · next res buf c hread =>
      obtain rfl := Option.some.inj hstep
      exact (read_preserves (hshows.read path s.world) (fun id b hb => hb.1)
        (fun id b hholds _ _ => ⟨⟨hholds.offset, hholds.length⟩, fun _ => hholds⟩) hall
        hread).1
    · cases hstep
  | release path fi =>
    obtain rfl := Option.some.inj hstep
    intro key b hb
    obtain ⟨hshape, hholds⟩ := hall key b hb
    exact ⟨hshape, fun hnot => (hshows.release path fi s.world) ▸ hholds hnot⟩
  | modify m =>
    obtain rfl := Option.some.inj hstep
    intro key b hb
    obtain ⟨hshape, hholds⟩ := hall key b hb
    refine ⟨hshape, fun hnot => ?_⟩
    dsimp only at hnot
    rw [List.mem_append, not_or] at hnot
    exact holds_of_not_outdatedBy hb hnot.1 (hholds hnot.2)

/-- In every reachable state the blocks that are not outdated are right. -/
theorem holdsUnlessOutdated_run (hshows : lower.Shows content) {w : σ} {policyState : ρ} {actions : List ClientAction}
    (hrun : Transition.run (Client.step config policy lower content)
      (Client.start w policyState) actions = some s) :
    AllBlocks (HoldsUnlessOutdated config content s) s.cache := by
  refine Transition.invariant_of_forall
    (I := fun s => AllBlocks (HoldsUnlessOutdated config content s) s.cache)
    (fun s a t hall hstep => holdsUnlessOutdated_step hshows hall hstep) hrun ?_
  intro key b hb
  simp [Client.start, Cache.empty] at hb

/-- A read inside the file that uses no outdated block delivers the bytes of the file
at that moment. -/
theorem read_upToDate (hshows : lower.Shows content) (hbs : 0 < config.blockSize) {w : σ}
    {policyState : ρ} {actions : List ClientAction}
    (hrun : Transition.run (Client.step config policy lower content)
      (Client.start w policyState) actions = some s)
    {path : PathName} {size offset : ℕ} (hoffset : offset ≤ (content s.world path).length)
    (hupToDate : s.UpToDate config path size offset) (fi : FuseFileInfo) (clock : ℕ → ℤ × ℤ) :
    ∃ res c, s.cache.read config policy lower.toReadLayer path size offset fi clock s.world =
        some (.ret res (lower.read path size offset fi s.world).2, c) ∧
      (size ≤ 2 ^ 31 - 1 → res = (lower.read path size offset fi s.world).1) := by
  have hall := holdsUnlessOutdated_run hshows hrun
  rw [hshows.read path s.world size offset fi]
  cases hmtime : s.cache.mtimes.lookup path with
  | none =>
    refine ⟨_, s.cache, ?_, fun _ => rfl⟩
    simp only [Cache.read, hmtime, hshows.read path s.world size offset fi]
  | some mtime =>
    -- A usable block of the range was cached before, and then it is not outdated, or
    -- it is fetched during the read.
    have hblocks : AllBlocks (fun key b => HoldsUnlessOutdated config content s key b ∧
        (key.1 = path → key.2 * config.blockSize < offset + size →
          offset < (key.2 + 1) * config.blockSize → b.mtime = mtime →
          b.Holds config.blockSize key.2 (content s.world path))) s.cache := by
      rintro ⟨p, id⟩ b hb
      refine ⟨hall _ _ hb, ?_⟩
      rintro rfl hbelow habove hlabel
      exact (hall _ _ hb).2 (hupToDate id b hbelow habove hb (hlabel ▸ hmtime))
    obtain ⟨c, hread⟩ := read_snapshot policy size fi clock (hshows.read path s.world)
      (fun id b hb => hb.1.1)
      (fun id b hholds _ _ =>
        ⟨⟨⟨hholds.offset, hholds.length⟩, fun _ => hholds⟩, fun _ _ _ _ => hholds⟩)
      (fun id b hbelow habove hb hlabel => hb.2 rfl hbelow habove hlabel) hbs hoffset hblocks
      hmtime
    refine ⟨_, c, hread, fun hsize => toInt_of_le ?_⟩
    rw [length_pread]
    omega

end RSafeFS.DataCache
