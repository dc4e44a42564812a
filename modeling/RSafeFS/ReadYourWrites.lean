import RSafeFS.DataCache.Outdated
import RSafeFS.ReadAhead.Cache

/-!
# Reading one's own writes through the read caches

Both read caches hook `open`, `read` and `release` only. What a client has written is
seen by its reads as far as they do not use a block or a window that the write has
outdated while the cache held it.
-/

namespace RSafeFS

variable {σ : Type}

/-- **Reads reflect modifications.** In every run of one client, a read inside the file
returns the bytes of the file at that moment: through the data cache if it uses no block
that a modification has outdated, and through the read-ahead cache, on a path opened and
not released since, if it uses no window that a modification has outdated. -/
theorem read_reflects_modifications {lower : FileLayer σ} {content : σ → PathName → Bytes}
    (hshows : lower.Shows content) (path : PathName) (size offset : ℕ) (fi : FuseFileInfo)
    (clock : ℕ → ℤ × ℤ) :
    (∀ (ρ : Type) (config : DataCacheConfig) (policy : EvictionPolicy DataCache.Key ρ) (w : σ)
      (policyState : ρ) (actions : List ClientAction) (s : DataCache.Client σ ρ),
      1 ≤ config.blockSize →
      Transition.run (DataCache.Client.step config policy lower content)
        (DataCache.Client.start w policyState) actions = some s →
      offset ≤ (content s.world path).length → s.UpToDate config path size offset →
      ∃ res c, s.cache.read config policy lower.toReadLayer path size offset fi clock s.world =
          some (.ret res (lower.read path size offset fi s.world).2, c) ∧
        (size ≤ 2 ^ 31 - 1 → res = (lower.read path size offset fi s.world).1)) ∧
    (∀ (config : ReadAheadConfig) (w : σ) (actions : List ClientAction) (s : ReadAhead.Client σ),
      Transition.run (ReadAhead.Client.step config lower content) (ReadAhead.Client.start w)
        actions = some s →
      s.cache.buffers.lookup path ≠ none → offset ≤ (content s.world path).length →
      s.UpToDate path size offset →
      ∃ res c, s.cache.read config lower.toReadLayer path size offset fi s.world =
          (.ret res (lower.read path size offset fi s.world).2, c) ∧
        (size ≤ 2 ^ 31 - 1 → res = (lower.read path size offset fi s.world).1)) := by
  constructor
  · intro ρ config policy w policyState actions s hbs hrun hoffset hupToDate
    exact DataCache.read_upToDate hshows hbs hrun hoffset hupToDate fi clock
  · intro config w actions s hrun hopened _ hupToDate
    exact ReadAhead.read_upToDate hshows hrun hopened hupToDate fi

/-- A client reads the start of a file of six bytes and then writes its last byte. -/
def writeElsewhere : List ClientAction :=
  [.open "/f".toList default, .read "/f".toList 2 0 default (fun _ => (0, 0)),
    .modify (.write "/f".toList [9] 5 default)]

/-- A client reads the start of a file and then writes its first byte. -/
def writeSamePlace : List ClientAction :=
  [.open "/f".toList default, .read "/f".toList 2 0 default (fun _ => (0, 0)),
    .modify (.write "/f".toList [9] 0 default)]

/-- With blocks and windows of two bytes, a write elsewhere outdates nothing, and the
whole file is read as it is now. -/
theorem read_reflects_writeElsewhere :
    (∃ s, Transition.run (DataCache.Client.step { blockSize := 2 } lruEviction oneFileLayer
        fun w _ => w) (DataCache.Client.start [1, 2, 3, 4, 5, 6] LruState.empty) writeElsewhere =
          some s ∧
      ∃ res c, s.cache.read { blockSize := 2 } lruEviction oneFileLayer.toReadLayer "/f".toList 6 0
        default (fun _ => (0, 0)) s.world = some (.ret res [1, 2, 3, 4, 5, 9], c)) ∧
    (∃ s, Transition.run (ReadAhead.Client.step { size := 2 } oneFileLayer fun w _ => w)
        (ReadAhead.Client.start [1, 2, 3, 4, 5, 6]) writeElsewhere = some s ∧
      ∃ res c, s.cache.read { size := 2 } oneFileLayer.toReadLayer "/f".toList 6 0 default
        s.world = (.ret res [1, 2, 3, 4, 5, 9], c)) := by
  obtain ⟨hdata, hahead⟩ := read_reflects_modifications oneFileLayer_shows "/f".toList 6 0 default
    fun _ => (0, 0)
  constructor
  · obtain ⟨s, hrun, hworld, houtdated⟩ : ∃ s, Transition.run
        (DataCache.Client.step { blockSize := 2 } lruEviction oneFileLayer fun w _ => w)
        (DataCache.Client.start [1, 2, 3, 4, 5, 6] LruState.empty) writeElsewhere = some s ∧
        s.world = [1, 2, 3, 4, 5, 9] ∧ s.outdated = [] := ⟨_, rfl, rfl, rfl⟩
    obtain ⟨res, c, hread, _⟩ := hdata _ _ _ _ _ _ s (by decide) hrun (Nat.zero_le _)
      fun _ _ _ _ _ _ => by simp [houtdated]
    refine ⟨s, hrun, res, c, hread.trans ?_⟩
    rw [hworld]
    rfl
  · obtain ⟨s, hrun, hworld, hopened, houtdated⟩ : ∃ s, Transition.run
        (ReadAhead.Client.step { size := 2 } oneFileLayer fun w _ => w)
        (ReadAhead.Client.start [1, 2, 3, 4, 5, 6]) writeElsewhere = some s ∧
        s.world = [1, 2, 3, 4, 5, 9] ∧ (s.cache.buffers.lookup "/f".toList).isSome ∧
        s.outdated = [] := ⟨_, rfl, rfl, rfl, rfl⟩
    obtain ⟨res, c, hread, _⟩ := hahead _ _ _ s hrun (Option.isSome_iff_ne_none.mp hopened)
      (Nat.zero_le _) fun _ _ _ => by simp [houtdated]
    refine ⟨s, hrun, res, c, hread.trans ?_⟩
    rw [hworld]
    rfl

/-- After a write to bytes that were read before, both caches still return the old bytes. -/
theorem not_read_reflects :
    (¬ ∀ (σ ρ : Type) (lower : FileLayer σ) (content : σ → PathName → Bytes)
      (config : DataCacheConfig) (policy : EvictionPolicy DataCache.Key ρ) (w : σ)
      (policyState : ρ) (actions : List ClientAction) (s : DataCache.Client σ ρ),
      lower.Shows content → 1 ≤ config.blockSize →
      Transition.run (DataCache.Client.step config policy lower content)
        (DataCache.Client.start w policyState) actions = some s →
      ∀ (path : PathName) (size offset : ℕ) (fi : FuseFileInfo) (clock : ℕ → ℤ × ℤ),
        s.cache.mtimes.lookup path ≠ none → offset ≤ (content s.world path).length →
        ∃ res c, s.cache.read config policy lower.toReadLayer path size offset fi clock s.world =
          some (.ret res (lower.read path size offset fi s.world).2, c)) ∧
    (¬ ∀ (σ : Type) (lower : FileLayer σ) (content : σ → PathName → Bytes)
      (config : ReadAheadConfig) (w : σ) (actions : List ClientAction) (s : ReadAhead.Client σ),
      lower.Shows content →
      Transition.run (ReadAhead.Client.step config lower content) (ReadAhead.Client.start w)
        actions = some s →
      ∀ (path : PathName) (size offset : ℕ) (fi : FuseFileInfo),
        s.cache.buffers.lookup path ≠ none → offset ≤ (content s.world path).length →
        ∃ res c, s.cache.read config lower.toReadLayer path size offset fi s.world =
          (.ret res (lower.read path size offset fi s.world).2, c)) := by
  constructor
  · intro hall
    obtain ⟨s, hrun, hworld, hopened, hold⟩ : ∃ s, Transition.run
        (DataCache.Client.step { blockSize := 2 } lruEviction oneFileLayer fun w _ => w)
        (DataCache.Client.start [1, 2, 3, 4, 5, 6] LruState.empty) writeSamePlace = some s ∧
        s.world = [9, 2, 3, 4, 5, 6] ∧ (s.cache.mtimes.lookup "/f".toList).isSome ∧
        (s.cache.read { blockSize := 2 } lruEviction oneFileLayer.toReadLayer "/f".toList 2 0
          default (fun _ => (0, 0)) s.world).map (fun r => r.1.bytes) = some [1, 2] :=
      ⟨_, rfl, rfl, rfl, by decide⟩
    obtain ⟨res, c, hread⟩ := hall Bytes _ oneFileLayer (fun w _ => w) { blockSize := 2 }
      lruEviction _ _ _ s oneFileLayer_shows (by decide) hrun "/f".toList 2 0 default
      (fun _ => (0, 0)) (Option.isSome_iff_ne_none.mp hopened) (Nat.zero_le _)
    rw [hread, hworld] at hold
    exact absurd (show some ([9, 2] : Bytes) = some [1, 2] from hold) (by decide)
  · intro hall
    obtain ⟨s, hrun, hworld, hopened, hold⟩ : ∃ s, Transition.run
        (ReadAhead.Client.step { size := 2 } oneFileLayer fun w _ => w)
        (ReadAhead.Client.start [1, 2, 3, 4, 5, 6]) writeSamePlace = some s ∧
        s.world = [9, 2, 3, 4, 5, 6] ∧ (s.cache.buffers.lookup "/f".toList).isSome ∧
        (s.cache.read { size := 2 } oneFileLayer.toReadLayer "/f".toList 2 0 default
          s.world).1.bytes = [1, 2] :=
      ⟨_, rfl, rfl, rfl, by decide⟩
    obtain ⟨res, c, hread⟩ := hall Bytes oneFileLayer (fun w _ => w) { size := 2 } _ _ s
      oneFileLayer_shows hrun "/f".toList 2 0 default (Option.isSome_iff_ne_none.mp hopened)
      (Nat.zero_le _)
    rw [hread, hworld] at hold
    exact absurd (show ([9, 2] : Bytes) = [1, 2] from hold) (by decide)

end RSafeFS
