import RSafeFS.Cache.EvictionPolicy
import RSafeFS.Config.Layers

/-!
# The metadata cache

`metadata_cache::cache` maps paths to the attributes last fetched for them, with
the time of the fetch. Each of its operations runs under the lock `mtx_`. Times are
readings of `high_resolution_clock` in nanoseconds.
-/

namespace RSafeFS.MetadataCache

/-- `metadata_cache::cache::metadata`. -/
structure Metadata where
  stbuf : Stat
  timestamp : ℤ
  deriving DecidableEq, Repr

/-- `metadata::is_valid`, with the clock reading it makes. The elapsed time is cut
to whole seconds. -/
def Metadata.isValid (m : Metadata) (timeOut now : ℤ) : Bool :=
  if timeOut > 0 then decide ((now - m.timestamp).tdiv 1000000000 < timeOut) else true

/-- `metadata_cache::cache`: the map `cache_` and the state of the eviction policy. -/
structure Cache (ρ : Type) where
  entries : AList fun _ : PathName => Metadata
  policyState : ρ

variable {ρ : Type}

/-- The entry cached for a path. -/
def Cache.lookup (c : Cache ρ) (path : PathName) : Option Metadata := c.entries.lookup path

section Operations

variable (config : MetadataCacheConfig) (policy : EvictionPolicy PathName ρ)

/-- `cache::remove`. -/
def Cache.remove (path : PathName) (c : Cache ρ) : Cache ρ :=
  ⟨c.entries.erase path, policy.remove path c.policyState⟩

/-- The eviction that `cache::put` makes when the map is full. -/
def Cache.makeRoom (c : Cache ρ) : Cache ρ :=
  if config.size ≤ c.entries.keys.length then
    match policy.evict c.policyState with
    | (some selected, state) => ⟨c.entries.erase selected, state⟩
    | (none, state) => ⟨c.entries, state⟩
  else c

/-- `cache::put`. The map's `emplace` keeps an entry that is already there. -/
def Cache.put (path : PathName) (stbuf : Stat) (now : ℤ) (c : Cache ρ) : Cache ρ :=
  let c := c.makeRoom config policy
  let entries := match c.entries.lookup path with
    | some _ => c.entries
    | none => c.entries.insert path ⟨stbuf, now⟩
  ⟨entries, policy.touch path c.policyState⟩

/-- `cache::get`: the attributes on a valid hit. An expired entry is removed. -/
def Cache.get (path : PathName) (now : ℤ) (c : Cache ρ) : Option Stat × Cache ρ :=
  match c.entries.lookup path with
  | none => (none, c)
  | some m =>
    if m.isValid config.timeOut now then
      (some m.stbuf, { c with policyState := policy.touch path c.policyState })
    else (none, c.remove policy path)

end Operations

variable {config : MetadataCacheConfig} {policy : EvictionPolicy PathName ρ}

@[simp] theorem lookup_remove_self (path : PathName) (c : Cache ρ) :
    (c.remove policy path).lookup path = none := AList.lookup_erase path c.entries

theorem lookup_remove_ne {path q : PathName} (h : q ≠ path) (c : Cache ρ) :
    (c.remove policy path).lookup q = c.lookup q := AList.lookup_erase_ne h

/-- Removing a path only loses entries. -/
theorem lookup_of_remove {path q : PathName} {c : Cache ρ} {m : Metadata}
    (h : (c.remove policy path).lookup q = some m) : q ≠ path ∧ c.lookup q = some m := by
  by_cases hq : q = path
  · subst hq
    simp at h
  · exact ⟨hq, (lookup_remove_ne hq c).symm.trans h⟩

/-- Making room only loses entries. -/
theorem lookup_of_makeRoom {q : PathName} {c : Cache ρ} {m : Metadata}
    (h : (c.makeRoom config policy).lookup q = some m) : c.lookup q = some m := by
  unfold Cache.makeRoom at h
  split at h
  · split at h
    · next selected state _ =>
      by_cases hq : q = selected
      · subst hq
        simp [Cache.lookup] at h
      · simpa only [Cache.lookup, AList.lookup_erase_ne hq] using h
    · exact h
  · exact h

/-- An entry found after `put` was there before or is the one just put. -/
theorem lookup_of_put {path q : PathName} {stbuf : Stat} {now : ℤ} {c : Cache ρ} {m : Metadata}
    (h : (c.put config policy path stbuf now).lookup q = some m) :
    c.lookup q = some m ∨ (q = path ∧ m = ⟨stbuf, now⟩) := by
  simp only [Cache.put, Cache.lookup] at h
  cases hpath : (c.makeRoom config policy).entries.lookup path with
  | some m' =>
    rw [hpath] at h
    exact Or.inl (lookup_of_makeRoom h)
  | none =>
    rw [hpath] at h
    by_cases hq : q = path
    · subst hq
      rw [AList.lookup_insert] at h
      exact Or.inr ⟨rfl, (Option.some.inj h).symm⟩
    · rw [AList.lookup_insert_ne hq] at h
      exact Or.inl (lookup_of_makeRoom h)

/-- A hit returns the attributes of a valid entry and keeps every entry. -/
theorem get_hit {path : PathName} {now : ℤ} {c : Cache ρ} {stbuf : Stat}
    (h : (c.get config policy path now).1 = some stbuf) :
    (∃ m, c.lookup path = some m ∧ m.isValid config.timeOut now = true ∧ m.stbuf = stbuf) ∧
      (c.get config policy path now).2.entries = c.entries := by
  unfold Cache.get at h ⊢
  cases hpath : c.entries.lookup path with
  | none => simp [hpath] at h
  | some m =>
    by_cases hvalid : m.isValid config.timeOut now = true
    · simp only [hpath, hvalid, if_true] at h ⊢
      exact ⟨⟨m, hpath, hvalid, Option.some.inj h⟩, trivial⟩
    · simp [hpath, hvalid] at h

/-- Looking a path up only loses entries. -/
theorem lookup_of_get {path q : PathName} {now : ℤ} {c : Cache ρ} {m : Metadata}
    (h : (c.get config policy path now).2.lookup q = some m) : c.lookup q = some m := by
  unfold Cache.get at h
  cases hpath : c.entries.lookup path with
  | none => simpa only [hpath] using h
  | some m' =>
    by_cases hvalid : m'.isValid config.timeOut now = true
    · simp only [hpath, hvalid, if_true] at h
      exact h
    · simp only [hpath, hvalid] at h
      exact (lookup_of_remove h).2

/-- A path with no entry that is valid at the time of the lookup is a miss. -/
theorem get_eq_none_of_invalid {path : PathName} {now : ℤ} {c : Cache ρ}
    (h : ∀ m, c.lookup path = some m → m.isValid config.timeOut now = false) :
    (c.get config policy path now).1 = none := by
  unfold Cache.get
  cases hpath : c.entries.lookup path with
  | none => rfl
  | some m => simp [h m hpath]

/-- A valid entry is a hit. -/
theorem get_eq_some_of_valid {path : PathName} {now : ℤ} {c : Cache ρ} {m : Metadata}
    (hm : c.lookup path = some m) (hvalid : m.isValid config.timeOut now = true) :
    (c.get config policy path now).1 = some m.stbuf := by
  have hm' : c.entries.lookup path = some m := hm
  simp [Cache.get, hm', hvalid]

end RSafeFS.MetadataCache
