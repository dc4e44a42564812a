import RSafeFS.DataCache.ReadLoop
import RSafeFS.Lib.Transition

/-!
# Reads over a layer below that changes

While a `read` of the cache is under way other clients may change the file, so that the layer
below answers every iteration as it likes. The calls of this file have a layer below for each
iteration, and a run is any sequence of them. An iteration can only do to the cache what the
lemmas of `ReadLoop` say, and what it keeps is kept by every run.
-/

namespace RSafeFS.DataCache

variable {σ ρ : Type}

/-- The loop of `cache::read`, over a layer below for each iteration. -/
abbrev iterations (config : DataCacheConfig) (policy : EvictionPolicy Key ρ)
    (lower : ℕ → ReadLayer σ) (path : PathName) (size offset : ℕ) (fi : FuseFileInfo) (w : σ)
    (mtime : Timespec) (clock : ℕ → ℤ × ℤ) : ℕ → ReadState ρ → ReadStep ρ :=
  fun i => readBody config policy (lower i) path size offset fi w mtime (clock i)

/-- `cache::read`, over a layer below for each iteration. -/
def Cache.readOver (config : DataCacheConfig) (policy : EvictionPolicy Key ρ)
    (lower : ℕ → ReadLayer σ) (path : PathName) (size offset : ℕ) (fi : FuseFileInfo)
    (clock : ℕ → ℤ × ℤ) (c : Cache ρ) (w : σ) : Option (Outcome × Cache ρ) :=
  match c.mtimes.lookup path with
  | none =>
    let (res, data) := (lower 0).read path size offset fi w
    some (.ret res data, c)
  | some mtime =>
    Loop.run (iterations config policy lower path size offset fi w mtime clock) (2 * size + 2) 0
      (c, [])

/-- A call of the cache, with the layer below and its state. -/
inductive CacheAction (σ : Type) where
  | «open» (lower : ReadLayer σ) (path : PathName) (fi : FuseFileInfo) (w : σ)
  | read (lower : ℕ → ReadLayer σ) (path : PathName) (size offset : ℕ) (fi : FuseFileInfo)
      (clock : ℕ → ℤ × ℤ) (w : σ)
  | release (lower : ReadLayer σ) (path : PathName) (fi : FuseFileInfo) (w : σ)

/-- One call. -/
def Cache.step (config : DataCacheConfig) (policy : EvictionPolicy Key ρ) (c : Cache ρ) :
    CacheAction σ → Option (Cache ρ)
  | .open lower path fi w => some (c.open lower path fi w).2.1
  | .read lower path size offset fi clock w =>
    (c.readOver config policy lower path size offset fi clock w).map Prod.snd
  | .release lower path fi w => some (c.release lower path fi w).2.1

/-- The layers below that a `read` of the cache meets are of a kind. -/
def CacheAction.Over (L : ReadLayer σ → Prop) : CacheAction σ → Prop
  | .read lower .. => ∀ i, L (lower i)
  | _ => True

variable {config : DataCacheConfig} {policy : EvictionPolicy Key ρ}

/-- Over a layer below that stays as it is, a call is that of the cache. -/
theorem readOver_const (lower : ReadLayer σ) (path : PathName) (size offset : ℕ)
    (fi : FuseFileInfo) (clock : ℕ → ℤ × ℤ) (c : Cache ρ) (w : σ) :
    c.readOver config policy (fun _ => lower) path size offset fi clock w =
      c.read config policy lower path size offset fi clock w := rfl

/-- What every iteration over a layer below of a kind keeps is kept by every call over such
layers, if it does not depend on the recorded modification times. -/
theorem step_keeps {I : Cache ρ → Prop} {L : ReadLayer σ → Prop}
    (hmtimes : ∀ (c : Cache ρ) mtimes, I c → I { c with mtimes })
    (hbody : ∀ lower path size offset fi w mtime clock c out, L lower → I c →
      (readBody config policy lower path size offset fi w mtime clock (c, out)).Sat
        (fun t => I t.1) (fun r => I r.2))
    {c c' : Cache ρ} {a : CacheAction σ} (hover : a.Over L) (hc : I c)
    (hstep : c.step config policy a = some c') : I c' := by
  cases a with
  | «open» lower path fi w =>
    obtain rfl := Option.some.inj hstep
    unfold Cache.open
    dsimp only
    split
    · exact hc
    · split
      · exact hc
      · exact hmtimes c _ hc
  | read lower path size offset fi clock w =>
    obtain ⟨⟨outcome, c''⟩, hread, rfl⟩ := Option.map_eq_some_iff.mp hstep
    unfold Cache.readOver at hread
    split at hread
    · cases hread
      exact hc
    · next mtime _ =>
      have hloop : ∃ r, Loop.run (iterations config policy lower path size offset fi w mtime clock)
          (2 * size + 2) 0 (c, []) = some r ∧ I r.2 := by
        refine run_readBody_rule (I := fun t => I t.1) (Q := fun r => I r.2) ?_ hc
        rintro i ⟨c₁, out⟩ hc₁ _
        exact hbody (lower i) path size offset fi w mtime (clock i) c₁ out (hover i) hc₁
      obtain ⟨r, hrun, hr⟩ := hloop
      obtain rfl := Option.some.inj (hrun.symm.trans hread)
      exact hr
  | release lower path fi w =>
    obtain rfl := Option.some.inj hstep
    exact hmtimes c _ hc

/-- What every iteration keeps holds in every state of the loop. -/
theorem reaches_keeps {I : Cache ρ → Prop} {lower : ℕ → ReadLayer σ} {path : PathName}
    {size offset : ℕ} {fi : FuseFileInfo} {w : σ} {mtime : Timespec} {clock : ℕ → ℤ × ℤ}
    (hbody : ∀ i c out, I c →
      (readBody config policy (lower i) path size offset fi w mtime (clock i) (c, out)).Sat
        (fun t => I t.1) (fun r => I r.2))
    {i j : ℕ} {s t : ReadState ρ} (hs : I s.1)
    (h : Loop.Reaches (iterations config policy lower path size offset fi w mtime clock) i s j t) :
    I t.1 := by
  refine h.invariant (I := fun s => I s.1) ?_ hs
  rintro i ⟨c, out⟩ t hc hnext
  have hkept := hbody i c out hc
  dsimp only [iterations] at hnext
  rw [hnext] at hkept
  exact hkept

end RSafeFS.DataCache
