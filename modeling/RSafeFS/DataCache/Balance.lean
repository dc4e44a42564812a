import RSafeFS.DataCache.ReadLoop
import RSafeFS.Lib.Transition

/-!
# Opens and releases below the data cache

`cache::open` opens the file below and then asks for its attributes. If these cannot be had
it returns the error, and its caller, who has got no handle, releases none: the handle below
stays open. The layer below is counted here, and the count says in which runs this happens.
-/

namespace RSafeFS.DataCache

/-- A state below with the number of opens that have succeeded and of releases. -/
structure Counted (σ : Type) where
  world : σ
  opens : ℕ
  releases : ℕ

variable {σ ρ : Type}

/-- A layer below that counts. -/
def counted (lower : ReadLayer σ) : ReadLayer (Counted σ) where
  «open» path fi w :=
    let (res, world) := lower.open path fi w.world
    (res, { w with world, opens := if 0 ≤ res.1 then w.opens + 1 else w.opens })
  getattr path w := lower.getattr path w.world
  read path size offset fi w := lower.read path size offset fi w.world
  release path fi w :=
    let (res, world) := lower.release path fi w.world
    (res, { w with world, releases := w.releases + 1 })

/-- The cache over a counted layer, with the handles that its caller has not yet released. -/
structure Caller (σ ρ : Type) where
  cache : Cache ρ
  below : Counted σ
  handles : List (PathName × FuseFileInfo)

/-- The start of a run. -/
def Caller.start (w : σ) (policyState : ρ) : Caller σ ρ := ⟨.empty policyState, ⟨w, 0, 0⟩, []⟩

/-- The caller opens a path, reads, or releases one of its handles. -/
inductive CallerAction where
  | «open» (path : PathName) (fi : FuseFileInfo)
  | read (path : PathName) (size offset : ℕ) (fi : FuseFileInfo) (clock : ℕ → ℤ × ℤ)
  | release (i : ℕ)

/-- A handle is one of an open that returned no error. -/
def Caller.step (config : DataCacheConfig) (policy : EvictionPolicy Key ρ) (lower : ReadLayer σ)
    (s : Caller σ ρ) : CallerAction → Option (Caller σ ρ)
  | .open path fi =>
    let ((res, fi), cache, below) := s.cache.open (counted lower) path fi s.below
    some ⟨cache, below, if 0 ≤ res then s.handles ++ [(path, fi)] else s.handles⟩
  | .read path size offset fi clock => do
    let (_, cache) ← s.cache.read config policy (counted lower) path size offset fi clock s.below
    return { s with cache }
  | .release i => do
    let (path, fi) ← s.handles[i]?
    let (_, cache, below) := s.cache.release (counted lower) path fi s.below
    return ⟨cache, below, s.handles.eraseIdx i⟩

/-- The file below is opened and its attributes cannot be had. -/
def LosesHandle (lower : ReadLayer σ) (path : PathName) (fi : FuseFileInfo) (w : σ) : Prop :=
  0 ≤ (lower.open path fi w).1.1 ∧ (lower.getattr path (lower.open path fi w).2).1 < 0

/-- The action is an open that loses a handle. -/
def Leaks (lower : ReadLayer σ) (s : Caller σ ρ) : CallerAction → Prop
  | .open path fi => LosesHandle lower path fi s.below.world
  | _ => False

variable {config : DataCacheConfig} {policy : EvictionPolicy Key ρ} {lower : ReadLayer σ}

/-- What an open does: it fails below, loses the handle below, or succeeds. -/
theorem open_cases (lower : ReadLayer σ) (path : PathName) (fi : FuseFileInfo) (c : Cache ρ)
    (w : Counted σ) :
    ∃ res fi' cache below, c.open (counted lower) path fi w = ((res, fi'), cache, below) ∧
      below.releases = w.releases ∧
      (res < 0 ∧ cache = c ∧ below.opens = w.opens ∧ ¬ LosesHandle lower path fi w.world ∨
        res < 0 ∧ cache = c ∧ below.opens = w.opens + 1 ∧ LosesHandle lower path fi w.world ∨
        0 ≤ res ∧ below.opens = w.opens + 1 ∧ ¬ LosesHandle lower path fi w.world) := by
  unfold Cache.open LosesHandle counted
  dsimp only
  by_cases hopen : (lower.open path fi w.world).1.1 < 0
  · rw [if_pos hopen]
    exact ⟨_, _, _, _, rfl, rfl, Or.inl ⟨hopen, rfl, if_neg (Int.not_le.mpr hopen),
      fun h => Int.not_le.mpr hopen h.1⟩⟩
  · have hnonneg : 0 ≤ (lower.open path fi w.world).1.1 := Int.not_lt.mp hopen
    rw [if_neg hopen]
    by_cases hattr : (lower.getattr path (lower.open path fi w.world).2).1 < 0
    · rw [if_pos hattr]
      exact ⟨_, _, _, _, rfl, rfl, Or.inr (Or.inl ⟨hattr, rfl, if_pos hnonneg, hnonneg, hattr⟩)⟩
    · rw [if_neg hattr]
      exact ⟨_, _, _, _, rfl, rfl,
        Or.inr (Or.inr ⟨Int.le_refl 0, if_pos hnonneg, fun h => hattr h.2⟩)⟩

/-- Every handle of the caller is open below. -/
def Caller.Backed (s : Caller σ ρ) : Prop :=
  s.below.releases + s.handles.length ≤ s.below.opens

/-- The handles that are open below and that no one will release. -/
def Caller.lost (s : Caller σ ρ) : ℕ := s.below.opens - (s.below.releases + s.handles.length)

/-- **Step lemma.** A step loses a handle exactly if it is an open that does. -/
theorem lost_step {s t : Caller σ ρ} {a : CallerAction} (h : s.Backed)
    (hstep : s.step config policy lower a = some t) :
    t.Backed ∧ s.lost ≤ t.lost ∧ (t.lost = s.lost ↔ ¬ Leaks lower s a) := by
  unfold Caller.Backed Caller.lost at *
  cases a with
  | «open» path fi =>
    obtain ⟨res, fi', cache, below, hopen, hreleases, hcases⟩ :=
      open_cases lower path fi s.cache s.below
    simp only [Caller.step, hopen] at hstep
    obtain rfl := Option.some.inj hstep
    unfold Leaks
    dsimp only
    rcases hcases with ⟨hneg, -, hopens, hkept⟩ | ⟨hneg, -, hopens, hloses⟩ | ⟨hres, hopens, hkept⟩
    · rw [if_neg (Int.not_le.mpr hneg), hreleases, hopens]
      exact ⟨h, Nat.le_refl _, iff_of_true rfl hkept⟩
    · rw [if_neg (Int.not_le.mpr hneg), hreleases, hopens]
      exact ⟨by omega, by omega, iff_of_false (by omega) (not_not_intro hloses)⟩
    · rw [if_pos hres, hreleases, hopens, List.length_append, List.length_singleton]
      exact ⟨by omega, by omega, iff_of_true (by omega) hkept⟩
  | read path size offset fi clock =>
    simp only [Caller.step, Option.bind_eq_bind, Option.bind_eq_some_iff] at hstep
    obtain ⟨r, -, hr⟩ := hstep
    obtain rfl := Option.some.inj hr
    exact ⟨h, Nat.le_refl _, iff_of_true rfl id⟩
  | release i =>
    simp only [Caller.step, Option.bind_eq_bind, Option.bind_eq_some_iff] at hstep
    obtain ⟨handle, hhandle, hr⟩ := hstep
    obtain rfl := Option.some.inj hr
    obtain ⟨hlt, -⟩ := List.getElem?_eq_some_iff.mp hhandle
    have hlength := List.length_eraseIdx_add_one hlt
    simp only [Cache.release, counted]
    exact ⟨by omega, by omega, iff_of_true (by omega) id⟩

/-- **Opens and releases balance.** In every run, when all handles have been released there
were as many releases below as successful opens, exactly if no open lost its handle. An open
that returns an error leaves the recorded times and what is open below as they are, but for
the handle that it loses if it does. -/
theorem balanced_iff (config : DataCacheConfig) (policy : EvictionPolicy Key ρ)
    (lower : ReadLayer σ) :
    (∀ (w : σ) (policyState : ρ) (actions : List CallerAction) (s : Caller σ ρ),
      Transition.run (Caller.step config policy lower) (Caller.start w policyState) actions =
        some s → s.handles = [] →
      (s.below.opens = s.below.releases ↔
        Transition.Meets (Caller.step config policy lower) (fun s a => ¬ Leaks lower s a)
          (Caller.start w policyState) actions)) ∧
    ∀ (c : Cache ρ) (path : PathName) (fi : FuseFileInfo) (w : Counted σ)
      (res : ℤ) (fi' : FuseFileInfo) (c' : Cache ρ) (w' : Counted σ),
      c.open (counted lower) path fi w = ((res, fi'), c', w') → res < 0 →
      c'.mtimes = c.mtimes ∧ w'.releases = w.releases ∧
        (w'.opens = w.opens ↔ ¬ LosesHandle lower path fi w.world) := by
  refine ⟨fun w policyState actions s hrun hhandles => ?_, ?_⟩
  · have hstart : (Caller.start w policyState : Caller σ ρ).Backed := Nat.le_refl _
    have hbacked : s.Backed := Transition.invariant_of_forall
      (fun _ _ _ h hstep => (lost_step h hstep).1) hrun hstart
    obtain ⟨-, hiff⟩ := Transition.measure_eq_iff_meets
      (fun _ _ _ h hstep => lost_step h hstep) hrun hstart
    rw [← hiff]
    unfold Caller.Backed at hbacked
    rw [hhandles, List.length_nil] at hbacked
    have hlost : s.lost = s.below.opens - s.below.releases := by
      rw [Caller.lost, hhandles, List.length_nil, Nat.add_zero]
    have hzero : (Caller.start w policyState : Caller σ ρ).lost = 0 := rfl
    rw [hlost, hzero]
    omega
  · intro c path fi w res fi' c' w' hopen hneg
    obtain ⟨res, fi', cache, below, hopen', hreleases, hcases⟩ := open_cases lower path fi c w
    obtain ⟨⟨rfl, rfl⟩, rfl, rfl⟩ := by simpa using hopen'.symm.trans hopen
    rcases hcases with ⟨-, hcache, hopens, hkept⟩ | ⟨-, hcache, hopens, hloses⟩ | ⟨hres, -, -⟩
    · exact ⟨congrArg Cache.mtimes hcache, hreleases, iff_of_true hopens hkept⟩
    · exact ⟨congrArg Cache.mtimes hcache, hreleases, iff_of_false (by omega) (not_not_intro hloses)⟩
    · exact absurd hneg (Int.not_lt.mpr hres)

/-- A layer below in which opens succeed, and attributes can be had of `/a` only. -/
def attributesOfA : ReadLayer Unit where
  «open» _ fi w := ((0, fi), w)
  getattr path _ := if path = ['/', 'a'] then (0, default) else (-13, default)
  read _ _ _ _ _ := (0, [])
  release _ _ w := (0, w)

/-- An open of `/b` returns an error and leaves a handle open below that no one has. -/
theorem not_balanced : ∃ s, Transition.run (Caller.step {} lruEviction attributesOfA)
      (Caller.start () LruState.empty) [.open ['/', 'b'] default] = some s ∧
    (Cache.empty (LruState.empty : LruState Key)).open attributesOfA ['/', 'b'] default () =
      ((-13, default), .empty LruState.empty, ()) ∧
    s.handles = [] ∧ s.below.opens = 1 ∧ s.below.releases = 0 :=
  ⟨_, rfl, rfl, rfl, rfl, rfl⟩

/-- Two handles of `/a` are opened and released. -/
theorem balanced_iff_twoHandles : ∃ s, Transition.run (Caller.step {} lruEviction attributesOfA)
      (Caller.start () LruState.empty)
      [.open ['/', 'a'] default, .open ['/', 'a'] default, .release 0, .release 0] = some s ∧
    s.handles = [] ∧ s.below.opens = 2 ∧ s.below.opens = s.below.releases := by
  refine ⟨_, rfl, rfl, rfl, ?_⟩
  refine ((balanced_iff {} lruEviction attributesOfA).1 () LruState.empty
    [.open ['/', 'a'] default, .open ['/', 'a'] default, .release 0, .release 0] _ rfl rfl).mpr ?_
  refine .cons ?_ rfl (.cons ?_ rfl (.cons id rfl (.cons id rfl trivial)))
  · exact fun h => absurd h.2 (by decide)
  · exact fun h => absurd h.2 (by decide)

end RSafeFS.DataCache
