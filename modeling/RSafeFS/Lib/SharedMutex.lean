import Mathlib.Data.Finset.Insert
import Mathlib.Data.Finset.Erase

/-!
# Shared mutexes

A lock that any number of threads hold shared, or one thread exclusively. In a system each
thread is at some place, and its place tells whether it holds the lock. The rules of this file
keep the holders of a lock in agreement with the places, when one thread moves at a time.
-/

/-- A lock with its holders. Nobody shares it while it has an owner. -/
structure SharedMutex (Thread : Type) where
  owner : Option Thread
  sharers : Finset Thread
  exclusive : ∀ i, owner = some i → sharers = ∅

namespace SharedMutex

variable {Thread : Type} {m m' : SharedMutex Thread} {i : Thread}

variable {Place : Type} {shares owns : Place → Prop} {place place' : Thread → Place}

/-- The holders of the lock are the threads whose places say so. -/
structure HeldBy (m : SharedMutex Thread) (shares owns : Place → Prop) (place : Thread → Place) :
    Prop where
  shared : ∀ i, i ∈ m.sharers ↔ shares (place i)
  owned : ∀ i, m.owner = some i ↔ owns (place i)

/-- Nobody shares the lock of an owner. -/
theorem HeldBy.not_shares (h : m.HeldBy shares owns place) (hi : owns (place i)) (j : Thread) :
    ¬ shares (place j) := by
  intro hj
  have hmem := (h.shared j).mpr hj
  rw [m.exclusive i ((h.owned i).mpr hi)] at hmem
  exact Finset.notMem_empty j hmem

/-- There is one owner. -/
theorem HeldBy.unique (h : m.HeldBy shares owns place) {j : Thread} (hi : owns (place i))
    (hj : owns (place j)) : i = j :=
  Option.some.inj (((h.owned i).mpr hi).symm.trans ((h.owned j).mpr hj))

/-- A lock that nobody holds. -/
def free : SharedMutex Thread := ⟨none, ∅, nofun⟩

/-- A lock that nobody holds, where no place holds it. -/
theorem heldBy_free (hshares : ∀ i, ¬ shares (place i)) (howns : ∀ i, ¬ owns (place i)) :
    (free : SharedMutex Thread).HeldBy shares owns place where
  shared i := iff_of_false (Finset.notMem_empty i) (hshares i)
  owned i := iff_of_false nofun (howns i)

variable [DecidableEq Thread]

/-- Take the lock shared, which has to wait for its owner. -/
def lockShared (m : SharedMutex Thread) (i : Thread) : Option (SharedMutex Thread) :=
  if m.owner = none then some ⟨none, insert i m.sharers, nofun⟩ else none

/-- Let a shared lock go. -/
def unlockShared (m : SharedMutex Thread) (i : Thread) : SharedMutex Thread where
  owner := m.owner
  sharers := m.sharers.erase i
  exclusive j hj := by
    rw [m.exclusive j hj]
    exact Finset.erase_eq_of_notMem (Finset.notMem_empty i)

/-- Take the lock exclusively, which has to wait for all its holders. -/
def lock (m : SharedMutex Thread) (i : Thread) : Option (SharedMutex Thread) :=
  if m.owner = none ∧ m.sharers = ∅ then some ⟨some i, ∅, fun _ _ => rfl⟩ else none

/-- Let an exclusive lock go. -/
def unlock (m : SharedMutex Thread) : SharedMutex Thread := ⟨none, m.sharers, nofun⟩

/-- A thread that waits for a shared lock waits for the owner. -/
theorem owner_of_lockShared_eq_none (h : m.lockShared i = none) : ∃ j, m.owner = some j := by
  unfold lockShared at h
  split at h
  · cases h
  · next howner => exact Option.ne_none_iff_exists'.mp howner

/-- A thread that waits for an exclusive lock waits for the owner or for one that shares it. -/
theorem holder_of_lock_eq_none (h : m.lock i = none) :
    (∃ j, m.owner = some j) ∨ ∃ j, j ∈ m.sharers := by
  unfold lock at h
  split at h
  · cases h
  · next hfree =>
    cases howner : m.owner with
    | some j => exact Or.inl ⟨j, rfl⟩
    | none =>
      right
      apply Finset.nonempty_iff_ne_empty.mpr
      intro hempty
      exact hfree ⟨howner, hempty⟩

/-- What holds of a thread that stays and of the one that moves holds of all. -/
theorem forall_of_move {P : Thread → Prop} (hself : P i) (hothers : ∀ j, j ≠ i → P j)
    (j : Thread) : P j := by
  by_cases hj : j = i
  · rw [hj]
    exact hself
  · exact hothers j hj

/-- A thread moves between places that hold the lock alike. -/
theorem HeldBy.keep (h : m.HeldBy shares owns place) (i : Thread)
    (hothers : ∀ j, j ≠ i → place' j = place j) (hshares : shares (place' i) ↔ shares (place i))
    (howns : owns (place' i) ↔ owns (place i)) : m.HeldBy shares owns place' := by
  constructor
  · refine forall_of_move (i := i) ?_ ?_
    · exact (h.shared i).trans hshares.symm
    · intro j hj
      rw [hothers j hj]
      exact h.shared j
  · refine forall_of_move (i := i) ?_ ?_
    · exact (h.owned i).trans howns.symm
    · intro j hj
      rw [hothers j hj]
      exact h.owned j

/-- A thread takes the lock shared. -/
theorem HeldBy.lockShared (h : m.HeldBy shares owns place) (hlock : m.lockShared i = some m')
    (hothers : ∀ j, j ≠ i → place' j = place j) (hshares : shares (place' i))
    (howns : ¬ owns (place' i)) : m'.HeldBy shares owns place' := by
  unfold SharedMutex.lockShared at hlock
  split at hlock
  · next hfree =>
    obtain rfl := Option.some.inj hlock
    constructor
    · refine forall_of_move (i := i) ?_ ?_
      · exact iff_of_true (Finset.mem_insert_self _ _) hshares
      · intro j hj
        rw [hothers j hj, ← h.shared j, Finset.mem_insert]
        exact or_iff_right hj
    · refine forall_of_move (i := i) ?_ ?_
      · exact iff_of_false nofun howns
      · intro j hj
        rw [hothers j hj, ← h.owned j, hfree]
  · cases hlock

/-- A thread lets a shared lock go. -/
theorem HeldBy.unlockShared (h : m.HeldBy shares owns place)
    (hothers : ∀ j, j ≠ i → place' j = place j) (hbefore : shares (place i))
    (hshares : ¬ shares (place' i)) (howns : ¬ owns (place' i)) :
    (m.unlockShared i).HeldBy shares owns place' := by
  constructor
  · refine forall_of_move (i := i) ?_ ?_
    · exact iff_of_false (Finset.notMem_erase _ _) hshares
    · intro j hj
      rw [hothers j hj, ← h.shared j]
      exact Finset.mem_erase.trans (and_iff_right hj)
  · refine forall_of_move (i := i) ?_ ?_
    · apply iff_of_false _ howns
      intro howner
      exact h.not_shares ((h.owned i).mp howner) i hbefore
    · intro j hj
      rw [hothers j hj]
      exact h.owned j

/-- A thread takes the lock exclusively. -/
theorem HeldBy.lock (h : m.HeldBy shares owns place) (hlock : m.lock i = some m')
    (hothers : ∀ j, j ≠ i → place' j = place j) (hshares : ¬ shares (place' i))
    (howns : owns (place' i)) : m'.HeldBy shares owns place' := by
  unfold SharedMutex.lock at hlock
  split at hlock
  · next hfree =>
    obtain rfl := Option.some.inj hlock
    constructor
    · refine forall_of_move (i := i) ?_ ?_
      · exact iff_of_false (Finset.notMem_empty _) hshares
      · intro j hj
        rw [hothers j hj, ← h.shared j, hfree.2]
    · refine forall_of_move (i := i) ?_ ?_
      · exact iff_of_true rfl howns
      · intro j hj
        rw [hothers j hj, ← h.owned j, hfree.1]
        apply iff_of_false
        · intro hsome
          exact hj (Option.some.inj hsome).symm
        · exact nofun
  · cases hlock

/-- The owner lets the lock go. -/
theorem HeldBy.unlock (h : m.HeldBy shares owns place)
    (hothers : ∀ j, j ≠ i → place' j = place j) (hbefore : owns (place i))
    (hshares : ¬ shares (place' i)) (howns : ¬ owns (place' i)) :
    m.unlock.HeldBy shares owns place' := by
  constructor
  · refine forall_of_move (i := i) ?_ ?_
    · apply iff_of_false _ hshares
      intro hmem
      exact h.not_shares hbefore i ((h.shared i).mp hmem)
    · intro j hj
      rw [hothers j hj]
      exact h.shared j
  · refine forall_of_move (i := i) ?_ ?_
    · exact iff_of_false nofun howns
    · intro j hj
      rw [hothers j hj]
      apply iff_of_false nofun
      intro howns'
      exact hj (h.unique howns' hbefore)

end SharedMutex
