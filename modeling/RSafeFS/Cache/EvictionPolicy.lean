import RSafeFS.Fuse
import Mathlib.Data.List.AList

/-!
# Eviction policies

Both caches choose the entry to drop through an `eviction_policy` object. The
interface is a record of three operations on the policy's own state. The two
implementations of the repository are `lru_cache_manager` and `rnd_cache_manager`.
-/

namespace RSafeFS

/-- `cache_manager<T>`: the operations that a cache calls on its policy. -/
structure EvictionPolicy (κ ρ : Type) where
  touch : κ → ρ → ρ
  remove : κ → ρ → ρ
  evict : ρ → Option κ × ρ

variable {κ : Type} [DecidableEq κ]

/-- The state of `lru_cache_manager`: the list `keys_`, most recent first, whose
nodes carry the identity that the iterators in `map_` refer to. -/
structure LruState (κ : Type) where
  keys : List (ℕ × κ)
  map : AList fun _ : κ => ℕ
  nextNode : ℕ

/-- `lru_cache_manager::lru_cache_manager`. -/
def LruState.empty : LruState κ := ⟨[], ∅, 0⟩

/-- `keys_.erase(it)`. -/
def LruState.eraseNode (node : ℕ) (keys : List (ℕ × κ)) : List (ℕ × κ) :=
  keys.eraseP fun entry => entry.1 == node

/-- `lru_cache_manager::touch`. -/
def LruState.touch (t : κ) (s : LruState κ) : LruState κ :=
  let keys := match s.map.lookup t with
    | some node => LruState.eraseNode node s.keys
    | none => s.keys
  ⟨(s.nextNode, t) :: keys, s.map.insert t s.nextNode, s.nextNode + 1⟩

/-- `lru_cache_manager::remove`. -/
def LruState.remove (t : κ) (s : LruState κ) : LruState κ :=
  match s.map.lookup t with
  | some node => { s with keys := LruState.eraseNode node s.keys, map := s.map.erase t }
  | none => s

/-- `lru_cache_manager::evict`. -/
def LruState.evict (s : LruState κ) : Option κ × LruState κ :=
  if s.map.keys = [] then (none, s)
  else match s.keys.getLast? with
    | some (_, t) => (some t, { s with keys := s.keys.dropLast, map := s.map.erase t })
    | none => (none, s)

/-- The `lru` driver. -/
def lruEviction : EvictionPolicy κ (LruState κ) := ⟨LruState.touch, LruState.remove, LruState.evict⟩

/-- A random generator, seen through `uniform_int_distribution(0, n - 1)`. -/
structure Generator (γ : Type) where
  draw : (n : ℕ) → 0 < n → γ → Fin n × γ

/-- The state of `rnd_cache_manager`: the set `keys_` in its iteration order. -/
structure RndState (κ γ : Type) where
  keys : List κ
  randGen : γ

/-- `rnd_cache_manager::evict`: the element a random number of steps from the first. -/
def RndState.evict {γ : Type} (generator : Generator γ) (s : RndState κ γ) :
    Option κ × RndState κ γ :=
  if h : 0 < s.keys.length then
    let (i, gen) := generator.draw s.keys.length h s.randGen
    (some (s.keys.get i), ⟨s.keys.eraseIdx i, gen⟩)
  else (none, s)

/-- The `rnd` driver. -/
def rndEviction {γ : Type} (generator : Generator γ) : EvictionPolicy κ (RndState κ γ) where
  touch t s := { s with keys := if t ∈ s.keys then s.keys else t :: s.keys }
  remove t s := { s with keys := s.keys.erase t }
  evict s := s.evict generator

/-- What a cache relies on: the policy holds a set of keys, which `touch` adds to and
`remove` takes from, and `evict` takes one of them. `valid` is what the policy maintains
of its own state. -/
structure EvictionPolicy.Lawful {ρ : Type} (policy : EvictionPolicy κ ρ) (valid : ρ → Prop)
    (holds : ρ → κ → Prop) : Prop where
  touch : ∀ t s, valid s → valid (policy.touch t s) ∧
    ∀ k, holds (policy.touch t s) k ↔ k = t ∨ holds s k
  remove : ∀ t s, valid s → valid (policy.remove t s) ∧
    ∀ k, holds (policy.remove t s) k ↔ k ≠ t ∧ holds s k
  evict : ∀ s t s', valid s → policy.evict s = (some t, s') → valid s' ∧
    ∀ k, holds s' k ↔ k ≠ t ∧ holds s k
  evict_none : ∀ s s', valid s → policy.evict s = (none, s') → valid s' ∧
    ∀ k, holds s' k ↔ holds s k

/-- What the size of a cache relies on: `evict` takes a key that the policy holds, and fails
only if there is none. -/
structure EvictionPolicy.Frees {ρ : Type} (policy : EvictionPolicy κ ρ) (valid : ρ → Prop)
    (holds : ρ → κ → Prop) : Prop where
  evicted : ∀ s t s', valid s → policy.evict s = (some t, s') → holds s t
  exhausted : ∀ s s', valid s → policy.evict s = (none, s') → ∀ k, ¬ holds s k

/-- The representation of `lru_cache_manager`: `map_` refers to the node of each key in
`keys_`, and no node is used twice. -/
structure LruState.Valid (s : LruState κ) : Prop where
  nodup : (s.keys.map Prod.fst).Nodup
  lookup : ∀ k node, s.map.lookup k = some node ↔ (node, k) ∈ s.keys
  fresh : ∀ entry ∈ s.keys, entry.1 < s.nextNode

theorem LruState.valid_empty : (LruState.empty : LruState κ).Valid where
  nodup := List.nodup_nil
  lookup k node := by simp [LruState.empty]
  fresh entry hentry := absurd hentry List.not_mem_nil

omit [DecidableEq κ] in
/-- Erasing a node leaves the other nodes. -/
theorem LruState.mem_eraseNode {keys : List (ℕ × κ)} (hnodup : (keys.map Prod.fst).Nodup)
    (node : ℕ) (entry : ℕ × κ) :
    entry ∈ LruState.eraseNode node keys ↔ entry ∈ keys ∧ entry.1 ≠ node := by
  unfold LruState.eraseNode
  by_cases hnode : entry.1 = node
  · subst hnode
    simp only [ne_eq, not_true, and_false, iff_false]
    intro hmem
    induction keys with
    | nil => exact absurd hmem List.not_mem_nil
    | cons head tail ih =>
      rw [List.map_cons, List.nodup_cons] at hnodup
      by_cases hhead : head.1 = entry.1
      · rw [List.eraseP_cons_of_pos (by simpa using hhead)] at hmem
        exact hnodup.1 (hhead ▸ List.mem_map_of_mem hmem)
      · rw [List.eraseP_cons_of_neg (by simpa using hhead)] at hmem
        rcases List.mem_cons.mp hmem with rfl | htail
        · exact hhead rfl
        · exact ih hnodup.2 htail
  · rw [List.mem_eraseP_of_neg (by simpa using hnode)]
    exact ⟨fun hmem => ⟨hmem, hnode⟩, And.left⟩

/-- The list without the node of a key, if it has one. -/
theorem LruState.Valid.mem_unlinked {s : LruState κ} (h : s.Valid) (t : κ) (entry : ℕ × κ) :
    (entry ∈ match s.map.lookup t with
      | some node => LruState.eraseNode node s.keys
      | none => s.keys) ↔ entry ∈ s.keys ∧ entry.2 ≠ t := by
  cases hnode : s.map.lookup t with
  | some node =>
    rw [LruState.mem_eraseNode h.nodup]
    have hkey := (h.lookup t node).mp hnode
    refine and_congr_right fun hmem => not_congr ⟨fun heq => ?_, fun heq => ?_⟩
    · have hfst := List.inj_on_of_nodup_map h.nodup hmem hkey heq
      rw [hfst]
    · have hother := (h.lookup entry.2 entry.1).mpr hmem
      rw [heq, hnode] at hother
      exact (Option.some.inj hother).symm
  | none =>
    refine ⟨fun hmem => ⟨hmem, fun heq => ?_⟩, And.left⟩
    have hother := (h.lookup entry.2 entry.1).mpr hmem
    rw [heq, hnode] at hother
    cases hother

/-- A part of the list keeps its nodes distinct and used. -/
theorem LruState.Valid.sublist {s : LruState κ} (h : s.Valid) {keys : List (ℕ × κ)}
    (hsub : keys.Sublist s.keys) :
    (keys.map Prod.fst).Nodup ∧ ∀ entry ∈ keys, entry.1 < s.nextNode :=
  ⟨h.nodup.sublist (hsub.map _), fun entry hentry => h.fresh entry (hsub.subset hentry)⟩

/-- The list without the node of a key is a part of the list. -/
theorem LruState.unlinked_sublist (t : κ) (s : LruState κ) :
    (match s.map.lookup t with
      | some node => LruState.eraseNode node s.keys
      | none => s.keys).Sublist s.keys := by
  split
  · exact List.eraseP_sublist
  · exact List.Sublist.refl _

theorem LruState.Valid.touch {s : LruState κ} (h : s.Valid) (t : κ) : (s.touch t).Valid := by
  obtain ⟨hnodup, hfresh⟩ := h.sublist (LruState.unlinked_sublist t s)
  refine ⟨?_, fun k node => ?_, ?_⟩
  · refine List.nodup_cons.mpr ⟨fun hmem => ?_, hnodup⟩
    obtain ⟨entry, hentry, heq⟩ := List.mem_map.mp hmem
    have hlt := hfresh entry hentry
    omega
  · simp only [LruState.touch, List.mem_cons, h.mem_unlinked]
    by_cases hk : k = t
    · subst hk
      simp [eq_comm]
    · simp [AList.lookup_insert_ne hk, h.lookup, hk]
  · intro entry hentry
    rcases List.mem_cons.mp hentry with rfl | hold
    · exact Nat.lt_succ_self _
    · exact Nat.lt_succ_of_lt (hfresh entry hold)

theorem LruState.Valid.remove {s : LruState κ} (h : s.Valid) (t : κ) : (s.remove t).Valid := by
  have hmem := h.mem_unlinked t
  have hsub := LruState.unlinked_sublist t s
  unfold LruState.remove
  cases hnode : s.map.lookup t with
  | none => exact h
  | some node =>
    simp only [hnode] at hmem hsub
    obtain ⟨hnodup, hfresh⟩ := h.sublist hsub
    refine ⟨hnodup, fun k node' => ?_, hfresh⟩
    rw [hmem]
    by_cases hk : k = t
    · subst hk
      simp
    · simp [AList.lookup_erase_ne hk, h.lookup, hk]

/-- The keys that are left when one is removed. -/
theorem LruState.mem_remove (t : κ) (s : LruState κ) (k : κ) :
    k ∈ (s.remove t).map ↔ k ≠ t ∧ k ∈ s.map := by
  unfold LruState.remove
  cases hnode : s.map.lookup t with
  | none =>
    have hnot : t ∉ s.map := AList.lookup_eq_none.mp hnode
    refine ⟨fun hk => ⟨?_, hk⟩, And.right⟩
    rintro rfl
    exact hnot hk
  | some node => exact AList.mem_erase

/-- `evict` removes the key of the last node. -/
theorem LruState.Valid.evict {s s' : LruState κ} {t : κ} (h : s.Valid)
    (hevict : s.evict = (some t, s')) : s' = s.remove t := by
  unfold LruState.evict at hevict
  split at hevict
  · cases hevict
  · split at hevict
    · next node t' hlast =>
      obtain ⟨rfl, rfl⟩ := Prod.mk.inj hevict |>.imp_left Option.some.inj
      have hkeys : s.keys = s.keys.dropLast ++ [(node, t')] :=
        (List.dropLast_append_getLast? _ hlast).symm
      have hnode : s.map.lookup t' = some node := by
        rw [h.lookup, hkeys]
        simp
      have hnodup := h.nodup
      rw [hkeys, List.map_append, List.nodup_append] at hnodup
      have hearlier : ∀ entry ∈ s.keys.dropLast, ¬ (entry.1 == node) = true := by
        intro entry hentry heq
        exact hnodup.2.2 _ (List.mem_map_of_mem hentry) node (by simp) (by simpa using heq)
      simp only [LruState.remove, hnode, LruState.eraseNode]
      conv_rhs => rw [hkeys]
      rw [List.eraseP_append_right _ hearlier]
      simp
    · cases hevict

/-- The `lru` driver holds the keys of its map. -/
theorem lruEviction_lawful :
    (lruEviction : EvictionPolicy κ (LruState κ)).Lawful LruState.Valid fun s k => k ∈ s.map where
  touch t s h := ⟨h.touch t, fun k => AList.mem_insert _⟩
  remove t s h := ⟨h.remove t, LruState.mem_remove t s⟩
  evict s t s' h hevict := by
    obtain rfl := h.evict hevict
    exact ⟨h.remove t, LruState.mem_remove t s⟩
  evict_none s s' h hevict := by
    have hsame : s' = s := by
      unfold lruEviction LruState.evict at hevict
      dsimp only at hevict
      split at hevict
      · exact (Prod.mk.inj hevict).2.symm
      · split at hevict
        · cases hevict
        · exact (Prod.mk.inj hevict).2.symm
    subst hsame
    exact ⟨h, fun _ => Iff.rfl⟩

/-- The `lru` driver evicts the key of the last node, if it has one. -/
theorem lruEviction_frees :
    (lruEviction : EvictionPolicy κ (LruState κ)).Frees LruState.Valid fun s k => k ∈ s.map where
  evicted s t s' h hevict := by
    simp only [lruEviction, LruState.evict] at hevict
    split at hevict
    · cases hevict
    · split at hevict
      · next node t' hlast =>
        obtain ⟨rfl, -⟩ := Prod.mk.inj hevict |>.imp_left Option.some.inj
        have hnode := (h.lookup t' node).mpr (List.mem_of_getLast? hlast)
        exact AList.lookup_isSome.mp (by rw [hnode]; rfl)
      · cases hevict
  exhausted s s' h hevict k hk := by
    simp only [lruEviction, LruState.evict] at hevict
    split at hevict
    · next hempty =>
      have hkey : k ∈ s.map.keys := AList.mem_keys.mp hk
      rw [hempty] at hkey
      exact absurd hkey List.not_mem_nil
    · split at hevict
      · cases hevict
      · next hnone =>
        obtain ⟨node, hnode⟩ := Option.isSome_iff_exists.mp (AList.lookup_isSome.mpr hk)
        have hmem := (h.lookup k node).mp hnode
        rw [List.getLast?_eq_none_iff.mp hnone] at hmem
        exact absurd hmem List.not_mem_nil

/-- The `rnd` driver holds the keys of its set. -/
theorem rndEviction_lawful {γ : Type} (generator : Generator γ) :
    (rndEviction generator : EvictionPolicy κ (RndState κ γ)).Lawful (fun s => s.keys.Nodup)
      fun s k => k ∈ s.keys where
  touch t s h := by
    by_cases ht : t ∈ s.keys
    · simp only [rndEviction, ht, if_true]
      refine ⟨h, fun k => ⟨Or.inr, ?_⟩⟩
      rintro (rfl | hk)
      · exact ht
      · exact hk
    · simp only [rndEviction, ht, if_false]
      exact ⟨List.nodup_cons.mpr ⟨ht, h⟩, fun k => List.mem_cons⟩
  remove t s h := ⟨h.erase t, fun k => h.mem_erase_iff⟩
  evict s t s' h hevict := by
    simp only [rndEviction, RndState.evict] at hevict
    split at hevict
    · obtain ⟨ht, rfl⟩ := Prod.mk.inj hevict
      obtain rfl := Option.some.inj ht
      rw [← h.erase_get]
      exact ⟨h.erase _, fun k => h.mem_erase_iff⟩
    · cases hevict
  evict_none s s' h hevict := by
    simp only [rndEviction, RndState.evict] at hevict
    split at hevict
    · cases hevict
    · obtain ⟨_, rfl⟩ := Prod.mk.inj hevict
      exact ⟨h, fun _ => Iff.rfl⟩

/-- The `rnd` driver evicts some key of its set, if it has one. -/
theorem rndEviction_frees {γ : Type} (generator : Generator γ) :
    (rndEviction generator : EvictionPolicy κ (RndState κ γ)).Frees (fun s => s.keys.Nodup)
      fun s k => k ∈ s.keys where
  evicted s t s' h hevict := by
    simp only [rndEviction, RndState.evict] at hevict
    split at hevict
    · obtain ⟨ht, -⟩ := Prod.mk.inj hevict
      obtain rfl := Option.some.inj ht
      exact List.get_mem _ _
    · cases hevict
  exhausted s s' h hevict k hk := by
    simp only [rndEviction, RndState.evict] at hevict
    split at hevict
    · cases hevict
    · next hempty => exact hempty (List.length_pos_of_mem hk)

end RSafeFS
