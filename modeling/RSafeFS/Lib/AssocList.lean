import Mathlib.Data.List.AList

/-!
# The keys of association lists

How many keys a map has after an insertion or an erasure, and which. Nothing here depends on
what the keys and values are.
-/

namespace AList

variable {α : Type} [DecidableEq α] {β : α → Type}

/-- A map without one of its keys is smaller by one. -/
theorem length_keys_erase {m : AList β} {k : α} (hk : k ∈ m) :
    (m.erase k).keys.length + 1 = m.keys.length := by
  have hmem : k ∈ m.keys := AList.mem_keys.mp hk
  rw [AList.keys_erase, List.length_erase_of_mem hmem]
  exact Nat.sub_add_cancel (List.length_pos_of_mem hmem)

/-- Erasing a key makes a map no larger. -/
theorem length_keys_erase_le (m : AList β) (k : α) :
    (m.erase k).keys.length ≤ m.keys.length := by
  rw [AList.keys_erase]
  exact List.length_erase_le

/-- A map with a new key is larger by one. -/
theorem length_keys_insert {m : AList β} {k : α} (hk : k ∉ m) (b : β k) :
    (m.insert k b).keys.length = m.keys.length + 1 := by
  have hmem : k ∉ m.keys := fun h => hk (AList.mem_keys.mpr h)
  rw [AList.keys_insert, List.erase_of_not_mem hmem, List.length_cons]

/-- A map with another value for one of its keys is as large. -/
theorem length_keys_insert_of_mem {m : AList β} {k : α} (hk : k ∈ m) (b : β k) :
    (m.insert k b).keys.length = m.keys.length := by
  rw [AList.keys_insert, List.length_cons, ← AList.keys_erase]
  exact length_keys_erase hk

/-- Another value for one of its keys leaves the keys of a map as they are. -/
theorem mem_insert_of_mem {m : AList β} {k k' : α} (hk : k ∈ m) (b : β k) :
    k' ∈ m.insert k b ↔ k' ∈ m := by
  rw [AList.mem_insert]
  refine ⟨?_, Or.inr⟩
  rintro (rfl | hk')
  · exact hk
  · exact hk'

end AList
