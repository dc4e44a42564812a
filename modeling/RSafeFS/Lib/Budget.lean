import RSafeFS.Lib.Transition
import Mathlib.Algebra.BigOperators.Group.Finset.Piecewise
import Mathlib.Algebra.Order.BigOperators.Group.Finset

/-!
# Bounded work

A measure of the work that is left bounds how many steps a system takes. The rules of this file
count the steps of a kind against the steps that bring new work. The sums are those of systems
with many parts of which each step concerns one.
-/

namespace Transition

variable {State Action : Type*} {step : State → Action → Option State}
  {ok : State → Action → Prop}

/-- If only one part of a sum grows, the sum grows by no more than that part. -/
theorem sum_le {ι : Type*} [DecidableEq ι] {S : Finset ι} {f g : ι → ℕ} {i : ι} (hi : i ∈ S)
    (hle : ∀ j, j ≠ i → g j ≤ f j) : ∑ j ∈ S, g j + f i ≤ ∑ j ∈ S, f j + g i := by
  have hrest : ∑ j ∈ S.erase i, g j ≤ ∑ j ∈ S.erase i, f j :=
    Finset.sum_le_sum fun j hj => hle j (Finset.ne_of_mem_erase hj)
  rw [← Finset.add_sum_erase _ f hi, ← Finset.add_sum_erase _ g hi]
  omega

/-- A sum over parts of which one is replaced. -/
theorem sum_update {ι Part : Type*} [DecidableEq ι] {S : Finset ι} {i : ι} (hi : i ∈ S)
    (f : ι → Part) (g : Part → ℕ) (a : Part) :
    ∑ j ∈ S, g (Function.update f i a j) + g (f i) = ∑ j ∈ S, g (f j) + g a := by
  have hrest : ∑ j ∈ S.erase i, g (Function.update f i a j) = ∑ j ∈ S.erase i, g (f j) :=
    Finset.sum_congr rfl fun j hj => by rw [Function.update_of_ne (Finset.ne_of_mem_erase hj)]
  rw [← Finset.add_sum_erase _ (fun j => g (f j)) hi,
    ← Finset.add_sum_erase _ (fun j => g (Function.update f i a j)) hi, hrest, Function.update_self]
  omega

/-- If each element of a set belongs to one of the parts, there are no more elements than parts to
which one belongs. -/
theorem card_le_sum {ι κ : Type*} [DecidableEq κ] {S : Finset ι} {U : Finset κ} {f : ι → Option κ}
    (howned : ∀ k ∈ U, ∃ i ∈ S, f i = some k) :
    U.card ≤ ∑ i ∈ S, if (f i).isSome then 1 else 0 := by
  have hsubset : U.image some ⊆ (S.filter fun i => (f i).isSome).image f := by
    intro o ho
    obtain ⟨k, hk, rfl⟩ := Finset.mem_image.mp ho
    obtain ⟨i, hi, hki⟩ := howned k hk
    apply Finset.mem_image.mpr
    exact ⟨i, Finset.mem_filter.mpr ⟨hi, by rw [hki]; rfl⟩, hki⟩
  rw [← Finset.card_filter, ← Finset.card_image_of_injective U (Option.some_injective κ)]
  exact (Finset.card_le_card hsubset).trans Finset.card_image_le

/-- A sum of parts of which none is more than one and one is nothing. -/
theorem sum_lt_card {ι : Type*} [DecidableEq ι] {S : Finset ι} {f : ι → ℕ} {i : ι} (hi : i ∈ S)
    (hone : ∀ j, f j ≤ 1) (hzero : f i = 0) : ∑ j ∈ S, f j < S.card := by
  rw [Finset.card_eq_sum_ones]
  apply Finset.sum_lt_sum
  · intro j hj
    exact hone j
  · exact ⟨i, hi, by omega⟩

/-- What the actions of a list come to. -/
def total (f : Action → ℕ) : List Action → ℕ
  | [] => 0
  | a :: as => f a + total f as

/-- **Budget rule.** If each step pays its cost from a measure, apart from what it gains, then a run
costs no more than what the measure was at its start and what its steps gained. -/
theorem total_le {I : State → Prop} {m : State → ℕ} {cost gain : Action → ℕ}
    (hstep : ∀ s a t, I s → ok s a → step s a = some t → I t ∧ m t + cost a ≤ m s + gain a)
    {s t : State} {as : List Action} (hrun : run step s as = some t) (hmeets : Meets step ok s as)
    (hs : I s) : m t + total cost as ≤ m s + total gain as := by
  induction as generalizing s with
  | nil =>
    obtain rfl := Option.some.inj hrun
    exact Nat.le_refl _
  | cons a as ih =>
    obtain ⟨r, hr, hrest⟩ := run_cons.mp hrun
    obtain ⟨hI, hle⟩ := hstep s a r hs hmeets.1 hr
    have htail := ih hrest (hmeets.2 r hr) hI
    simp only [total]
    omega

/-- Equal amounts count the actions that have them. -/
theorem total_ite (p : Action → Bool) (k : ℕ) (as : List Action) :
    total (fun a => if p a then k else 0) as = k * as.countP p := by
  induction as with
  | nil => rfl
  | cons a as ih =>
    rw [total, ih, List.countP_cons]
    split
    · rw [Nat.mul_succ, Nat.add_comm]
    · rw [Nat.zero_add, Nat.add_zero]

theorem total_add (f g : Action → ℕ) (as : List Action) :
    total (fun a => f a + g a) as = total f as + total g as := by
  induction as with
  | nil => rfl
  | cons a as ih =>
    simp only [total, ih]
    omega

/-- No action of a kind can be taken. -/
def Quiet (step : State → Action → Option State) (P : Action → Prop) (s : State) : Prop :=
  ∀ a, P a → step s a = none

/-- The numbers that occur in a run are bounded. -/
theorem exists_bound (f : Action → Option ℕ) (as : List Action) :
    ∃ n, ∀ a ∈ as, ∀ i, f a = some i → i < n := by
  induction as with
  | nil => exact ⟨0, nofun⟩
  | cons a as ih =>
    obtain ⟨n, hn⟩ := ih
    refine ⟨max n ((f a).elim 0 Nat.succ), ?_⟩
    rintro b (_ | ⟨_, hb⟩) i hi
    · rw [hi]
      exact lt_max_of_lt_right (Nat.lt_succ_self i)
    · exact lt_max_of_lt_left (hn b hb i hi)

end Transition
