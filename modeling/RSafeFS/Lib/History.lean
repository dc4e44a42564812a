import Mathlib.Data.List.Basic

/-!
# Histories

A history is the list of the events of a run, the latest first. The time of an event is the
number of events up to it, itself included, so that zero stands for an event that has not
happened. The lemmas say how the latest time of a kind of event changes with one more event.
-/

namespace History

variable {Event : Type*}

/-- The time of the latest event of a kind, zero if there is none. -/
def latest (kind : Event → Bool) : List Event → ℕ
  | [] => 0
  | e :: older => if kind e then older.length + 1 else latest kind older

variable {kind kind' : Event → Bool} {e : Event} {older : List Event}

@[simp] theorem latest_nil : latest kind [] = 0 := rfl

theorem latest_cons_of_pos (h : kind e = true) :
    latest kind (e :: older) = older.length + 1 := if_pos h

theorem latest_cons_of_neg (h : ¬ kind e = true) :
    latest kind (e :: older) = latest kind older := if_neg h

/-- No event is later than the number of events. -/
theorem latest_le_length (kind : Event → Bool) (history : List Event) :
    latest kind history ≤ history.length := by
  induction history with
  | nil => exact Nat.le_refl 0
  | cons e older ih =>
    unfold latest
    split
    · exact Nat.le_refl _
    · exact Nat.le_succ_of_le ih

/-- A kind of event has a latest time if one of its events has happened. -/
theorem latest_pos {history : List Event} :
    0 < latest kind history ↔ ∃ e ∈ history, kind e = true := by
  induction history with
  | nil => simp
  | cons e older ih =>
    by_cases he : kind e = true
    · simp [latest_cons_of_pos he, he]
    · simp [latest_cons_of_neg he, he, ih]

/-- A kind of event with the latest event is later than every kind without it. -/
theorem latest_lt_cons (h : kind e = true) (h' : ¬ kind' e = true) :
    latest kind' (e :: older) < latest kind (e :: older) := by
  rw [latest_cons_of_pos h, latest_cons_of_neg h']
  exact Nat.lt_succ_of_le (latest_le_length kind' older)

/-- Two kinds of events that have no event in common do not have the same latest time. -/
theorem latest_ne (hdisjoint : ∀ e, kind e = true → ¬ kind' e = true) {history : List Event}
    (hpos : 0 < latest kind history) : latest kind history ≠ latest kind' history := by
  induction history with
  | nil => exact absurd hpos (Nat.lt_irrefl 0)
  | cons e older ih =>
    by_cases he : kind e = true
    · exact Nat.ne_of_gt (latest_lt_cons he (hdisjoint e he))
    · by_cases he' : kind' e = true
      · exact Nat.ne_of_lt (latest_lt_cons he' he)
      · rw [latest_cons_of_neg he] at hpos ⊢
        rw [latest_cons_of_neg he']
        exact ih hpos

end History
