import Mathlib.Data.List.Basic

/-!
# Programs that call an environment

A program calls an environment and goes on with the outcomes. The environment answers a call
as it likes, in view of all calls before, so that what holds for every environment holds for
every outcome of every call. The calls of a program are recorded with their outcomes, and the
rules of this file derive what a program returns together with what it records. Nothing here
depends on what the calls are.
-/

namespace Trace

variable {Call : Type} {Outcome : Call → Type} {α β : Type}

/-- A call and its outcome. -/
structure Event (Outcome : Call → Type) where
  call : Call
  outcome : Outcome call

/-- An environment answers each call, given what has happened so far. -/
abbrev Env (Outcome : Call → Type) := List (Event Outcome) → (c : Call) → Outcome c

/-- Programs record their calls. -/
abbrev Prog (Outcome : Call → Type) (α : Type) := StateM (List (Event Outcome)) α

/-- Make a call. -/
def call (env : Env Outcome) (c : Call) : Prog Outcome (Outcome c) :=
  fun history => (env history c, history ++ [⟨c, env history c⟩])

/-- Whatever has happened before, the program returns a value and makes calls as in `Q`. -/
def Yields (p : Prog Outcome α) (Q : α → List (Event Outcome) → Prop) : Prop :=
  ∀ history, ∃ new, (p history).2 = history ++ new ∧ Q (p history).1 new

variable {env : Env Outcome} {Q : α → List (Event Outcome) → Prop}
  {R : β → List (Event Outcome) → Prop}

/-- A program that makes no call. -/
theorem yields_pure {a : α} (h : Q a []) : Yields (pure a : Prog Outcome α) Q :=
  fun history => ⟨[], (List.append_nil history).symm, h⟩

/-- What a program yields can be weakened. -/
theorem Yields.mono {p : Prog Outcome α} {Q' : α → List (Event Outcome) → Prop}
    (h : Yields p Q) (hQ : ∀ a new, Q a new → Q' a new) : Yields p Q' := by
  intro history
  obtain ⟨new, hnew, hres⟩ := h history
  exact ⟨new, hnew, hQ _ _ hres⟩

/-- A function applied to the value of a program. -/
theorem Yields.map {p : Prog Outcome α} {f : α → β} (h : Yields p fun a new => R (f a) new) :
    Yields (f <$> p) R := h

/-- **Sequence rule.** The second program goes on with the value and behind the calls of the
first one. -/
theorem Yields.bind {p : Prog Outcome α} {f : α → Prog Outcome β} (hp : Yields p Q)
    (hf : ∀ a first, Q a first → Yields (f a) fun b second => R b (first ++ second)) :
    Yields (p >>= f) R := by
  intro history
  obtain ⟨first, hfirst, hQ⟩ := hp history
  obtain ⟨second, hsecond, hR⟩ := hf _ first hQ (p history).2
  refine ⟨first ++ second, ?_, hR⟩
  rw [← List.append_assoc, ← hfirst]
  exact hsecond

/-- **Call rule.** A program that starts with a call goes on with any outcome of it. -/
theorem yields_call_bind {c : Call} {f : Outcome c → Prog Outcome β}
    (h : ∀ outcome, Yields (f outcome) fun b rest => R b (⟨c, outcome⟩ :: rest)) :
    Yields (call env c >>= f) R := by
  intro history
  obtain ⟨rest, hrest, hR⟩ := h (env history c) (history ++ [⟨c, env history c⟩])
  refine ⟨⟨c, env history c⟩ :: rest, ?_, hR⟩
  rw [List.append_assoc, List.singleton_append] at hrest
  exact hrest

/-- After a history, the program returns a value and makes calls with these outcomes. -/
def Runs (p : Prog Outcome α) (history : List (Event Outcome)) (a : α)
    (new : List (Event Outcome)) : Prop :=
  p history = (a, history ++ new)

variable {history : List (Event Outcome)}

theorem runs_pure (a : α) : Runs (pure a : Prog Outcome α) history a [] :=
  congrArg (Prod.mk a) (List.append_nil history).symm

theorem Runs.map {p : Prog Outcome α} {a : α} {new : List (Event Outcome)}
    (h : Runs p history a new) (f : α → β) : Runs (f <$> p) history (f a) new :=
  congrArg (fun r : α × List (Event Outcome) => (f r.1, r.2)) h

/-- A run of one program and then of another. -/
theorem Runs.bind {p : Prog Outcome α} {f : α → Prog Outcome β} {a : α} {b : β}
    {first second : List (Event Outcome)} (hp : Runs p history a first)
    (hf : Runs (f a) (history ++ first) b second) :
    Runs (p >>= f) history b (first ++ second) := by
  have hbind : (p >>= f) history = f (p history).1 (p history).2 := rfl
  unfold Runs at hp hf ⊢
  rw [hbind, hp, hf, List.append_assoc]

/-- A run from its first call on, whose outcome is known. -/
theorem runs_call_bind {c : Call} {f : Outcome c → Prog Outcome β} {outcome : Outcome c}
    {b : β} {new : List (Event Outcome)} (houtcome : env history c = outcome)
    (h : Runs (f outcome) (history ++ [⟨c, outcome⟩]) b new) :
    Runs (call env c >>= f) history b (⟨c, outcome⟩ :: new) := by
  subst houtcome
  have hrest : f (env history c) (history ++ [⟨c, env history c⟩]) =
      (b, history ++ [⟨c, env history c⟩] ++ new) := h
  rw [List.append_assoc, List.singleton_append] at hrest
  exact hrest

end Trace
