import Mathlib.Data.List.Basic

/-!
# Runs of partial step functions

A system is given by a step function that may refuse an action. A run is a list
of actions executed in order. The rules of this file turn a fact about one step
into a fact about every state of a run, under a condition on the steps taken.
Nothing here depends on what the states and actions are.
-/

namespace Transition

variable {State Action : Type*}

/-- Execute a list of actions from a state, failing at the first refused action. -/
def run (step : State → Action → Option State) : State → List Action → Option State
  | s, [] => some s
  | s, a :: as => (step s a).bind (fun t => run step t as)

/-- The condition `ok` holds of every step of the run, in the state the step is taken from. -/
def Meets (step : State → Action → Option State) (ok : State → Action → Prop) :
    State → List Action → Prop
  | _, [] => True
  | s, a :: as => ok s a ∧ ∀ t, step s a = some t → Meets step ok t as

/-- The predicate holds in every state of the run, the first and the last included. -/
def Always (step : State → Action → Option State) (P : State → Prop) : State → List Action → Prop
  | s, [] => P s
  | s, a :: as => P s ∧ ∀ t, step s a = some t → Always step P t as

variable {step : State → Action → Option State} {ok : State → Action → Prop}

@[simp] theorem run_nil (s : State) : run step s [] = some s := rfl

/-- A run of at least one action is one step followed by a run. -/
theorem run_cons {s t : State} {a : Action} {as : List Action} :
    run step s (a :: as) = some t ↔ ∃ m, step s a = some m ∧ run step m as = some t := by
  simp [run, Option.bind_eq_some_iff]

/-- A run of a concatenation passes through the state reached by its first part. -/
theorem run_append {s t : State} {as bs : List Action} :
    run step s (as ++ bs) = some t ↔ ∃ m, run step s as = some m ∧ run step m bs = some t := by
  induction as generalizing s with
  | nil => simp
  | cons a as ih =>
    rw [List.cons_append, run_cons]
    constructor
    · rintro ⟨m, hm, hrest⟩
      obtain ⟨m', hm', hbs⟩ := ih.mp hrest
      exact ⟨m', run_cons.mpr ⟨m, hm, hm'⟩, hbs⟩
    · rintro ⟨m', hm', hbs⟩
      obtain ⟨m, hm, has⟩ := run_cons.mp hm'
      exact ⟨m, hm, ih.mpr ⟨m', has, hbs⟩⟩

/-- A run of one system is a run of another in which every step of it can be taken. -/
theorem run_lift {State' Action' : Type*} {step' : State' → Action' → Option State'}
    (f : State → State') (g : Action → Action') {P : Action → Prop}
    (hstep : ∀ s a t, P a → step s a = some t → step' (f s) (g a) = some (f t))
    {s t : State} {as : List Action} (hrun : run step s as = some t) (hmem : ∀ a ∈ as, P a) :
    run step' (f s) (as.map g) = some (f t) := by
  induction as generalizing s with
  | nil =>
    obtain rfl := Option.some.inj hrun
    rfl
  | cons a as ih =>
    obtain ⟨m, hm, hrest⟩ := run_cons.mp hrun
    have htail := ih hrest fun b hb => hmem b (List.mem_cons_of_mem a hb)
    exact run_cons.mpr ⟨f m, hstep s a m (hmem a List.mem_cons_self) hm, htail⟩

/-- **Simulation rule.** If every step of one system from related states is matched by a run
of another to related states, then so is every run. -/
theorem simulation {State' Action' : Type*} {step' : State' → Action' → Option State'}
    {R : State → State' → Prop} {P : Action → Prop}
    (hstep : ∀ s a t s', R s s' → P a → step s a = some t →
      ∃ as' t', run step' s' as' = some t' ∧ R t t')
    {s t : State} {s' : State'} {as : List Action} (hrun : run step s as = some t)
    (hmem : ∀ a ∈ as, P a) (hs : R s s') : ∃ as' t', run step' s' as' = some t' ∧ R t t' := by
  induction as generalizing s s' with
  | nil =>
    obtain rfl := Option.some.inj hrun
    exact ⟨[], s', rfl, hs⟩
  | cons a as ih =>
    obtain ⟨m, hm, hrest⟩ := run_cons.mp hrun
    obtain ⟨as', m', hfirst, hm'⟩ := hstep s a m s' hs (hmem a List.mem_cons_self) hm
    obtain ⟨bs', t', hlast, ht'⟩ := ih hrest (fun b hb => hmem b (List.mem_cons_of_mem a hb)) hm'
    exact ⟨as' ++ bs', t', run_append.mpr ⟨m', hfirst, hlast⟩, ht'⟩

/-- A run meets a condition if its first step does and the rest does from there. -/
theorem Meets.cons {s t : State} {a : Action} {as : List Action} (hok : ok s a)
    (hstep : step s a = some t) (hrest : Meets step ok t as) : Meets step ok s (a :: as) :=
  ⟨hok, fun _ ht => Option.some.inj (hstep.symm.trans ht) ▸ hrest⟩

/-- **Invariant rule.** A predicate that holds at the start and is preserved by
every step meeting the condition holds at the end of every run meeting it. -/
theorem invariant {I : State → Prop}
    (hstep : ∀ s a t, I s → ok s a → step s a = some t → I t)
    {s t : State} {as : List Action} (hrun : run step s as = some t)
    (hmeets : Meets step ok s as) (hs : I s) : I t := by
  induction as generalizing s with
  | nil =>
    obtain rfl := Option.some.inj hrun
    exact hs
  | cons a as ih =>
    obtain ⟨m, hm, hrest⟩ := run_cons.mp hrun
    obtain ⟨hok, htail⟩ := hmeets
    exact ih hrest (htail m hm) (hstep s a m hs hok hm)

/-- **Exactness rule.** If a step from a state in the predicate leads into it exactly
when the step meets the condition, then the predicate holds along a run exactly when
the whole run meets the condition. -/
theorem always_iff_meets {I : State → Prop}
    (hstep : ∀ s a t, I s → step s a = some t → (I t ↔ ok s a))
    {s t : State} {as : List Action} (hrun : run step s as = some t) (hs : I s) :
    Always step I s as ↔ Meets step ok s as := by
  induction as generalizing s with
  | nil => exact iff_of_true hs trivial
  | cons a as ih =>
    obtain ⟨m, hm, hrest⟩ := run_cons.mp hrun
    constructor
    · rintro ⟨_, halways⟩
      have hrestAlways := halways m hm
      have hI : I m := by
        cases as with
        | nil => exact hrestAlways
        | cons b bs => exact hrestAlways.1
      refine ⟨(hstep s a m hs hm).mp hI, fun t ht => ?_⟩
      obtain rfl := Option.some.inj (hm.symm.trans ht)
      exact (ih hrest hI).mp hrestAlways
    · rintro ⟨hok, hmeets⟩
      have hI : I m := (hstep s a m hs hm).mpr hok
      refine ⟨hs, fun t ht => ?_⟩
      obtain rfl := Option.some.inj (hm.symm.trans ht)
      exact (ih hrest hI).mpr (hmeets m hm)

/-- **Measure rule.** If no step lowers a measure, and a step keeps it exactly when it meets the
condition, then a run keeps it exactly when the whole run meets the condition. -/
theorem measure_eq_iff_meets {I : State → Prop} {m : State → ℕ}
    (hstep : ∀ s a t, I s → step s a = some t → I t ∧ m s ≤ m t ∧ (m t = m s ↔ ok s a))
    {s t : State} {as : List Action} (hrun : run step s as = some t) (hs : I s) :
    m s ≤ m t ∧ (m t = m s ↔ Meets step ok s as) := by
  induction as generalizing s with
  | nil =>
    obtain rfl := Option.some.inj hrun
    exact ⟨Nat.le_refl _, iff_of_true rfl trivial⟩
  | cons a as ih =>
    obtain ⟨r, hr, hrest⟩ := run_cons.mp hrun
    obtain ⟨hI, hle, hiff⟩ := hstep s a r hs hr
    obtain ⟨hle', hiff'⟩ := ih hrest hI
    refine ⟨Nat.le_trans hle hle', fun heq => ?_, fun hmeets => ?_⟩
    · exact .cons (hiff.mp (by omega)) hr (hiff'.mp (by omega))
    · exact (hiff'.mpr (hmeets.2 r hr)).trans (hiff.mpr hmeets.1)

/-- An invariant of all steps can be added to what holds in every state of a run. -/
theorem always_and_iff {I J : State → Prop} (hstep : ∀ s a t, J s → step s a = some t → J t)
    {s : State} {as : List Action} (hs : J s) :
    Always step (fun s => I s ∧ J s) s as ↔ Always step I s as := by
  induction as generalizing s with
  | nil => exact and_iff_left hs
  | cons a as ih =>
    constructor
    · rintro ⟨hIJ, hrest⟩
      exact ⟨hIJ.1, fun t ht => (ih (hstep s a t hs ht)).mp (hrest t ht)⟩
    · rintro ⟨hI, hrest⟩
      exact ⟨⟨hI, hs⟩, fun t ht => (ih (hstep s a t hs ht)).mpr (hrest t ht)⟩

/-- A run meets a condition if its first part does and the rest does from the state reached. -/
theorem Meets.append {s m : State} {as bs : List Action} (h : Meets step ok s as)
    (hrun : run step s as = some m) (hrest : Meets step ok m bs) : Meets step ok s (as ++ bs) := by
  induction as generalizing s with
  | nil =>
    obtain rfl := Option.some.inj hrun
    exact hrest
  | cons a as ih =>
    obtain ⟨t, ht, htail⟩ := run_cons.mp hrun
    exact .cons h.1 ht (ih (h.2 t ht) htail)

/-- A run that meets a condition meets it in each of its parts. -/
theorem Meets.split {s m : State} {as bs : List Action} (h : Meets step ok s (as ++ bs))
    (hrun : run step s as = some m) : Meets step ok s as ∧ Meets step ok m bs := by
  induction as generalizing s with
  | nil =>
    obtain rfl := Option.some.inj hrun
    exact ⟨trivial, h⟩
  | cons a as ih =>
    obtain ⟨t, ht, htail⟩ := run_cons.mp hrun
    obtain ⟨hfirst, hrest⟩ := ih (h.2 t ht) htail
    exact ⟨.cons h.1 ht hfirst, hrest⟩

/-- A run that meets two conditions meets both at each step. -/
theorem Meets.and {ok' : State → Action → Prop} {s : State} {as : List Action}
    (h : Meets step ok s as) (h' : Meets step ok' s as) :
    Meets step (fun s a => ok s a ∧ ok' s a) s as := by
  induction as generalizing s with
  | nil => trivial
  | cons a as ih => exact ⟨⟨h.1, h'.1⟩, fun t ht => ih (h.2 t ht) (h'.2 t ht)⟩

/-- A condition on the actions alone can be added to the condition on the steps. -/
theorem Meets.and_mem {P : Action → Prop} {s : State} {as : List Action}
    (hmeets : Meets step ok s as) (hmem : ∀ a ∈ as, P a) :
    Meets step (fun s a => ok s a ∧ P a) s as := by
  induction as generalizing s with
  | nil => trivial
  | cons a as ih =>
    obtain ⟨hok, htail⟩ := hmeets
    exact ⟨⟨hok, hmem a List.mem_cons_self⟩,
      fun t ht => ih (htail t ht) fun b hb => hmem b (List.mem_cons_of_mem a hb)⟩

/-- A run meets a condition that its actions meet in every state. -/
theorem Meets.of_forall_mem {s : State} {as : List Action} (h : ∀ a ∈ as, ∀ s, ok s a) :
    Meets step ok s as := by
  induction as generalizing s with
  | nil => trivial
  | cons a as ih =>
    have hrest : ∀ b ∈ as, ∀ s, ok s b := fun b hb => h b (List.mem_cons_of_mem a hb)
    exact ⟨h a List.mem_cons_self s, fun t _ => ih hrest⟩

/-- The invariant rule for a predicate that every step preserves. -/
theorem invariant_of_forall {I : State → Prop}
    (hstep : ∀ s a t, I s → step s a = some t → I t)
    {s t : State} {as : List Action} (hrun : run step s as = some t) (hs : I s) : I t :=
  invariant (fun s a t hI (_ : True) ha => hstep s a t hI ha) hrun
    (.of_forall_mem fun _ _ _ => trivial) hs

end Transition
