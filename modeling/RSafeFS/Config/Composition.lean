import RSafeFS.Config.Stack
import Mathlib.Data.List.Induction

/-!
# What a composed stack runs

A request enters a stack through its operation table and follows the `next_layer`
of every stacked function it meets. This file states the intended composition, in
which a caching layer on top of the base intercepts its operations, and determines
for which layer lists and operations the composed table behaves so.
-/

namespace RSafeFS

/-- The functions that a request for `op` visits once it is sent to a slot's value. -/
inductive Traverses (stack : Stack) (op : Op) : Option Handler → List Handler → Prop
  | null : Traverses stack op none []
  | base {h : Handler} : h.owner.isStacked = false → Traverses stack op (some h) [h]
  | hook {h : Handler} {path : List Handler} : h.owner.isStacked = true →
      Traverses stack op (stack.nextLayer h.owner op) path →
      Traverses stack op (some h) (h :: path)

/-- The intended path of a request through the layers, listed from the top: the
layers that hook `op`, down to the first one that assigns it. -/
def requestPath (op : Op) : List LayerConfig → List Handler
  | [] => []
  | layer :: below =>
    if op ∈ layer.assigns then (layer.handler op).toList
    else if op ∈ layer.hooks then (layer.handler op).toList ++ requestPath op below
    else requestPath op below

/-- The layer provides a function for the operation, by hook or by assignment. -/
def LayerConfig.Provides (layer : LayerConfig) (op : Op) : Prop :=
  op ∈ layer.hooks ∨ op ∈ layer.assigns

/-- The composition that stacking a layer is meant to produce, for one operation. -/
structure ComposedAsStacked (layers : List LayerConfig) (stack : Stack) (op : Op) : Prop where
  /-- The slot holds the function of the last layer that provides one. -/
  top : ∀ below layer above, layers = below ++ layer :: above → layer.Provides op →
    (∀ l ∈ above, ¬ l.Provides op) → stack.operations op = layer.handler op
  /-- If that layer was stacked, it forwards to the table of the layers before it. -/
  next : ∀ below layer above, layers = below ++ layer :: above → op ∈ layer.hooks →
    (∀ l ∈ above, ¬ l.Provides op) → ∀ owner, layer.owner = some owner →
    ∀ s, compose below = .ok s → stack.nextLayer owner op = s.operations op
  /-- A request visits the hooking layers from the top and then the base. -/
  path : Traverses stack op (stack.operations op) (requestPath op layers.reverse)

/-- The function of the topmost layer that assigns `op`, with the layers listed from the top. -/
def baseHandler (op : Op) : List LayerConfig → Option Handler
  | [] => none
  | layer :: below => if op ∈ layer.assigns then layer.handler op else baseHandler op below

/-- A layer that stacks a hook assigns nothing, and its functions forward. -/
theorem LayerConfig.stacked_of_hooks {layer : LayerConfig} {op : Op} (h : op ∈ layer.hooks) :
    op ∉ layer.assigns ∧ ∃ owner, layer.owner = some owner ∧ owner.isStacked = true := by
  cases layer with
  | dataCache c => exact ⟨by simp [LayerConfig.assigns], .dataCache, rfl, rfl⟩
  | metadataCache c => exact ⟨by simp [LayerConfig.assigns], .metadataCache, rfl, rfl⟩
  | readAhead c => exact ⟨by simp [LayerConfig.assigns], .readAhead, rfl, rfl⟩
  | «local» c => simp [LayerConfig.hooks] at h
  | rpcClient c => simp [LayerConfig.hooks] at h
  | rpcServer c => simp [LayerConfig.hooks] at h

/-- A layer that assigns an operation does so with a function of its own that
does not forward. -/
theorem LayerConfig.base_of_assigns {layer : LayerConfig} {op : Op} (h : op ∈ layer.assigns) :
    ∃ owner, layer.owner = some owner ∧ owner.isStacked = false := by
  cases layer with
  | dataCache c => simp [LayerConfig.assigns] at h
  | metadataCache c => simp [LayerConfig.assigns] at h
  | readAhead c => simp [LayerConfig.assigns] at h
  | rpcServer c => simp [LayerConfig.assigns] at h
  | rpcClient c => exact ⟨.rpcClient, rfl, rfl⟩
  | «local» c =>
    obtain ⟨path, mode⟩ := c
    cases mode with
    | nfs => exact ⟨.nfsOperations, rfl, rfl⟩
    | «local» => exact ⟨.localOperations, rfl, rfl⟩

/-- The composed slot always holds the function of the topmost assigning layer:
hooks leave no trace in the table. -/
theorem compose_operations {layers : List LayerConfig} {stack : Stack}
    (hok : compose layers = .ok stack) (op : Op) :
    stack.operations op = baseHandler op layers.reverse := by
  induction layers using List.reverseRecOn generalizing stack with
  | nil =>
    obtain rfl := Except.ok.inj hok
    rfl
  | append_singleton layers layer ih =>
    obtain ⟨s, hs, hlayer⟩ := composeFrom_append_singleton hok
    rw [initLayer_operations hlayer, ih hs]
    simp [baseHandler]

/-- A base function does not forward. -/
theorem baseHandler_isBase {op : Op} {layers : List LayerConfig} {h : Handler}
    (hbase : baseHandler op layers = some h) : h.owner.isStacked = false := by
  induction layers with
  | nil => cases hbase
  | cons layer below ih =>
    by_cases hassign : op ∈ layer.assigns
    · obtain ⟨owner, howner, hstacked⟩ := LayerConfig.base_of_assigns hassign
      simp only [baseHandler, if_pos hassign, LayerConfig.handler, howner, Option.map_some,
        Option.some.injEq] at hbase
      rw [← hbase]
      exact hstacked
    · rw [baseHandler, if_neg hassign] at hbase
      exact ih hbase

/-- Layers on top that assign nothing do not change the base. -/
theorem baseHandler_append {op : Op} {top rest : List LayerConfig}
    (htop : ∀ l ∈ top, op ∉ l.assigns) :
    baseHandler op (top ++ rest) = baseHandler op rest := by
  induction top with
  | nil => rfl
  | cons l top ih =>
    rw [List.cons_append, baseHandler, if_neg (htop l List.mem_cons_self)]
    exact ih fun l' hl' => htop l' (List.mem_cons_of_mem _ hl')

/-- A list with an element that satisfies `p` has a last one. -/
private theorem exists_last_provider {p : LayerConfig → Prop} {layers : List LayerConfig}
    (h : ∃ l ∈ layers, p l) :
    ∃ pre l post, layers = pre ++ l :: post ∧ p l ∧ ∀ l' ∈ post, ¬ p l' := by
  induction layers with
  | nil => simp at h
  | cons first rest ih =>
    by_cases hrest : ∃ l ∈ rest, p l
    · obtain ⟨pre, l, post, rfl, hl, hpost⟩ := ih hrest
      exact ⟨first :: pre, l, post, rfl, hl, hpost⟩
    · obtain ⟨l, hmem, hl⟩ := h
      rcases List.mem_cons.mp hmem with rfl | hmem
      · exact ⟨[], l, rest, rfl, hl, fun l' hl' hp => hrest ⟨l', hl', hp⟩⟩
      · exact absurd ⟨l, hmem, hl⟩ hrest

/-- When no hook lies above the base, the intended path is the base alone. -/
theorem requestPath_eq_base {op : Op} {layers : List LayerConfig}
    (hcover : ∀ above layer below, layers = above ++ layer :: below → op ∈ layer.hooks →
      ∃ l ∈ above, op ∈ l.assigns) :
    requestPath op layers = (baseHandler op layers).toList := by
  induction layers with
  | nil => rfl
  | cons layer below ih =>
    by_cases hassign : op ∈ layer.assigns
    · simp only [requestPath, baseHandler, if_pos hassign]
    · have hhook : op ∉ layer.hooks := by
        intro h
        obtain ⟨l, hl, _⟩ := hcover [] layer below rfl h
        simp at hl
      simp only [requestPath, baseHandler, if_neg hassign, if_neg hhook]
      apply ih
      intro above l rest heq h
      obtain ⟨l', hl', hassign'⟩ := hcover (layer :: above) l rest (by rw [heq]; rfl) h
      rcases List.mem_cons.mp hl' with rfl | hl'
      · exact absurd hassign' hassign
      · exact ⟨l', hl', hassign'⟩

/-- A slot that holds a base function or nothing is visited alone. -/
theorem traverses_base {stack : Stack} {op : Op} {slot : Option Handler}
    (hbase : ∀ h, slot = some h → h.owner.isStacked = false) :
    Traverses stack op slot slot.toList := by
  cases slot with
  | none => exact .null
  | some h => exact .base (hbase h rfl)

/-- **Layer composition.** A composed stack treats an operation as stacking intends
exactly when every layer that hooks the operation lies below a later layer that
assigns it directly, so that its hook was to be hidden anyway. -/
theorem composedAsStacked_iff {layers : List LayerConfig} {stack : Stack}
    (hok : compose layers = .ok stack) (op : Op) :
    ComposedAsStacked layers stack op ↔
      ∀ below layer above, layers = below ++ layer :: above → op ∈ layer.hooks →
        ∃ l ∈ above, op ∈ l.assigns := by
  constructor
  · intro hcomposed below layer above hlayers hhook
    by_contra hnone
    have hprovider : ∃ l ∈ layer :: above, l.Provides op :=
      ⟨layer, List.mem_cons_self, Or.inl hhook⟩
    obtain ⟨pre, last, post, hsplit, hlast, hpost⟩ := exists_last_provider hprovider
    have hnotAssigns : op ∉ last.assigns := by
      have hmem : last ∈ layer :: above := by rw [hsplit]; simp
      rcases List.mem_cons.mp hmem with rfl | hmem
      · exact (LayerConfig.stacked_of_hooks hhook).1
      · exact fun h => hnone ⟨last, hmem, h⟩
    obtain ⟨owner, howner, hstacked⟩ :=
      (LayerConfig.stacked_of_hooks (hlast.resolve_right hnotAssigns)).2
    have htop := hcomposed.top (below ++ pre) last post
      (by rw [hlayers, hsplit, List.append_assoc]) hlast hpost
    rw [compose_operations hok, LayerConfig.handler, howner] at htop
    have := baseHandler_isBase htop
    simp [hstacked] at this
  · intro hcover
    have hlastAssigns : ∀ below layer above, layers = below ++ layer :: above →
        (∀ l ∈ above, ¬ l.Provides op) → op ∉ layer.hooks := by
      intro below layer above hlayers habove hhook
      obtain ⟨l, hl, hassign⟩ := hcover below layer above hlayers hhook
      exact habove l hl (Or.inr hassign)
    have hpath : requestPath op layers.reverse = (stack.operations op).toList := by
      rw [compose_operations hok]
      apply requestPath_eq_base
      intro above layer below heq hhook
      have hlayers : layers = below.reverse ++ layer :: above.reverse := by
        rw [← List.reverse_reverse layers, heq]
        simp
      obtain ⟨l, hl, hassign⟩ := hcover _ _ _ hlayers hhook
      exact ⟨l, List.mem_reverse.mp hl, hassign⟩
    refine ⟨?_, ?_, ?_⟩
    · intro below layer above hlayers hprovides habove
      have hassign := hprovides.resolve_left (hlastAssigns below layer above hlayers habove)
      rw [compose_operations hok, hlayers]
      simp only [List.reverse_append, List.reverse_cons, List.append_assoc, List.cons_append,
        List.nil_append]
      rw [baseHandler_append fun l hl h => habove l (List.mem_reverse.mp hl) (Or.inr h),
        baseHandler, if_pos hassign]
    · intro below layer above hlayers hhook habove
      exact absurd hhook (hlastAssigns below layer above hlayers habove)
    · rw [hpath]
      apply traverses_base
      intro h hslot
      rw [compose_operations hok] at hslot
      exact baseHandler_isBase hslot

/-- The composition of a local layer alone meets the condition for `getattr`. -/
theorem composedAsStacked_local : ∃ stack, compose [.local {}] = .ok stack ∧
    ComposedAsStacked [.local {}] stack .getattr := by
  refine ⟨_, rfl, (composedAsStacked_iff rfl .getattr).mpr ?_⟩
  intro below layer above hlayers hhook
  have hmem : layer ∈ [LayerConfig.local {}] := by rw [hlayers]; simp
  rw [List.mem_singleton.mp hmem] at hhook
  simp [LayerConfig.hooks] at hhook

/-- A metadata cache over a local layer: its `getattr` hook is never installed. -/
theorem not_composedAsStacked : ¬ ∀ layers stack op, compose layers = .ok stack →
    ComposedAsStacked layers stack op := by
  intro hall
  have hok : compose [.local {}, .metadataCache {}] = .ok
      ⟨initLocal {} Stack.empty.operations, fun m => if m = .metadataCache then
        initLocal {} Stack.empty.operations else Stack.empty.nextLayer m⟩ := rfl
  have htop := (hall _ _ .getattr hok).top [.local {}] (.metadataCache {}) [] rfl
    (Or.inl (by decide)) (by simp)
  have hslot : initLocal {} Stack.empty.operations .getattr =
      some ⟨.localOperations, .getattr⟩ := by decide
  exact absurd (hslot.symm.trans htop) (by decide)

end RSafeFS
