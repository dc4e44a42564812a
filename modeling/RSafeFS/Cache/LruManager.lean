import RSafeFS.Cache.EvictionPolicy
import RSafeFS.Lib.Transition
import RSafeFS.Lib.History

/-!
# What the `lru` driver evicts

`lru_cache_manager` keeps no times. Its list has the order of the latest touches all the
same, since a touch moves its key to the front and nothing else moves a key. The runs of
this file record the calls, and the order of the list is read off from the record.
-/

namespace RSafeFS

variable {κ : Type} [DecidableEq κ]

/-- A call on the manager that has returned. -/
inductive LruEvent (κ : Type) where
  | touched (t : κ)
  | removed (t : κ)
  | evicted (t : Option κ)
  deriving DecidableEq

/-- The calls on the manager. Each holds `mtx_` from its start to its end. -/
inductive LruCall (κ : Type) where
  | touch (t : κ)
  | remove (t : κ)
  | evict

/-- A manager with the calls made on it, the latest first. -/
structure LruRun (κ : Type) where
  manager : LruState κ
  history : List (LruEvent κ)

/-- A new manager. -/
def LruRun.initial : LruRun κ := ⟨LruState.empty, []⟩

/-- One call. -/
def LruRun.step (s : LruRun κ) : LruCall κ → Option (LruRun κ)
  | .touch t => some ⟨s.manager.touch t, .touched t :: s.history⟩
  | .remove t => some ⟨s.manager.remove t, .removed t :: s.history⟩
  | .evict => some ⟨s.manager.evict.2, .evicted s.manager.evict.1 :: s.history⟩

/-- The event is a touch of the key. -/
def LruEvent.touches (k : κ) (event : LruEvent κ) : Bool := decide (event = .touched k)

/-- The event removes or evicts the key. -/
def LruEvent.drops (k : κ) (event : LruEvent κ) : Bool :=
  decide (event = .removed k ∨ event = .evicted (some k))

/-- The key has been touched, and it has not been removed or evicted since. -/
def Live (history : List (LruEvent κ)) (k : κ) : Prop :=
  History.latest (LruEvent.drops k) history < History.latest (LruEvent.touches k) history

variable {history : List (LruEvent κ)} {k t : κ}

/-- A touch makes its key live and leaves the others. -/
theorem live_touched : Live (.touched t :: history) k ↔ k = t ∨ Live history k := by
  unfold Live
  have hdrops : ¬ LruEvent.drops k (.touched t : LruEvent κ) = true := by simp [LruEvent.drops]
  by_cases hk : k = t
  · subst hk
    exact iff_of_true (History.latest_lt_cons (by simp [LruEvent.touches]) hdrops) (Or.inl rfl)
  · have htouches : ¬ LruEvent.touches k (.touched t) = true := by
      simpa [LruEvent.touches] using Ne.symm hk
    rw [History.latest_cons_of_neg hdrops, History.latest_cons_of_neg htouches]
    simp [hk]

/-- A removal or an eviction of a key ends its life and leaves the others. -/
theorem live_dropped {event : LruEvent κ} (h : event = .removed t ∨ event = .evicted (some t)) :
    Live (event :: history) k ↔ k ≠ t ∧ Live history k := by
  unfold Live
  have htouches : ¬ LruEvent.touches k event = true := by
    rcases h with rfl | rfl <;> simp [LruEvent.touches]
  by_cases hk : k = t
  · subst hk
    have hdrops : LruEvent.drops k event = true := by simpa [LruEvent.drops] using h
    refine iff_of_false (fun hlive => ?_) fun hne => hne.1 rfl
    exact Nat.lt_asymm hlive (History.latest_lt_cons hdrops htouches)
  · have hdrops : ¬ LruEvent.drops k event = true := by
      rcases h with rfl | rfl <;> simpa [LruEvent.drops] using Ne.symm hk
    rw [History.latest_cons_of_neg hdrops, History.latest_cons_of_neg htouches]
    simp [hk]

/-- An `evict` that returns nothing changes no key. -/
theorem live_evicted_none : Live (.evicted none :: history) k ↔ Live history k := by
  unfold Live
  rw [History.latest_cons_of_neg (by simp [LruEvent.drops]),
    History.latest_cons_of_neg (by simp [LruEvent.touches])]

/-- What the manager maintains: its own representation, the live keys, and the order of
their latest touches. -/
structure LruRun.Ordered (s : LruRun κ) : Prop where
  valid : s.manager.Valid
  live : ∀ k, k ∈ s.manager.map ↔ Live s.history k
  order : s.manager.keys.Pairwise fun front back =>
    History.latest (LruEvent.touches back.2) s.history <
      History.latest (LruEvent.touches front.2) s.history

variable {s s' : LruRun κ} {call : LruCall κ}

/-- Some event other than a touch of the keys in the list leaves their order. -/
theorem LruRun.Ordered.order_cons (h : s.Ordered) {keys : List (ℕ × κ)}
    (hsub : keys.Sublist s.manager.keys) {event : LruEvent κ}
    (hevent : ∀ entry ∈ keys, event ≠ .touched entry.2) :
    keys.Pairwise fun front back =>
      History.latest (LruEvent.touches back.2) (event :: s.history) <
        History.latest (LruEvent.touches front.2) (event :: s.history) := by
  have hsame : ∀ entry ∈ keys, History.latest (LruEvent.touches entry.2) (event :: s.history) =
      History.latest (LruEvent.touches entry.2) s.history := fun entry hentry =>
    History.latest_cons_of_neg (by simpa [LruEvent.touches] using hevent entry hentry)
  refine List.Pairwise.imp_of_mem ?_ (h.order.sublist hsub)
  intro front back hfront hback hlt
  rwa [hsame front hfront, hsame back hback]

/-- A touch puts its key in front of the others. -/
theorem LruRun.Ordered.touch (h : s.Ordered) (t : κ) :
    LruRun.Ordered ⟨s.manager.touch t, .touched t :: s.history⟩ := by
  have hunlinked := h.valid.mem_unlinked t
  have hsub := LruState.unlinked_sublist t s.manager
  refine ⟨h.valid.touch t, fun k => ?_, ?_⟩
  · exact (AList.mem_insert _).trans ((or_congr_right (h.live k)).trans live_touched.symm)
  · have hother := fun entry hentry => ((hunlinked entry).mp hentry).2
    refine List.pairwise_cons.mpr ⟨fun entry hentry => ?_, ?_⟩
    · exact History.latest_lt_cons (by simp [LruEvent.touches])
        (by simpa [LruEvent.touches] using Ne.symm (hother entry hentry))
    · exact h.order_cons hsub fun entry hentry heq =>
        hother entry hentry (LruEvent.touched.inj heq).symm

/-- A key that is removed or evicted leaves the order of the others. -/
theorem LruRun.Ordered.drop (h : s.Ordered) {t : κ} {event : LruEvent κ}
    (hevent : event = .removed t ∨ event = .evicted (some t)) :
    LruRun.Ordered ⟨s.manager.remove t, event :: s.history⟩ := by
  have hsub : (s.manager.remove t).keys.Sublist s.manager.keys := by
    unfold LruState.remove
    split
    · exact List.eraseP_sublist
    · exact List.Sublist.refl _
  refine ⟨h.valid.remove t, fun k => ?_, ?_⟩
  · rw [LruState.mem_remove, h.live, live_dropped hevent]
  · refine h.order_cons hsub fun entry _ heq => ?_
    rcases hevent with rfl | rfl <;> cases heq

/-- An `evict` that returns nothing leaves the manager as it is. -/
theorem LruRun.Ordered.evict_none (h : s.Ordered) :
    LruRun.Ordered ⟨s.manager, .evicted none :: s.history⟩ :=
  ⟨h.valid, fun k => (h.live k).trans live_evicted_none.symm,
    h.order_cons (List.Sublist.refl _) fun _ _ heq => by cases heq⟩

/-- What `evict` returns, and the manager that it leaves. -/
theorem LruState.Valid.evict_cases {m : LruState κ} (h : m.Valid) :
    (m.evict = (none, m) ∧ m.keys = [] ∧ ∀ k, k ∉ m.map) ∨
      ∃ node t, m.keys = m.keys.dropLast ++ [(node, t)] ∧ m.evict = (some t, m.remove t) ∧
        (m.remove t).keys = m.keys.dropLast := by
  cases hevict : m.evict with
  | mk selected m' =>
    cases selected with
    | none =>
      have hnot := lruEviction_frees.exhausted m m' h hevict
      have hkeys : m.keys = [] := by
        rw [List.eq_nil_iff_forall_not_mem]
        rintro ⟨node, k⟩ hmem
        exact hnot k (AList.lookup_isSome.mp (by rw [(h.lookup k node).mpr hmem]; rfl))
      have hempty : m.map.keys = [] := by
        rw [List.eq_nil_iff_forall_not_mem]
        exact fun k hk => hnot k (AList.mem_keys.mp hk)
      rw [LruState.evict, if_pos hempty] at hevict
      obtain ⟨-, rfl⟩ := Prod.mk.inj hevict
      exact Or.inl ⟨rfl, hkeys, hnot⟩
    | some t =>
      obtain rfl := h.evict hevict
      refine Or.inr ?_
      simp only [LruState.evict] at hevict
      split at hevict
      · cases hevict
      · split at hevict
        · next node t' hlast =>
          obtain ⟨rfl, hleft⟩ := Prod.mk.inj hevict |>.imp_left Option.some.inj
          exact ⟨node, t', (List.dropLast_append_getLast? _ hlast).symm, rfl,
            (congrArg LruState.keys hleft).symm⟩
        · cases hevict

/-- **Step lemma.** Every call keeps the order. -/
theorem LruRun.Ordered.step (h : s.Ordered) (hstep : s.step call = some s') : s'.Ordered := by
  cases call with
  | touch t =>
    obtain rfl := Option.some.inj hstep
    exact h.touch t
  | remove t =>
    obtain rfl := Option.some.inj hstep
    exact h.drop (Or.inl rfl)
  | evict =>
    obtain rfl := Option.some.inj hstep
    rcases h.valid.evict_cases with ⟨hnone, -⟩ | ⟨node, t, -, hsome, -⟩
    · rw [hnone]
      exact h.evict_none
    · rw [hsome]
      exact h.drop (Or.inr rfl)

/-- In every run the list is ordered. -/
theorem ordered_of_run {calls : List (LruCall κ)}
    (hrun : Transition.run LruRun.step LruRun.initial calls = some s) : s.Ordered := by
  have hinitial : (LruRun.initial : LruRun κ).Ordered := by
    refine ⟨LruState.valid_empty, fun k => ?_, List.Pairwise.nil⟩
    exact iff_of_false (AList.notMem_empty k) (Nat.lt_irrefl 0)
  exact Transition.invariant_of_forall (fun _ _ _ h hstep => h.step hstep) hrun hinitial

/-- A key that has been touched is live, or was removed or evicted after its latest touch. -/
theorem not_live_iff (htouched : .touched k ∈ history) :
    ¬ Live history k ↔
      History.latest (LruEvent.touches k) history < History.latest (LruEvent.drops k) history := by
  have hpos : 0 < History.latest (LruEvent.touches k) history :=
    History.latest_pos.mpr ⟨_, htouched, by simp [LruEvent.touches]⟩
  have hdisjoint : ∀ event, LruEvent.touches k event = true → ¬ LruEvent.drops k event = true := by
    intro event hevent
    obtain rfl : event = .touched k := by simpa [LruEvent.touches] using hevent
    simp [LruEvent.drops]
  have hne := History.latest_ne hdisjoint hpos
  unfold Live
  omega

/-- A live key has been touched. -/
theorem Live.touched (h : Live history k) : .touched k ∈ history := by
  obtain ⟨event, hevent, htouches⟩ := History.latest_pos.mp (Nat.zero_lt_of_lt h)
  obtain rfl : event = .touched k := by simpa [LruEvent.touches] using htouches
  exact hevent

/-- The keys of the list are distinct. -/
theorem LruRun.Ordered.nodup (h : s.Ordered) : (s.manager.keys.map Prod.snd).Nodup := by
  refine List.pairwise_map.mpr (h.order.imp ?_)
  rintro front back hlt heq
  rw [heq] at hlt
  exact Nat.lt_irrefl _ hlt

/-- The last key of the list was touched before every other key of it. -/
theorem LruRun.Ordered.oldest (h : s.Ordered) {keys : List (ℕ × κ)} {node : ℕ} {t : κ}
    (hkeys : s.manager.keys = keys ++ [(node, t)]) :
    Live s.history t ∧ ∀ k, Live s.history k → k ≠ t →
      History.latest (LruEvent.touches t) s.history <
        History.latest (LruEvent.touches k) s.history := by
  have hlive : ∀ k, Live s.history k ↔ ∃ node, (node, k) ∈ s.manager.keys := by
    intro k
    rw [← h.live, ← AList.lookup_isSome, Option.isSome_iff_exists]
    exact exists_congr fun node => h.valid.lookup k node
  refine ⟨(hlive t).mpr ⟨node, by simp [hkeys]⟩, fun k hk hne => ?_⟩
  obtain ⟨node', hmem⟩ := (hlive k).mp hk
  have horder := h.order
  rw [hkeys] at hmem horder
  rcases List.mem_append.mp hmem with hfront | hlast
  · exact (List.pairwise_append.mp horder).2.2 _ hfront _ (List.mem_singleton_self _)
  · exact absurd (Prod.mk.inj (List.mem_singleton.mp hlast)).2 hne

/-- **The manager evicts the key touched longest ago.** After every sequence of calls the list
has no key twice and the map sends each of its keys to its own node. An `evict` returns
nothing if all keys were removed or evicted after their latest touches, and else takes the
live key with the oldest latest touch. -/
theorem evicts_oldest {calls : List (LruCall κ)}
    (hrun : Transition.run LruRun.step LruRun.initial calls = some s) :
    ((s.manager.keys.map Prod.snd).Nodup ∧ (s.manager.keys.map Prod.fst).Nodup ∧
      ∀ k node, s.manager.map.lookup k = some node ↔ (node, k) ∈ s.manager.keys) ∧
    (s.manager.evict.1 = none ↔ ∀ k, .touched k ∈ s.history →
      History.latest (LruEvent.touches k) s.history <
        History.latest (LruEvent.drops k) s.history) ∧
    ∀ t, s.manager.evict.1 = some t →
      (Live s.history t ∧ ∀ k, Live s.history k → k ≠ t →
        History.latest (LruEvent.touches t) s.history <
          History.latest (LruEvent.touches k) s.history) ∧
      (∀ k, k ∈ s.manager.evict.2.map ↔ k ≠ t ∧ k ∈ s.manager.map) ∧
      s.manager.evict.2.keys = s.manager.keys.dropLast ∧
      t ∉ s.manager.evict.2.keys.map Prod.snd := by
  have h := ordered_of_run hrun
  refine ⟨⟨h.nodup, h.valid.nodup, h.valid.lookup⟩, ?_⟩
  rcases h.valid.evict_cases with ⟨hnone, -, hnot⟩ | ⟨node, t, hkeys, hsome, hdropped⟩
  · rw [hnone]
    refine ⟨iff_of_true rfl fun k hk => (not_live_iff hk).mp fun hlive => ?_, fun t ht => by cases ht⟩
    exact hnot k ((h.live k).mpr hlive)
  · obtain ⟨hlive, holdest⟩ := h.oldest hkeys
    rw [hsome]
    refine ⟨iff_of_false (by simp) fun hall => ?_, fun t' ht' => ?_⟩
    · exact (not_live_iff hlive.touched).mpr (hall t hlive.touched) hlive
    · obtain rfl := Option.some.inj ht'
      refine ⟨⟨hlive, holdest⟩, LruState.mem_remove t s.manager, hdropped, ?_⟩
      have hnodup := h.nodup
      rw [hkeys, List.map_append, List.nodup_append] at hnodup
      rw [hdropped]
      exact fun hmem => hnodup.2.2 t hmem t (by simp) rfl

/-- `2` is touched first, but `1` is touched again and `3` is removed. -/
def retouched : List (LruCall ℕ) :=
  [.touch 2, .touch 1, .touch 3, .touch 1, .touch 2, .remove 3, .touch 1]

/-- The next `evict` takes `2`. -/
theorem evicts_oldest_retouched : ∃ s, Transition.run LruRun.step LruRun.initial retouched = some s ∧
    s.manager.evict.1 = some 2 ∧ s.manager.keys.map Prod.snd = [1, 2] ∧
    Live s.history 2 ∧ 2 ∉ s.manager.evict.2.keys.map Prod.snd := by
  obtain ⟨s, hrun, hevict, hkeys⟩ : ∃ s, Transition.run LruRun.step LruRun.initial retouched =
      some s ∧ s.manager.evict.1 = some 2 ∧ s.manager.keys.map Prod.snd = [1, 2] := ⟨_, rfl, rfl, rfl⟩
  obtain ⟨⟨hlive, -⟩, -, -, hgone⟩ := (evicts_oldest hrun).2.2 2 hevict
  exact ⟨s, hrun, hevict, hkeys, hlive, hgone⟩

end RSafeFS
