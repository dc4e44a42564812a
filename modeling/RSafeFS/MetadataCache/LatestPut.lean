import RSafeFS.MetadataCache.Threads

/-!
# The latest attributes

`cache::put` inserts with `emplace`, which keeps an entry that is there. So a second `put` of
a path leaves the attributes of the first in the cache, together with their time, unless the
eviction of the same call takes them away. This file says in which runs a `get` still returns
what was put last.
-/

namespace RSafeFS.MetadataCache

/-- The attributes are those of the latest `put` of the path. -/
def LatestPut (history : List Event) (path : PathName) (stbuf : Stat) : Prop :=
  ∃ later time earlier, history = later ++ .put path stbuf time :: earlier ∧
    ∀ stbuf' time', .put path stbuf' time' ∉ later

/-- Every `get` that has returned attributes returned those put last, and so would a `get` of
any path now. -/
structure LatestWins {ρ : Type} (timeOut : ℤ) (s : Threads ρ) : Prop where
  hits : ∀ after path stbuf time before, s.history = after ++ .hit path stbuf time :: before →
    LatestPut before path stbuf
  next : ∀ path m, s.cache.lookup path = some m → m.isValid timeOut s.now = true →
    LatestPut s.history path m.stbuf

variable {ρ : Type} {config : MetadataCacheConfig} {policy : EvictionPolicy PathName ρ}

/-- A `put` whose attributes are lost: the eviction leaves a valid entry of its path, which
has others. -/
def Loses (config : MetadataCacheConfig) (policy : EvictionPolicy PathName ρ) (s : Threads ρ) :
    ThreadAction → Prop
  | .put _ path stbuf => ∃ m, (s.cache.makeRoom config policy).lookup path = some m ∧
      m.isValid config.timeOut s.now = true ∧ m.stbuf ≠ stbuf
  | _ => False

variable {history : List Event} {path : PathName} {stbuf : Stat}

/-- What was put just now was put last. -/
theorem latestPut_put (time : ℤ) : LatestPut (.put path stbuf time :: history) path stbuf :=
  ⟨[], time, history, rfl, fun _ _ => List.not_mem_nil⟩

/-- An event that is no `put` of the path leaves what was put last. -/
theorem LatestPut.cons (h : LatestPut history path stbuf) {event : Event}
    (hevent : ∀ stbuf' time, event ≠ .put path stbuf' time) :
    LatestPut (event :: history) path stbuf := by
  obtain ⟨later, time, earlier, rfl, hlater⟩ := h
  refine ⟨event :: later, time, earlier, rfl, fun stbuf' time' hmem => ?_⟩
  rcases List.mem_cons.mp hmem with heq | hmem
  · exact hevent stbuf' time' heq.symm
  · exact hlater stbuf' time' hmem

/-- Of two `put`s of a path one is the last. -/
theorem LatestPut.eq_of_put {stbuf' : Stat} {time : ℤ}
    (h : LatestPut (.put path stbuf' time :: history) path stbuf) : stbuf = stbuf' := by
  obtain ⟨later, time', earlier, hsplit, hlater⟩ := h
  cases later with
  | nil => exact (Event.put.inj (List.cons.inj hsplit).1).2.1.symm
  | cons first later =>
    obtain ⟨rfl, -⟩ := List.cons.inj hsplit
    exact absurd List.mem_cons_self (hlater stbuf' time)

/-- An entry that is valid has been so before. -/
theorem Metadata.isValid_of_le {m : Metadata} {timeOut now later : ℤ} (hle : now ≤ later)
    (hvalid : m.isValid timeOut later = true) : m.isValid timeOut now = true := by
  unfold Metadata.isValid at hvalid ⊢
  split at hvalid
  · next hpos =>
    rw [if_pos hpos, decide_eq_true_eq]
    have hage := Int.tdiv_le_tdiv (c := 1000000000) (by decide)
      (Int.sub_le_sub_right hle m.timestamp)
    exact lt_of_le_of_lt hage (of_decide_eq_true hvalid)
  · next hpos => rw [if_neg hpos]

/-- The entry that a `put` leaves for its path. -/
theorem lookup_put_self (path : PathName) (stbuf : Stat) (now : ℤ) (c : Cache ρ) :
    (c.put config policy path stbuf now).lookup path =
      some (((c.makeRoom config policy).lookup path).getD ⟨stbuf, now⟩) := by
  simp only [Cache.put, Cache.lookup]
  cases hlookup : (c.makeRoom config policy).entries.lookup path with
  | some m => exact hlookup
  | none => exact AList.lookup_insert _

variable {s t : Threads ρ} {a : ThreadAction}

/-- After a `put` that is not lost, a `get` of any path returns what was put last. -/
theorem LatestWins.put (h : LatestWins config.timeOut s) {thread : ℕ} {path : PathName}
    {stbuf : Stat} (hkept : ¬ Loses config policy s (.put thread path stbuf)) :
    LatestWins config.timeOut { s with
      cache := s.cache.put config policy path stbuf s.now
      history := .put path stbuf s.now :: s.history } := by
  refine ⟨forall_hits_cons h.hits fun _ _ _ heq => (by cases heq), fun q m hm hvalid => ?_⟩
  by_cases hq : q = path
  · subst hq
    have hself := (lookup_put_self q stbuf s.now s.cache).symm.trans hm
    obtain rfl : m.stbuf = stbuf := by
      cases hroom : (s.cache.makeRoom config policy).lookup q with
      | none =>
        rw [hroom] at hself
        exact (congrArg Metadata.stbuf (Option.some.inj hself)).symm
      | some m' =>
        rw [hroom] at hself
        obtain rfl : m' = m := Option.some.inj hself
        by_contra hne
        exact hkept ⟨m', hroom, hvalid, hne⟩
    exact latestPut_put s.now
  · rcases lookup_of_put hm with hold | ⟨heq, -⟩
    · exact (h.next q m hold hvalid).cons fun _ _ heq => hq (Event.put.inj heq).1.symm
    · exact absurd heq hq

/-- **Step lemma.** A step leads on to a state in which every `get` returns what was put last
exactly if it is no `put` whose attributes are lost. -/
theorem latestWins_step (h : LatestWins config.timeOut s)
    (hstep : s.step config policy a = some t) :
    LatestWins config.timeOut t ↔ ¬ Loses config policy s a := by
  cases steps_of_step hstep with
  | @put thread path stbuf =>
    refine ⟨?_, h.put⟩
    rintro hwins ⟨m, hroom, hvalid, hne⟩
    have hself : (s.cache.put config policy path stbuf s.now).lookup path = some m := by
      rw [lookup_put_self, hroom, Option.getD_some]
    exact hne (hwins.next path m hself hvalid).eq_of_put
  | miss => exact iff_of_true h id
  | @hit thread path m hm hvalid =>
    refine iff_of_true ⟨forall_hits_cons h.hits fun path' stbuf time heq => ?_, ?_⟩ id
    · obtain ⟨rfl, rfl, -⟩ := Event.hit.inj heq
      exact h.next path m hm hvalid
    · exact fun q m' hm' hvalid' => (h.next q m' hm' hvalid').cons (by simp)
  | expired => exact iff_of_true ⟨h.hits, h.next⟩ id
  | expire =>
    exact iff_of_true ⟨h.hits, fun q m hm => h.next q m (lookup_of_remove hm).2⟩ id
  | remove =>
    refine iff_of_true ⟨forall_hits_cons h.hits fun _ _ _ heq => (by cases heq), ?_⟩ id
    exact fun q m hm hvalid => (h.next q m (lookup_of_remove hm).2 hvalid).cons (by simp)
  | tick hnow =>
    exact iff_of_true ⟨h.hits, fun q m hm hvalid => h.next q m hm
      (Metadata.isValid_of_le hnow hvalid)⟩ id

/-- A `put` leaves the entries of other paths, but for one that it may evict from a full
cache. -/
theorem put_others (config : MetadataCacheConfig) (policy : EvictionPolicy PathName ρ)
    (c : Cache ρ) (path : PathName) (stbuf : Stat) (now : ℤ) :
    ∃ evicted : Option PathName, (evicted ≠ none → config.size ≤ c.entries.keys.length) ∧
      ∀ q, q ≠ path → evicted ≠ some q →
        (c.put config policy path stbuf now).lookup q = c.lookup q := by
  have hroom (q : PathName) (hq : q ≠ path) : (c.put config policy path stbuf now).lookup q =
      (c.makeRoom config policy).lookup q := by
    simp only [Cache.put, Cache.lookup]
    split
    · rfl
    · exact AList.lookup_insert_ne hq
  by_cases hfull : config.size ≤ c.entries.keys.length
  · refine ⟨(policy.evict c.policyState).1, fun _ => hfull, fun q hq hne => ?_⟩
    rw [hroom q hq, Cache.makeRoom, if_pos hfull]
    split
    · next selected state hevict =>
      rw [hevict] at hne
      exact AList.lookup_erase_ne fun heq => hne (congrArg some heq.symm)
    · rfl
  · refine ⟨none, fun hne => absurd rfl hne, fun q hq _ => ?_⟩
    rw [hroom q hq, Cache.makeRoom, if_neg hfull]

/-- **When the latest `put` wins.** In a run of any threads, with any policy and size, every
`get` returns the attributes that were put last exactly if no `put` finds a valid entry of its
path with others, after the eviction that it may make. Each `put` leaves the entries of other
paths, but for one that it may evict from a full cache. -/
theorem latestWins_iff (config : MetadataCacheConfig) (policy : EvictionPolicy PathName ρ)
    (policyState : ρ) (now : ℤ) :
    (∀ (actions : List ThreadAction) (s : Threads ρ),
      Transition.run (Threads.step config policy) (Threads.initial policyState now) actions =
        some s →
      (Transition.Always (Threads.step config policy) (LatestWins config.timeOut)
          (Threads.initial policyState now) actions ↔
        Transition.Meets (Threads.step config policy) (fun s a => ¬ Loses config policy s a)
          (Threads.initial policyState now) actions)) ∧
    ∀ (c : Cache ρ) (path : PathName) (stbuf : Stat) (now : ℤ),
      ∃ evicted : Option PathName, (evicted ≠ none → config.size ≤ c.entries.keys.length) ∧
        ∀ q, q ≠ path → evicted ≠ some q →
          (c.put config policy path stbuf now).lookup q = c.lookup q := by
  refine ⟨fun actions s hrun => ?_, put_others config policy⟩
  refine Transition.always_iff_meets (fun s a t h hstep => latestWins_step h hstep) hrun ⟨?_, ?_⟩
  · simp [Threads.initial]
  · simp [Threads.initial, Cache.lookup]

/-- Room for two entries that are valid for ever. -/
def roomForTwo : MetadataCacheConfig := { size := 2, timeOut := 0 }

/-- Two threads put attributes of `/a` that they have fetched at different times. -/
def putTwice : List ThreadAction :=
  [.put 0 ['/', 'a'] default, .put 1 ['/', 'a'] threeBytes, .get 0 ['/', 'a']]

/-- The `get` returns those that were put first. -/
theorem not_latestWins : ∃ s, Transition.run (Threads.step roomForTwo lruEviction)
      (Threads.initial LruState.empty 0) putTwice = some s ∧
    s.history = [.hit ['/', 'a'] default 0, .put ['/', 'a'] threeBytes 0, .put ['/', 'a'] default 0] ∧
    ¬ LatestPut [.put ['/', 'a'] threeBytes 0, .put ['/', 'a'] default 0] ['/', 'a'] default := by
  refine ⟨_, rfl, rfl, fun h => ?_⟩
  exact absurd (congrArg Stat.size h.eq_of_put) (by decide)

/-- With room for one entry the second `put` evicts the first. -/
theorem latestWins_iff_putTwice : Transition.Always (Threads.step oneSecond lruEviction)
    (LatestWins oneSecond.timeOut) (Threads.initial LruState.empty 0) putTwice := by
  have hrun : Transition.run (Threads.step oneSecond lruEviction)
      (Threads.initial LruState.empty 0) putTwice = some _ := rfl
  refine ((latestWins_iff oneSecond lruEviction LruState.empty 0).1 putTwice _ hrun).mpr ?_
  refine .cons ?_ rfl (.cons ?_ rfl (.cons id rfl trivial))
  · rintro ⟨m, hm, -⟩
    cases hm
  · rintro ⟨m, hm, -⟩
    cases hm

end RSafeFS.MetadataCache
