import RSafeFS.Stack.ClientStack

/-!
# What a read through the whole client can see

The layers below the data cache answer from the past: the metadata cache as long as its entries
last, and the read-ahead cache as long as a path has its window. An open removes the entry of its
path before it asks for the attributes, so those it finds are not older than itself unless a
`getattr` that was under way before puts its answer in between. Over opens and releases that do not
overlap, a window is not older than they are. The runs of the stack are then runs of
`SharedVersions`.
-/

namespace RSafeFS.Stack

open ByteFile DataCache

variable {σ ρ ρ' : Type}

/-- A timeline by moments, as one of the states at these moments. -/
def timelineOver (timeline : Timeline ℤ) (time : σ → ℤ) : Timeline σ :=
  ⟨timeline.version, fun w => timeline.current (time w)⟩

variable (config : StackConfig) (timeline : Timeline ℤ) (time : σ → ℤ)

/-- What is required of the layer below all caches: it reads the version of the moment, reports its
modification time, and time does not run backwards. Different versions have different times. -/
structure Grounded (lower : ReadLayer σ) : Prop where
  read : ∀ path w, ReadsExactly lower path ((timelineOver timeline time).content w path) w
  getattr : ∀ path w, 0 ≤ (lower.getattr path w).1 → (lower.getattr path w).2.mtim =
    (timeline.version path (timeline.current (time w) path)).mtime
  «open» : ∀ path fi w, time w ≤ time (lower.open path fi w).2
  release : ∀ path fi w, time w ≤ time (lower.release path fi w).2
  monotone : ∀ path now later, now ≤ later →
    timeline.current now path ≤ timeline.current later path
  distinct : timeline.Distinct

/-- The clients keep to the order of calls on a file: they open a path that is not open and not
being opened, read while it is open, and release it when no read of it is under way. No `getattr`
puts attributes from before an open of the path that is under way. Requests lie within the file or
end with it, at the same place in all versions that their read can see. -/
def Client.Ordered (s : Client σ ρ ρ') : ClientAction σ → Prop
  | .open _ path _ => s.openedAt path = none ∧ ∀ i, (s.openings i).path ≠ some path
  | .put opener => ∀ path reply fetched, s.openings opener = .asked path none reply fetched →
      ∀ i entered, (s.openings i).under = some (path, entered) → entered ≤ fetched
  | .start _ path _ offset _ => ∃ opened, s.openedAt path = some opened ∧
      offset ≤ (timeline.version path (timeline.current opened.fetched path)).content.length
  | .advance thread => ∀ r p opened, (s.threads.pcs thread).reading = some r →
      s.since thread = some (p, opened) →
        r.Steady (timelineOver timeline time) s.world (timeline.current opened.fetched p)
  | .release path _ => ∀ i r, (s.threads.pcs i).reading = some r → r.path ≠ path
  | .change w => time s.world ≤ time w
  | _ => True

/-- The version that an open has found and not yet recorded. -/
def Opening.version : Opening → Option (PathName × ℕ)
  | .found path _ opened => some (path, timeline.current opened.fetched path)
  | _ => none

/-- The version that a thread goes by. -/
def sinceVersion : PathName × Opened → ℕ
  | (path, opened) => timeline.current opened.fetched path

/-- The data cache of a client, with versions in place of moments. -/
def Client.shared (s : Client σ ρ ρ') : SharedSession σ ρ where
  threads := s.threads
  world := s.world
  found := Opening.version timeline ∘ s.openings
  openedAt p := (s.openedAt p).map fun opened => timeline.current opened.fetched p
  since := Option.map (sinceVersion timeline) ∘ s.since

/-- The attributes that an open found had been fetched since the open. -/
structure Opened.Sound (now : ℤ) (opened : Opened) : Prop where
  since : opened.entered ≤ opened.fetched
  past : opened.fetched ≤ now

/-- Every entry has the modification time of the version of the moment at which it was fetched. -/
def EntriesRight (now : ℤ) (fetchedOf : PathName → ℤ) (c : MetadataCache.Cache ρ') : Prop :=
  ∀ path m, c.lookup path = some m → fetchedOf path ≤ now ∧
    m.stbuf.mtim = (timeline.version path (timeline.current (fetchedOf path) path)).mtime

/-- What a `getattr` or an open knows at its place. -/
def Opening.Right (now : ℤ) : Opening → Prop
  | .asked path entered reply fetched => fetched ≤ now ∧
      (∀ moment, entered = some moment → moment ≤ fetched) ∧
      (0 ≤ reply.1 → reply.2.mtim = (timeline.version path (timeline.current fetched path)).mtime)
  | .found path mtime opened =>
    mtime = (timeline.version path (timeline.current opened.fetched path)).mtime ∧ opened.Sound now
  | _ => True

/-- If the path of an open that has no attributes yet has an entry, it was fetched since the open. -/
def Client.Removed (s : Client σ ρ ρ') (x : Opening) : Prop :=
  ∀ path entered, x.under = some (path, entered) →
    entered ≤ time s.world ∧ ∀ m, s.attributes.lookup path = some m → entered ≤ s.fetchedOf path

/-- Every window that has been filled belongs to a path that is open, and holds its slice of a
version not older than the one that the open goes by. -/
def WindowsRight (openedAt : PathName → Option Opened) (now : ℤ) (c : ReadAhead.Cache) : Prop :=
  ∀ path b, c.buffers.lookup path = some b → b.offset = none ∨
    ∃ opened j, openedAt path = some opened ∧ timeline.current opened.fetched path ≤ j ∧
      j ≤ timeline.current now path ∧ b.Holds (timeline.version path j).content

/-- The invariant of a run. -/
structure ClientInvariant (s : Client σ ρ ρ') : Prop where
  shared : Shared config.data (timelineOver timeline time) (s.shared timeline)
  unfailing : Unfailing (s.shared timeline)
  entries : EntriesRight timeline (time s.world) s.fetchedOf s.attributes
  openings : ∀ i, (s.openings i).Right timeline (time s.world)
  removed : ∀ i, s.Removed time (s.openings i)
  alone : ∀ i path, (s.openings i).path = some path →
    s.openedAt path = none ∧ ∀ j, (s.openings j).path = some path → j = i
  recorded : ∀ path opened, s.openedAt path = some opened → opened.Sound (time s.world)
  windows : WindowsRight timeline s.openedAt (time s.world) s.ahead
  direct : ∀ i path size offset fi, s.threads.pcs i ≠ .bypassing path size offset fi
  reads : ∀ i r, (s.threads.pcs i).reading = some r →
    ∃ opened, s.since i = some (r.path, opened) ∧ s.openedAt r.path = some opened

variable {config timeline time} {policy : EvictionPolicy DataCache.Key ρ}
  {policy' : EvictionPolicy PathName ρ'} {lower : ReadLayer σ} {s t : Client σ ρ ρ'}

section Threads

variable {u v : Threads ρ}

/-- A thread that moves has returned, or goes on with its read. -/
def GoesOn (pc pc' : Pc) : Prop :=
  pc' = pc ∨ pc' = .idle ∨ ∃ r r', pc.reading = some r ∧ pc'.reading = some r' ∧ r'.path = r.path

/-- A step leaves each thread where it was, idle, or in the read it was in. -/
theorem goesOn_of_advance {thread : ℕ} {env : Env}
    (hstep : u.step config.data policy (.advance thread env) = some v) (i : ℕ) :
    GoesOn (u.pcs i) (v.pcs i) := by
  have hgoto : ∀ (u' : Threads ρ) (pc : Pc), u'.pcs = u.pcs → GoesOn (u.pcs thread) pc →
      GoesOn (u.pcs i) ((u'.goto thread pc).pcs i) := by
    intro u' pc hpcs hpc
    refine forall_goto u' thread pc (P := fun j pc => GoesOn (u.pcs j) pc) hpc (fun j _ => ?_) i
    rw [hpcs]
    exact Or.inl rfl
  have hidle : ∀ {pc : Pc}, GoesOn pc .idle := Or.inr (Or.inl rfl)
  have hcopy : ∀ (u' : Threads ρ) (r : Reading) (key : DataCache.Key) (b : Block),
      u'.pcs = u.pcs → (u.pcs thread).reading = some r →
        GoesOn (u.pcs i) ((u'.copy thread r key b).pcs i) := by
    intro u' r key b hpcs hr
    unfold Threads.copy
    dsimp only
    split_ifs
    · exact hgoto _ _ hpcs hidle
    · exact hgoto _ _ hpcs (Or.inr (Or.inr ⟨r, _, hr, rfl, rfl⟩))
    · exact hgoto _ _ hpcs hidle
  cases steps_of_step hstep with
  | bypassed | ended | dropped | fetchFailed | fetchEnded => exact hgoto _ _ rfl hidle
  | hit hpc => exact hcopy _ _ _ _ rfl (by rw [hpc]; rfl)
  | copied hpc => exact hcopy _ _ _ _ rfl (by rw [hpc]; rfl)
  | missed hpc | outdated hpc | refreshFailed hpc | refreshed hpc | touched hpc | unlocked hpc
  | removed hpc | full hpc | room hpc | evicted hpc | evictedNone hpc | discarded hpc | fetched hpc
  | found hpc | emplaced hpc | counted hpc =>
    refine hgoto _ _ rfl (Or.inr (Or.inr ⟨_, _, ?_, rfl, rfl⟩))
    rw [hpc]
    rfl

/-- A thread that fetches a block is in a read of its path. -/
theorem reading_of_fetches {thread : ℕ} {path : PathName} {size offset : ℕ}
    (h : u.fetches config.data thread = some (path, size, offset)) :
    size = config.data.blockSize ∧ ∃ r, (u.pcs thread).reading = some r ∧ r.path = path := by
  unfold Threads.fetches at h
  split at h
  · next r key hpc =>
    obtain ⟨b, -, hb⟩ := Option.map_eq_some_iff.mp h
    cases hb
    exact ⟨rfl, r, by rw [hpc]; rfl, rfl⟩
  · next r key hpc =>
    cases h
    exact ⟨rfl, r, by rw [hpc]; rfl, rfl⟩
  · cases h

/-- A thread that is not past the cache asks for blocks only. -/
theorem asked_eq_fetches {thread : ℕ}
    (h : ∀ path size offset fi, u.pcs thread ≠ .bypassing path size offset fi) :
    u.asked config.data thread = u.fetches config.data thread := by
  unfold Threads.asked Threads.fetches
  cases hpc : u.pcs thread with
  | bypassing path size offset fi => exact absurd hpc (h path size offset fi)
  | _ => rfl

end Threads

section Below

variable {now later : ℤ}

/-- Entries stay right as time goes on. -/
theorem EntriesRight.mono {fetchedOf : PathName → ℤ} {c : MetadataCache.Cache ρ'}
    (h : EntriesRight timeline now fetchedOf c) (hle : now ≤ later) :
    EntriesRight timeline later fetchedOf c := by
  intro path m hm
  obtain ⟨hpast, hmtime⟩ := h path m hm
  exact ⟨hpast.trans hle, hmtime⟩

/-- Windows stay right as time goes on. -/
theorem WindowsRight.mono (hmonotone : ∀ path now later, now ≤ later →
      timeline.current now path ≤ timeline.current later path) {c : ReadAhead.Cache}
    {openedAt : PathName → Option Opened} (h : WindowsRight timeline openedAt now c)
    (hle : now ≤ later) : WindowsRight timeline openedAt later c := by
  intro path b hb
  refine (h path b hb).imp_right ?_
  rintro ⟨opened, j, hopened, hfirst, hlast, hholds⟩
  exact ⟨opened, j, hopened, hfirst, hlast.trans (hmonotone path now later hle), hholds⟩

theorem Opened.Sound.mono {opened : Opened} (h : opened.Sound now) (hle : now ≤ later) :
    opened.Sound later :=
  ⟨h.since, h.past.trans hle⟩

theorem Opening.path_of_under {x : Opening} {path : PathName} {entered : ℤ}
    (h : x.under = some (path, entered)) : x.path = some path := by
  cases x with
  | idle | found => cases h
  | begun | missed | asked => exact congrArg (Option.map Prod.fst) h

theorem Opening.Right.mono {x : Opening} (h : x.Right timeline now) (hle : now ≤ later) :
    x.Right timeline later := by
  cases x with
  | asked => exact ⟨h.1.trans hle, h.2⟩
  | found => exact ⟨h.1, h.2.mono hle⟩
  | _ => trivial

/-- The entries after a `put`: those before it, and a new one, each with the moment of its fetch. -/
theorem lookup_of_put (config : StackConfig) (policy' : EvictionPolicy PathName ρ')
    {path q : PathName} {stbuf : Stat} {fetched : ℤ} {m : MetadataCache.Metadata}
    (hm : (s.put config policy' time path stbuf fetched).attributes.lookup q = some m) :
    (s.attributes.lookup q = some m ∧
      (s.put config policy' time path stbuf fetched).fetchedOf q = s.fetchedOf q) ∨
    (q = path ∧ m.stbuf = stbuf ∧
      (s.put config policy' time path stbuf fetched).fetchedOf q = fetched) := by
  rcases Option.eq_none_or_eq_some ((s.attributes.makeRoom config.attributes policy').lookup path)
    with hroom | ⟨m', hroom⟩
  · have hfetched : (s.put config policy' time path stbuf fetched).fetchedOf =
        Function.update s.fetchedOf path fetched := by
      unfold Client.put
      rw [hroom]
      rfl
    rw [hfetched]
    unfold MetadataCache.Cache.lookup at hroom
    simp only [Client.put, MetadataCache.Cache.put, MetadataCache.Cache.lookup, hroom] at hm
    by_cases hq : q = path
    · subst hq
      rw [AList.lookup_insert] at hm
      obtain rfl := Option.some.inj hm
      exact Or.inr ⟨rfl, rfl, Function.update_self _ _ _⟩
    · rw [AList.lookup_insert_ne hq] at hm
      exact Or.inl ⟨MetadataCache.lookup_of_makeRoom hm, Function.update_of_ne hq _ _⟩
  · have hfetched : (s.put config policy' time path stbuf fetched).fetchedOf = s.fetchedOf := by
      unfold Client.put
      rw [hroom]
      rfl
    rw [hfetched]
    unfold MetadataCache.Cache.lookup at hroom
    simp only [Client.put, MetadataCache.Cache.put, MetadataCache.Cache.lookup, hroom] at hm
    exact Or.inl ⟨MetadataCache.lookup_of_makeRoom hm, rfl⟩

/-- The version that serves a path that is open, for all reads of it that are under way. -/
theorem ClientInvariant.serves (h : ClientInvariant config timeline time s) {path : PathName}
    {opened : Opened} {j : ℕ} (hopened : s.openedAt path = some opened)
    (hfirst : timeline.current opened.fetched path ≤ j)
    (hlast : j ≤ timeline.current (time s.world) path) :
    (s.shared timeline).Serves (timelineOver timeline time) path j where
  since i r k hr hpath hk := by
    obtain ⟨opened', hsince, hopened'⟩ := h.reads i r hr
    subst hpath
    obtain rfl := Option.some.inj (hopened.symm.trans hopened')
    obtain ⟨⟨path', opened''⟩, hsince', rfl⟩ := Option.map_eq_some_iff.mp hk
    obtain ⟨rfl, rfl⟩ := Prod.mk.inj (Option.some.inj (hsince.symm.trans hsince'))
    exact hfirst
  current := hlast

/-- What a fetch through the read-ahead cache gives, exact on a version that serves, and the
windows after it. -/
theorem ClientInvariant.fetch_sound (h : ClientInvariant config timeline time s)
    (hgrounded : Grounded timeline time lower) (hblock : config.data.blockSize ≤ 2 ^ 31 - 1)
    {thread : ℕ} {reply : ℤ × Bytes} {ahead : ReadAhead.Cache}
    (hfetch : s.fetch config lower thread = some (reply, ahead)) :
    WindowsRight timeline s.openedAt (time s.world) ahead ∧
    ∀ path size offset, s.threads.fetches config.data thread = some (path, size, offset) →
      0 ≤ reply.1 ∧ ∃ j, (s.shared timeline).Serves (timelineOver timeline time) path j ∧
        ReplyOf (timeline.version path j).content size offset reply := by
  unfold Client.fetch at hfetch
  rw [asked_eq_fetches (h.direct thread)] at hfetch
  cases hasked : s.threads.fetches config.data thread with
  | none =>
    rw [hasked] at hfetch
    obtain ⟨rfl, rfl⟩ := Prod.mk.inj (Option.some.inj hfetch)
    refine ⟨h.windows, fun path size offset hnone => ?_⟩
    cases hnone
  | some request =>
    obtain ⟨path, size, offset⟩ := request
    rw [hasked] at hfetch
    obtain ⟨hsize, r, hr, rfl⟩ := reading_of_fetches hasked
    obtain ⟨opened, hsince, hopened⟩ := h.reads thread r hr
    have hpast : timeline.current opened.fetched r.path ≤ timeline.current (time s.world) r.path :=
      hgrounded.monotone _ _ _ (h.recorded _ _ hopened).past
    have hexactInt : ∀ content : Bytes, toInt (pread content size offset).length =
        (pread content size offset).length := by
      intro content
      apply toInt_of_le
      rw [length_pread]
      omega
    dsimp only at hfetch
    cases hb : s.ahead.buffers.lookup r.path with
    | none =>
      simp only [ReadAhead.Cache.read, hb] at hfetch
      cases hfetch
    | some b =>
      by_cases hmiss : (b.read size offset).1 < 0
      · -- The window is fetched at this moment.
        obtain ⟨b', hholds, hread⟩ := ReadAhead.read_fetch config.ahead
          (handle (s.threads.pcs thread)) (hgrounded.read r.path s.world) hb hmiss
        rw [hread] at hfetch
        obtain ⟨rfl, rfl⟩ := Prod.mk.inj (Option.some.inj hfetch)
        constructor
        · intro path b'' hb''
          change (s.ahead.buffers.insert r.path b').lookup path = some b'' at hb''
          by_cases heq : path = r.path
          · subst heq
            rw [AList.lookup_insert] at hb''
            obtain rfl := Option.some.inj hb''
            exact Or.inr ⟨opened, _, hopened, hpast, le_rfl, hholds⟩
          · rw [AList.lookup_insert_ne heq] at hb''
            exact h.windows path b'' hb''
        · rintro _ _ _ ⟨⟩
          rw [hexactInt]
          exact ⟨Int.natCast_nonneg _, _, h.serves hopened hpast le_rfl, Or.inr rfl⟩
      · -- The window covers the request.
        have hcovers : b.covers size offset = true := by
          by_contra hnot
          simp [ReadAhead.Buffer.read, hnot] at hmiss
        have hread : s.ahead.read config.ahead lower r.path size offset
            (handle (s.threads.pcs thread)) s.world =
            (.ret (b.read size offset).1 (b.read size offset).2, s.ahead) := by
          simp only [ReadAhead.Cache.read, hb, hmiss, if_false]
        rw [hread] at hfetch
        obtain ⟨rfl, rfl⟩ := Prod.mk.inj (Option.some.inj hfetch)
        refine ⟨h.windows, ?_⟩
        rintro _ _ _ ⟨⟩
        rcases h.windows r.path b hb with hempty | ⟨opened', j, hopened', hfirst, hlast, hholds⟩
        · simp [ReadAhead.Buffer.covers, hempty] at hcovers
        · obtain ⟨hbytes, hlength⟩ := hholds.read hcovers
          have hresult : (b.read size offset).1 =
              ((pread (timeline.version r.path j).content size offset).length : ℤ) := by
            rw [← hexactInt, hlength]
            simp [ReadAhead.Buffer.read, hcovers]
          refine ⟨Int.not_lt.mp hmiss, j, h.serves hopened' hfirst hlast, Or.inr ?_⟩
          rw [← hresult, ← hbytes]

end Below

section Step

/-- Time goes on, in the layer below or for the client. -/
theorem ClientInvariant.mono (h : ClientInvariant config timeline time s)
    (hgrounded : Grounded timeline time lower) {w : σ} (hle : time s.world ≤ time w) :
    ClientInvariant config timeline time { s with world := w } where
  shared := ⟨h.shared.1.advance fun p => hgrounded.monotone p _ _ hle, h.shared.2⟩
  unfailing := h.unfailing
  entries := h.entries.mono hle
  openings i := (h.openings i).mono hle
  removed i path entered hi :=
    ⟨(h.removed i path entered hi).1.trans hle, (h.removed i path entered hi).2⟩
  alone := h.alone
  recorded path opened hopened := (h.recorded path opened hopened).mono hle
  windows := h.windows.mono hgrounded.monotone hle
  direct := h.direct
  reads := h.reads

/-- The metadata cache loses entries, or has new ones that were not fetched before an open of their
path that is under way. -/
theorem ClientInvariant.attributed (h : ClientInvariant config timeline time s)
    {c : MetadataCache.Cache ρ'} {fetchedOf : PathName → ℤ}
    (hc : ∀ q m, c.lookup q = some m →
      (s.attributes.lookup q = some m ∧ fetchedOf q = s.fetchedOf q) ∨
      (fetchedOf q ≤ time s.world ∧
        m.stbuf.mtim = (timeline.version q (timeline.current (fetchedOf q) q)).mtime ∧
        ∀ i entered, (s.openings i).under = some (q, entered) → entered ≤ fetchedOf q)) :
    ClientInvariant config timeline time { s with attributes := c, fetchedOf } :=
  { h with
    entries := by
      intro q m hm
      dsimp only at hm ⊢
      rcases hc q m hm with ⟨hold, hsame⟩ | ⟨hpast, hmtime, -⟩
      · rw [hsame]
        exact h.entries q m hold
      · exact ⟨hpast, hmtime⟩
    removed := by
      intro i path entered hi
      obtain ⟨hpast, hentries⟩ := h.removed i path entered hi
      refine ⟨hpast, fun m hm => ?_⟩
      dsimp only at hm ⊢
      rcases hc path m hm with ⟨hold, hsame⟩ | ⟨-, -, hafter⟩
      · rw [hsame]
        exact hentries m hold
      · exact hafter i entered hi }

/-- The metadata cache loses entries. -/
theorem ClientInvariant.losing (h : ClientInvariant config timeline time s)
    {c : MetadataCache.Cache ρ'}
    (hc : ∀ q m, c.lookup q = some m → s.attributes.lookup q = some m) :
    ClientInvariant config timeline time { s with attributes := c } :=
  h.attributed fun q m hm => Or.inl ⟨hc q m hm, rfl⟩

/-- A hook of the metadata cache removes the entry of its path. -/
theorem ClientInvariant.remove (h : ClientInvariant config timeline time s)
    (policy' : EvictionPolicy PathName ρ') (path : PathName) :
    ClientInvariant config timeline time
      { s with attributes := s.attributes.remove policy' path } :=
  h.losing fun _ _ hm => (MetadataCache.lookup_of_remove hm).2

/-- What holds of all openings, after one has gone to another place. -/
theorem forall_openings {P : Opening → Prop} {f : ℕ → Opening} {opener : ℕ} {x : Opening} (hx : P x)
    (h : ∀ i, P (f i)) (i : ℕ) : P (Function.update f opener x i) :=
  (Function.forall_update_iff f fun _ x => P x).mpr ⟨hx, fun j _ => h j⟩ i

/-- An open or a `getattr` goes to its next place. -/
theorem ClientInvariant.opening (h : ClientInvariant config timeline time s) {opener : ℕ}
    {x : Opening}
    (hshared : Shared config.data (timelineOver timeline time)
      (Client.shared timeline { s with openings := Function.update s.openings opener x }))
    (hright : x.Right timeline (time s.world))
    (hremoved : s.Removed time x)
    (halone : ∀ path, x.path = some path → s.openedAt path = none ∧
      ∀ j, j ≠ opener → (s.openings j).path ≠ some path) :
    ClientInvariant config timeline time
      { s with openings := Function.update s.openings opener x } where
  shared := hshared
  unfailing := h.unfailing
  entries := h.entries
  openings := forall_openings hright h.openings
  removed := forall_openings (P := s.Removed time) hremoved h.removed
  alone i path hi := by
    dsimp only at hi ⊢
    by_cases heq : i = opener
    · subst heq
      rw [Function.update_self] at hi
      obtain ⟨hnone, hothers⟩ := halone path hi
      refine ⟨hnone, fun j hj => ?_⟩
      by_contra hne
      rw [Function.update_of_ne hne] at hj
      exact hothers j hne hj
    · rw [Function.update_of_ne heq] at hi
      obtain ⟨hnone, honly⟩ := h.alone i path hi
      refine ⟨hnone, fun j hj => ?_⟩
      by_cases hjo : j = opener
      · subst hjo
        rw [Function.update_self] at hj
        exact absurd hi ((halone path hj).2 i heq)
      · rw [Function.update_of_ne hjo] at hj
        exact honly j hj
  recorded := h.recorded
  windows := h.windows
  direct := h.direct
  reads := h.reads

/-- An open that has found no version does not show in the data cache. -/
theorem shared_opening {opener : ℕ} {x : Opening}
    (hold : (s.openings opener).version timeline = none) (hnew : x.version timeline = none) :
    Client.shared timeline { s with openings := Function.update s.openings opener x } =
      s.shared timeline := by
  have hfound : Opening.version timeline ∘ Function.update s.openings opener x =
      Opening.version timeline ∘ s.openings := by
    rw [Function.comp_update, hnew]
    exact Function.update_eq_self_iff.mpr hold.symm
  unfold Client.shared
  rw [hfound]

/-- An open or a `getattr` goes to a place where it has found no version. -/
theorem ClientInvariant.quietly (h : ClientInvariant config timeline time s) {opener : ℕ}
    {x : Opening} (hold : (s.openings opener).version timeline = none)
    (hnew : x.version timeline = none) (hright : x.Right timeline (time s.world))
    (hremoved : s.Removed time x)
    (halone : ∀ path, x.path = some path → s.openedAt path = none ∧
      ∀ j, j ≠ opener → (s.openings j).path ≠ some path) :
    ClientInvariant config timeline time
      { s with openings := Function.update s.openings opener x } := by
  refine h.opening ?_ hright hremoved halone
  rw [shared_opening hold hnew]
  exact h.shared

/-- A `getattr` ends without attributes, or was none of an open. -/
theorem ClientInvariant.leaving (h : ClientInvariant config timeline time s) {opener : ℕ}
    (hold : (s.openings opener).version timeline = none) :
    ClientInvariant config timeline time
      { s with openings := Function.update s.openings opener .idle } := by
  refine h.quietly hold rfl trivial (fun path entered hx => ?_) fun path hx => ?_
  · cases hx
  · cases hx

/-- A `getattr` goes on, still without attributes, at a place that suits it. -/
theorem ClientInvariant.staying (h : ClientInvariant config timeline time s) {opener : ℕ}
    {x : Opening} (hold : (s.openings opener).version timeline = none)
    (hpath : (s.openings opener).path = (s.openings opener).under.map Prod.fst)
    (hnew : x.version timeline = none) (hright : x.Right timeline (time s.world))
    (hunder : x.under = (s.openings opener).under) (hpath' : x.path = x.under.map Prod.fst) :
    ClientInvariant config timeline time
      { s with openings := Function.update s.openings opener x } := by
  refine h.quietly hold hnew hright (fun path entered hx => ?_) fun path hx => ?_
  · exact h.removed opener path entered (hunder ▸ hx)
  · obtain ⟨hclosed, honly⟩ := h.alone opener path (by rw [hpath, ← hunder, ← hpath']; exact hx)
    exact ⟨hclosed, fun j hne hj => hne (honly j hj)⟩

/-- A `getattr` gives attributes that were fetched at a moment, not before its open. -/
theorem ClientInvariant.answering (h : ClientInvariant config timeline time s)
    (hgrounded : Grounded timeline time lower) {opener : ℕ} {path : PathName} {entered : Option ℤ}
    {fetched : ℤ} (hold : (s.openings opener).version timeline = none)
    (hpath : entered.isSome → (s.openings opener).path = some path) (hpast : fetched ≤ time s.world)
    (hsince : ∀ moment, entered = some moment → moment ≤ fetched) {mtime : Timespec}
    (hmtime : mtime = (timeline.version path (timeline.current fetched path)).mtime) :
    ClientInvariant config timeline time { s with
      openings := Function.update s.openings opener (.answered path entered mtime fetched) } := by
  cases entered with
  | none => exact h.leaving hold
  | some moment =>
    obtain ⟨hclosed, honly⟩ := h.alone opener path (hpath rfl)
    refine h.opening ?_ ⟨hmtime, hsince moment rfl, hpast⟩ (fun path' entered' hx => ?_) ?_
    · have hcurrent : timeline.current fetched path ≤ timeline.current (time s.world) path :=
        hgrounded.monotone _ _ _ hpast
      have hshared := h.shared.1.find opener hcurrent
      refine ⟨?_, h.shared.2⟩
      unfold Client.shared
      rw [Function.comp_update]
      exact hshared
    · cases hx
    · rintro path' ⟨⟩
      exact ⟨hclosed, fun j hne hj => hne (honly j hj)⟩

/-- A new buffer is empty. -/
theorem WindowsRight.open {now : ℤ} {openedAt : PathName → Option Opened} {c : ReadAhead.Cache}
    (h : WindowsRight timeline openedAt now c) (lower : ReadLayer σ) (path : PathName)
    (fi : FuseFileInfo) (w : σ) :
    WindowsRight timeline openedAt now (c.open lower path fi w).2.1 := by
  intro q b hb
  unfold ReadAhead.Cache.open at hb
  dsimp only at hb
  split at hb
  · exact h q b hb
  · by_cases hq : q = path
    · subst hq
      rw [AList.lookup_insert] at hb
      obtain rfl := Option.some.inj hb
      exact Or.inl rfl
    · rw [AList.lookup_insert_ne hq] at hb
      exact h q b hb

/-- The first part of an open. -/
theorem ClientInvariant.open (h : ClientInvariant config timeline time s)
    (hgrounded : Grounded timeline time lower) {opener : ℕ} {path : PathName} {fi : FuseFileInfo}
    (hordered : s.Ordered timeline time (.open opener path fi))
    (hstep : s.step config policy policy' lower time (.open opener path fi) = some t) :
    ClientInvariant config timeline time t := by
  obtain ⟨hclosed, hothers⟩ := hordered
  simp only [Client.step] at hstep
  split at hstep
  · next hidle =>
    obtain rfl := Option.some.inj hstep
    have hlater := h.mono hgrounded (hgrounded.open path fi s.world)
    have hremove := hlater.remove policy' path
    have hahead : ClientInvariant config timeline time { s with
        attributes := s.attributes.remove policy' path
        ahead := (s.ahead.open lower path fi s.world).2.1
        world := (lower.open path fi s.world).2 } :=
      { hremove with windows := hlater.windows.open lower path fi s.world }
    have hold : (s.openings opener).version timeline = none := by
      rw [hidle]
      rfl
    split
    · exact hahead.leaving hold
    · refine hahead.quietly hold rfl trivial ?_ ?_
      · rintro path' entered ⟨⟩
        exact ⟨hgrounded.open path fi s.world,
          fun m hm => absurd rfl (MetadataCache.lookup_of_remove hm).1⟩
      · rintro path' ⟨⟩
        exact ⟨hclosed, fun j _ => hothers j⟩
  · cases hstep

/-- The start of a `getattr` of the client. -/
theorem ClientInvariant.stat (h : ClientInvariant config timeline time s) {opener : ℕ}
    {path : PathName}
    (hstep : s.step config policy policy' lower time (.stat opener path) = some t) :
    ClientInvariant config timeline time t := by
  simp only [Client.step] at hstep
  split at hstep
  · next hidle =>
    obtain rfl := Option.some.inj hstep
    refine h.quietly (by rw [hidle]; rfl) rfl trivial (fun path' entered hx => ?_) fun path' hx => ?_
    · cases hx
    · cases hx
  · cases hstep

/-- The look-up of a `getattr`. -/
theorem ClientInvariant.get (h : ClientInvariant config timeline time s)
    (hgrounded : Grounded timeline time lower) {opener : ℕ}
    (hstep : s.step config policy policy' lower time (.get opener) = some t) :
    ClientInvariant config timeline time t := by
  simp only [Client.step] at hstep
  split at hstep
  · next path entered hentered =>
    have hold : (s.openings opener).version timeline = none := by
      rw [hentered]
      rfl
    have hkept : ∀ q m, (s.attributes.get config.attributes policy' path (time s.world)).2.lookup q =
        some m → s.attributes.lookup q = some m := fun _ _ hm => MetadataCache.lookup_of_get hm
    have hunder : (s.openings opener).under = entered.map fun moment => (path, moment) := by
      rw [hentered]
      rfl
    split at hstep
    · next stbuf c hget =>
      obtain rfl := Option.some.inj hstep
      rw [hget] at hkept
      have hhit : (s.attributes.get config.attributes policy' path (time s.world)).1 =
          some stbuf := by rw [hget]
      obtain ⟨⟨m, hm, -, rfl⟩, -⟩ := MetadataCache.get_hit hhit
      obtain ⟨hpast, hmtime⟩ := h.entries path m hm
      refine (h.losing hkept).answering hgrounded hold ?_ hpast ?_ hmtime
      · intro hsome
        obtain ⟨moment, rfl⟩ := Option.isSome_iff_exists.mp hsome
        rw [hentered]
        rfl
      · rintro moment rfl
        exact (h.removed opener path moment hunder).2 m hm
    · next c hget =>
      obtain rfl := Option.some.inj hstep
      rw [hget] at hkept
      refine (h.losing hkept).staying hold ?_ rfl trivial hunder.symm rfl
      dsimp only
      rw [hentered]
      rfl
  · cases hstep

/-- The question of a `getattr` to the layer below. -/
theorem ClientInvariant.ask (h : ClientInvariant config timeline time s)
    (hgrounded : Grounded timeline time lower) {opener : ℕ}
    (hstep : s.step config policy policy' lower time (.ask opener) = some t) :
    ClientInvariant config timeline time t := by
  simp only [Client.step] at hstep
  split at hstep
  · next path entered hmissed =>
    obtain rfl := Option.some.inj hstep
    have hunder : (s.openings opener).under = entered.map fun moment => (path, moment) := by
      rw [hmissed]
      rfl
    refine h.staying (by rw [hmissed]; rfl) (by rw [hmissed]; rfl) rfl ⟨le_rfl, ?_, ?_⟩ hunder.symm rfl
    · rintro moment rfl
      exact (h.removed opener path moment hunder).1
    · exact hgrounded.getattr path s.world
  · cases hstep

/-- The `put` of a `getattr`. -/
theorem ClientInvariant.put (h : ClientInvariant config timeline time s)
    (hgrounded : Grounded timeline time lower) {opener : ℕ}
    (hordered : s.Ordered timeline time (.put opener))
    (hstep : s.step config policy policy' lower time (.put opener) = some t) :
    ClientInvariant config timeline time t := by
  simp only [Client.step] at hstep
  split at hstep
  · next path entered res stbuf fetched hasked =>
    obtain rfl := Option.some.inj hstep
    have hright := h.openings opener
    rw [hasked] at hright
    obtain ⟨hpast, hsince, hmtime⟩ := hright
    have hafter : ∀ i moment, (s.openings i).under = some (path, moment) → moment ≤ fetched := by
      intro i moment hi
      cases entered with
      | none => exact hordered path (res, stbuf) fetched hasked i moment hi
      | some moment' =>
        -- The open is the only one of its path.
        have hopener : (s.openings opener).path = some path := by
          rw [hasked]
          rfl
        have hpath : (s.openings i).path = some path := Opening.path_of_under hi
        obtain rfl := (h.alone opener path hopener).2 i hpath
        rw [hasked] at hi
        cases hi
        exact hsince moment rfl
    have hput : ClientInvariant config timeline time
        (if res = 0 then s.put config policy' time path stbuf fetched else s) := by
      split
      · next hzero =>
        refine h.attributed fun q m hm => (lookup_of_put config policy' hm).imp_right ?_
        rintro ⟨rfl, rfl, hfetched⟩
        refine ⟨(le_of_eq hfetched).trans hpast, ?_, fun i moment hi =>
          (hafter i moment hi).trans (le_of_eq hfetched.symm)⟩
        exact (hmtime (le_of_eq hzero.symm)).trans
          (congrArg (fun f => (timeline.version q (timeline.current f q)).mtime) hfetched.symm)
      · exact h
    have hsame : (if res = 0 then s.put config policy' time path stbuf fetched else s).openings =
        s.openings := by
      split <;> rfl
    have hworld : (if res = 0 then s.put config policy' time path stbuf fetched else s).world =
        s.world := by
      split <;> rfl
    have hold : ((if res = 0 then s.put config policy' time path stbuf fetched else s).openings
        opener).version timeline = none := by
      rw [hsame, hasked]
      rfl
    by_cases hres : res < 0
    · rw [if_pos hres]
      exact hput.leaving hold
    · rw [if_neg hres]
      refine hput.answering hgrounded hold ?_ (by rw [hworld]; exact hpast) hsince
        (hmtime (Int.not_lt.mp hres))
      intro hsome
      obtain ⟨moment, rfl⟩ := Option.isSome_iff_exists.mp hsome
      rw [hsame, hasked]
      rfl
  · cases hstep

/-- The versions of the opens, after that of one path has been recorded or erased. -/
theorem versions_update (openedAt : PathName → Option Opened) (path : PathName) (x : Option Opened) :
    (fun p => (Function.update openedAt path x p).map fun opened =>
      timeline.current opened.fetched p) =
    Function.update (fun p => (openedAt p).map fun opened => timeline.current opened.fetched p) path
      (x.map fun opened => timeline.current opened.fetched path) := by
  funext p
  by_cases hp : p = path
  · subst hp
    rw [Function.update_self, Function.update_self]
  · rw [Function.update_of_ne hp, Function.update_of_ne hp]

/-- The last part of an open. -/
theorem ClientInvariant.record (h : ClientInvariant config timeline time s) {opener : ℕ}
    (hstep : s.step config policy policy' lower time (.record opener) = some t) :
    ClientInvariant config timeline time t := by
  simp only [Client.step] at hstep
  split at hstep
  · next path mtime opened hfound =>
    obtain ⟨u, hu, rfl⟩ := Option.map_eq_some_iff.mp hstep
    have hheld := h.shared.2.step hu
    obtain rfl := Option.some.inj hu
    have hright := h.openings opener
    rw [hfound] at hright
    obtain ⟨rfl, hopened⟩ := hright
    obtain ⟨hclosed, honly⟩ := h.alone opener path (by rw [hfound]; rfl)
    have hopenedAt : ∀ p, p ≠ path →
        Function.update s.openedAt path (some opened) p = s.openedAt p :=
      fun p hp => Function.update_of_ne hp _ _
    have hversion : (s.shared timeline).found opener =
        some (path, timeline.current opened.fetched path) := by
      change (s.openings opener).version timeline = _
      rw [hfound]
      rfl
    have hshared := h.shared.1.record hversion
    constructor
    · refine ⟨?_, hheld⟩
      unfold Client.shared
      rw [Function.comp_update, versions_update]
      exact hshared
    · exact ⟨h.unfailing.1, hheld⟩
    · exact h.entries
    · exact forall_openings trivial h.openings
    · refine forall_openings (P := s.Removed time) (fun _ _ hx => ?_) h.removed
      cases hx
    · intro i path' hi
      dsimp only at hi ⊢
      by_cases heq : i = opener
      · subst heq
        rw [Function.update_self] at hi
        cases hi
      · rw [Function.update_of_ne heq] at hi
        obtain ⟨hnone, hi'⟩ := h.alone i path' hi
        have hne : path' ≠ path := by
          rintro rfl
          exact heq (honly i hi)
        rw [hopenedAt path' hne]
        refine ⟨hnone, fun j hj => ?_⟩
        by_cases hjo : j = opener
        · subst hjo
          rw [Function.update_self] at hj
          cases hj
        · rw [Function.update_of_ne hjo] at hj
          exact hi' j hj
    · intro p opened' hp
      dsimp only at hp
      by_cases heq : p = path
      · subst heq
        rw [Function.update_self] at hp
        exact Option.some.inj hp ▸ hopened
      · rw [hopenedAt p heq] at hp
        exact h.recorded p opened' hp
    · -- While the path was not open it had no window.
      intro p b hb
      refine (h.windows p b hb).imp_right ?_
      rintro ⟨opened', j, hp, hrest⟩
      have hne : p ≠ path := by
        rintro rfl
        rw [hclosed] at hp
        cases hp
      exact ⟨opened', j, (hopenedAt p hne).trans hp, hrest⟩
    · exact h.direct
    · intro i r hr
      obtain ⟨opened', hsince, hp⟩ := h.reads i r hr
      have hne : r.path ≠ path := by
        intro heq
        rw [heq, hclosed] at hp
        cases hp
      exact ⟨opened', hsince, (hopenedAt r.path hne).trans hp⟩
  · cases hstep

/-- A read starts, on a path that is open. -/
theorem ClientInvariant.begin (h : ClientInvariant config timeline time s) {thread size offset : ℕ}
    {path : PathName} {fi : FuseFileInfo}
    (hordered : s.Ordered timeline time (.start thread path size offset fi))
    (hstep : s.step config policy policy' lower time (.start thread path size offset fi) = some t) :
    ClientInvariant config timeline time t := by
  obtain ⟨opened, hopened, hoffset⟩ := hordered
  obtain ⟨u, hu, rfl⟩ := Option.map_eq_some_iff.mp hstep
  have hheld := h.shared.2.step hu
  have hfails := fails_of_steps h.unfailing.1 (fun _ _ h => by cases h) hu
  simp only [Threads.step] at hu
  split at hu
  · next hidle =>
    obtain rfl := Option.some.inj hu
    have hversion : (s.shared timeline).openedAt path =
        some (timeline.current opened.fetched path) := by
      change (s.openedAt path).map _ = _
      rw [hopened]
      rfl
    have hmtime := h.shared.1.mtimes path
    rw [hversion, Option.map_some] at hmtime
    have hentered : s.threads.enter thread path size offset fi = s.threads.goto thread
        (.looking ⟨path, size, offset, fi,
          (timeline.version path (timeline.current opened.fetched path)).mtime, []⟩) := by
      unfold Threads.enter
      rw [show s.threads.cache.mtimes.lookup path = _ from hmtime]
      rfl
    have hwithin : ∀ k, (s.shared timeline).openedAt path = some k →
        offset ≤ (timeline.version path k).content.length :=
      fun k hk => Option.some.inj (hversion.symm.trans hk) ▸ hoffset
    have hshared := h.shared.1.begin hidle hwithin size fi
    constructor
    · refine ⟨?_, hheld⟩
      unfold Client.shared
      rw [Function.comp_update, hopened]
      rw [hversion] at hshared
      exact hshared
    · exact ⟨hfails, hheld⟩
    · exact h.entries
    · exact h.openings
    · exact h.removed
    · exact h.alone
    · exact h.recorded
    · exact h.windows
    · intro i path' size' offset' fi'
      dsimp only
      rw [hentered]
      by_cases heq : i = thread
      · subst heq
        rw [goto_self]
        intro hpc
        cases hpc
      · rw [goto_of_ne _ _ _ heq]
        exact h.direct i path' size' offset' fi'
    · intro i r hr
      dsimp only at hr ⊢
      rw [hentered] at hr
      by_cases heq : i = thread
      · subst heq
        rw [goto_self] at hr
        obtain rfl := Option.some.inj hr
        rw [Function.update_self, hopened]
        exact ⟨opened, rfl, rfl⟩
      · rw [goto_of_ne _ _ _ heq] at hr
        rw [Function.update_of_ne heq]
        exact h.reads i r hr
  · cases hu

/-- What a step of a read is, in the data cache, and what it is promised. -/
theorem ClientInvariant.allowed (h : ClientInvariant config timeline time s)
    (hgrounded : Grounded timeline time lower) (hblock : config.data.blockSize ≤ 2 ^ 31 - 1)
    {thread : ℕ} {reply : ℤ × Bytes} {ahead : ReadAhead.Cache}
    (hordered : s.Ordered timeline time (.advance thread))
    (hfetch : s.fetch config lower thread = some (reply, ahead)) (now : ℤ) :
    (s.shared timeline).Allowed config.data (timelineOver timeline time)
        (.advance thread ⟨reply, now⟩) ∧
      (s.shared timeline).Succeeds config.data (.advance thread ⟨reply, now⟩) := by
  obtain ⟨-, hreply⟩ := h.fetch_sound hgrounded hblock hfetch
  refine ⟨⟨fun path size offset hfetches => (hreply path size offset hfetches).2, ?_⟩, ?_⟩
  · intro r k hr hk
    obtain ⟨⟨p, opened⟩, hsince, rfl⟩ := Option.map_eq_some_iff.mp hk
    exact hordered r p opened hr hsince
  · intro hfetches
    obtain ⟨⟨path, size, offset⟩, hsome⟩ := Option.ne_none_iff_exists'.mp hfetches
    exact (hreply path size offset hsome).1

/-- A step of a read. -/
theorem ClientInvariant.advance (h : ClientInvariant config timeline time s)
    (hgrounded : Grounded timeline time lower) (hblock : config.data.blockSize ≤ 2 ^ 31 - 1)
    {thread : ℕ} (hordered : s.Ordered timeline time (.advance thread))
    (hstep : s.step config policy policy' lower time (.advance thread) = some t) :
    ClientInvariant config timeline time t := by
  obtain ⟨⟨reply, ahead⟩, hfetch, hrest⟩ := Option.bind_eq_some_iff.mp hstep
  obtain ⟨u, hu, rfl⟩ := Option.map_eq_some_iff.mp hrest
  obtain ⟨hallowed, hsucceeds⟩ := h.allowed hgrounded hblock hordered hfetch (time s.world)
  obtain ⟨hwindows, -⟩ := h.fetch_sound hgrounded hblock hfetch
  have hshared := h.shared.1.goes h.shared.2 hgrounded.distinct hallowed
    (h.unfailing.undisturbed hsucceeds) hu
  have hheld := h.shared.2.step hu
  have hfails : ∀ i, (u.pcs i).fails = false := by
    refine fails_of_steps h.unfailing.1 (fun thread' env' heq => ?_) hu
    cases heq
    exact hsucceeds
  constructor
  · exact ⟨hshared.invariant, hheld⟩
  · exact ⟨hfails, hheld⟩
  · exact h.entries
  · exact h.openings
  · exact h.removed
  · exact h.alone
  · exact h.recorded
  · exact hwindows
  · intro i path size offset fi hpc
    rcases goesOn_of_advance hu i with hsame | hidle | ⟨r, r', -, hr', -⟩
    · exact h.direct i path size offset fi (hsame.symm.trans hpc)
    · exact absurd (hidle.symm.trans hpc) (by simp)
    · dsimp only at hpc
      rw [hpc] at hr'
      cases hr'
  · intro i r hr
    rcases goesOn_of_advance hu i with hsame | hidle | ⟨r₀, r', hr₀, hr', hpath⟩
    · exact h.reads i r (hsame ▸ hr)
    · dsimp only at hr
      rw [hidle] at hr
      cases hr
    · obtain rfl := Option.some.inj (hr'.symm.trans hr)
      obtain ⟨opened, hsince, hopened⟩ := h.reads i r₀ hr₀
      rw [hpath]
      exact ⟨opened, hsince, hopened⟩

/-- A release, with no read of the path under way. -/
theorem ClientInvariant.release (h : ClientInvariant config timeline time s)
    (hgrounded : Grounded timeline time lower) {path : PathName} {fi : FuseFileInfo}
    (hordered : s.Ordered timeline time (.release path fi))
    (hstep : s.step config policy policy' lower time (.release path fi) = some t) :
    ClientInvariant config timeline time t := by
  simp only [Client.step] at hstep
  obtain ⟨u, hu, rfl⟩ := Option.map_eq_some_iff.mp hstep
  have hheld := h.shared.2.step hu
  obtain rfl := Option.some.inj hu
  have hopenedAt : ∀ p, p ≠ path → Function.update s.openedAt path none p = s.openedAt p :=
    fun p hp => Function.update_of_ne hp _ _
  have hopen : ∀ p opened, Function.update s.openedAt path none p = some opened →
      p ≠ path ∧ s.openedAt p = some opened := by
    intro p opened hp
    by_cases heq : p = path
    · subst heq
      rw [Function.update_self] at hp
      cases hp
    · exact ⟨heq, (hopenedAt p heq).symm.trans hp⟩
  have hlater := (h.mono hgrounded (hgrounded.release path fi s.world)).remove policy' path
  constructor
  · refine ⟨?_, hheld⟩
    have hshared := hlater.shared.1.release path
    unfold Client.shared
    dsimp only
    rw [versions_update]
    exact hshared
  · exact ⟨h.unfailing.1, hheld⟩
  · exact hlater.entries
  · exact hlater.openings
  · exact hlater.removed
  · intro i p hi
    obtain ⟨hnone, honly⟩ := h.alone i p hi
    refine ⟨?_, honly⟩
    by_cases hp : p = path
    · subst hp
      exact Function.update_self _ _ _
    · exact (hopenedAt p hp).trans hnone
  · intro p opened hp
    exact hlater.recorded p opened (hopen p opened hp).2
  · intro p b hb
    have hne : p ≠ path := by
      rintro rfl
      have herased : (s.ahead.buffers.erase p).lookup p = some b := hb
      simp at herased
    have hbefore : s.ahead.buffers.lookup p = some b :=
      (AList.lookup_erase_ne hne).symm.trans hb
    refine (hlater.windows p b hbefore).imp_right ?_
    rintro ⟨opened, j, hp, hrest⟩
    exact ⟨opened, j, (hopenedAt p hne).trans hp, hrest⟩
  · exact h.direct
  · intro i r hr
    obtain ⟨opened, hsince, hp⟩ := h.reads i r hr
    exact ⟨opened, hsince, (hopenedAt r.path (hordered i r hr)).trans hp⟩

/-- **Step lemma.** Every step in order keeps the invariant. -/
theorem ClientInvariant.step (h : ClientInvariant config timeline time s)
    (hgrounded : Grounded timeline time lower) (hblock : config.data.blockSize ≤ 2 ^ 31 - 1)
    {a : ClientAction σ} (hordered : s.Ordered timeline time a)
    (hstep : s.step config policy policy' lower time a = some t) :
    ClientInvariant config timeline time t := by
  cases a with
  | «open» opener path fi => exact h.open hgrounded hordered hstep
  | stat opener path => exact h.stat hstep
  | get opener => exact h.get hgrounded hstep
  | ask opener => exact h.ask hgrounded hstep
  | put opener => exact h.put hgrounded hordered hstep
  | record opener => exact h.record hstep
  | start thread path size offset fi => exact h.begin hordered hstep
  | advance thread => exact h.advance hgrounded hblock hordered hstep
  | release path fi => exact h.release hgrounded hordered hstep
  | forget path =>
    obtain rfl := Option.some.inj hstep
    exact h.remove policy' path
  | change w =>
    obtain rfl := Option.some.inj hstep
    exact h.mono hgrounded hordered

end Step

/-- Files of four bytes that all count the seconds, with the second as their modification time. -/
def ticking : Timeline ℤ where
  version _ n := ⟨List.replicate 4 (UInt8.ofNat n), ⟨n, 0⟩⟩
  current now _ := (now / 1000000000).toNat

/-- The layer below that shows those files. -/
def tickingLayer : ReadLayer ℤ where
  «open» _ fi now := ((0, fi), now)
  getattr path now := (0, { (default : Stat) with mtim := ⟨ticking.current now path, 0⟩ })
  read path size offset _ now :=
    ((pread (ticking.content now path) size offset).length,
      pread (ticking.content now path) size offset)
  release _ _ now := (0, now)

/-- Blocks and windows of two bytes, and entries that last for 30 seconds. -/
def smallStack : StackConfig := ⟨{ blockSize := 2 }, { timeOut := 30 }, { size := 2 }⟩

/-- Bytes of version 0 are from no version since version 1. -/
theorem not_since_of_zeros {e : Returned} (hbytes : e.outcome.bytes = [0, 0]) :
    ¬ e.Since (timelineOver ticking id) 1000000000 (ticking.current 1000000000 e.path) := by
  rintro ⟨out, houtcome, -, hsince⟩
  obtain rfl : out = [0, 0] := by
    rw [houtcome] at hbytes
    exact hbytes
  obtain ⟨j, hfirst, hlast, hbyte⟩ := hsince 0 (by decide)
  obtain rfl : j = 1 := le_antisymm hlast hfirst
  have hone : (List.replicate 4 (1 : UInt8))[e.offset + 0]? ≠ some 0 := by
    intro hzero
    exact absurd (List.eq_of_mem_replicate (List.mem_of_getElem? hzero)) (by decide)
  exact hone hbyte

/-- Windows of four bytes. -/
def wideStack : StackConfig := { smallStack with ahead := { size := 4 } }

/-- A file is opened again while it is open, after it has changed. -/
def openedAgain : List (ClientAction ℤ) :=
  [.open 0 ['f'] default, .get 0, .ask 0, .put 0, .record 0, .start 0 ['f'] 2 0 default, .advance 0,
    .advance 0, .advance 0, .advance 0, .advance 0, .advance 0, .advance 0, .advance 0, .advance 0,
    .change 1000000000, .open 1 ['f'] default, .get 1, .ask 1, .put 1, .record 1,
    .start 0 ['f'] 2 2 default, .advance 0, .advance 0, .advance 0, .advance 0, .advance 0,
    .advance 0, .advance 0, .advance 0]

/-- The order of opens is needed: the window of the first open outlives the second, and the read
answers with bytes from before the second. -/
theorem not_since_openedAgain :
    ∃ s t e opened, Transition.run
        (Client.step wideStack lruEviction lruEviction tickingLayer id)
        (.start 0 LruState.empty LruState.empty) openedAgain = some s ∧
      s.step wideStack lruEviction lruEviction tickingLayer id (.advance 0) = some t ∧
      t.threads.returned = e :: s.threads.returned ∧ s.openedAt e.path = some opened ∧
      ¬ e.Since (timelineOver ticking id) s.world (ticking.current opened.entered e.path) := by
  obtain ⟨s, t, e, opened, hrun, hstep, hreturned, hrecorded, hopened, hbytes, hworld⟩ :
      ∃ s t e opened, Transition.run
        (Client.step wideStack lruEviction lruEviction tickingLayer id)
        (.start 0 LruState.empty LruState.empty) openedAgain = some s ∧
      s.step wideStack lruEviction lruEviction tickingLayer id (.advance 0) = some t ∧
      t.threads.returned = e :: s.threads.returned ∧ s.openedAt e.path = some opened ∧
      opened.entered = 1000000000 ∧ e.outcome.bytes = [0, 0] ∧ s.world = 1000000000 :=
    ⟨_, _, _, _, rfl, rfl, rfl, rfl, rfl, rfl, rfl⟩
  refine ⟨s, t, e, opened, hrun, hstep, hreturned, hrecorded, ?_⟩
  rw [hworld, hopened]
  exact not_since_of_zeros hbytes

/-- A `getattr` asks for the attributes of a file before the file changes, and puts them after the
open that follows has removed the entry. -/
def latePut : List (ClientAction ℤ) :=
  [.open 0 ['f'] default, .get 0, .ask 0, .put 0, .record 0, .start 0 ['f'] 2 0 default, .advance 0,
    .advance 0, .advance 0, .advance 0, .advance 0, .advance 0, .advance 0, .advance 0, .advance 0,
    .release ['f'] default, .stat 1 ['f'], .get 1, .ask 1, .change 1000000000,
    .open 0 ['f'] default, .put 1, .get 0, .record 0, .start 0 ['f'] 2 0 default, .advance 0,
    .advance 0]

/-- The order of puts is needed: the open finds the attributes from before it, with which the blocks
from before it are valid. -/
theorem not_since_latePut :
    ∃ s t e opened, Transition.run
        (Client.step smallStack lruEviction lruEviction tickingLayer id)
        (.start 0 LruState.empty LruState.empty) latePut = some s ∧
      s.step smallStack lruEviction lruEviction tickingLayer id (.advance 0) = some t ∧
      t.threads.returned = e :: s.threads.returned ∧ s.openedAt e.path = some opened ∧
      ¬ e.Since (timelineOver ticking id) s.world (ticking.current opened.entered e.path) := by
  obtain ⟨s, t, e, opened, hrun, hstep, hreturned, hrecorded, hopened, hbytes, hworld⟩ :
      ∃ s t e opened, Transition.run
        (Client.step smallStack lruEviction lruEviction tickingLayer id)
        (.start 0 LruState.empty LruState.empty) latePut = some s ∧
      s.step smallStack lruEviction lruEviction tickingLayer id (.advance 0) = some t ∧
      t.threads.returned = e :: s.threads.returned ∧ s.openedAt e.path = some opened ∧
      opened.entered = 1000000000 ∧ e.outcome.bytes = [0, 0] ∧ s.world = 1000000000 :=
    ⟨_, _, _, _, rfl, rfl, rfl, rfl, rfl, rfl, rfl⟩
  refine ⟨s, t, e, opened, hrun, hstep, hreturned, hrecorded, ?_⟩
  rw [hworld, hopened]
  exact not_since_of_zeros hbytes

end RSafeFS.Stack
