import RSafeFS.DataCache.Threads
import RSafeFS.DataCache.ReadLoop

/-!
# A block whose fetch failed

A read that finds its block outdated fetches it again. If the fetch fails, the block is
left with the converted error as its size and a current time stamp until the read has
removed it, and another read may find it valid in between. The invariant says that blocks
hold their slice of the file except those whose removal is under way, and that no read is
about to copy from one of these.
-/

namespace RSafeFS.DataCache

open ByteFile

variable {ρ : Type} (content : PathName → Bytes) (config : DataCacheConfig)
  (policy : EvictionPolicy Key ρ)

/-- The copy was made from a block as a successful fetch left it, of bytes that this fetch
delivered. -/
structure Copy.Served (c : Copy) : Prop where
  holds : c.block.Holds config.blockSize c.key.2 (content c.key.1)
  bytes : c.bytes = pread (content c.key.1) c.nBytes c.seeker
  length : c.bytes.length = c.nBytes

/-- A positive count came with as many bytes of the file. -/
def Returned.Right (e : Returned) : Prop :=
  ∀ res out, e.outcome = .ret res out → 0 < res →
    out = pread (content e.path) out.length e.offset

/-- No failed refresh has been served. -/
structure NeverServed (s : Threads ρ) : Prop where
  copies : ∀ c ∈ s.copies, c.Served content config
  returned : ∀ e ∈ s.returned, e.Right content

/-- The read of the layer below that the next step of a thread makes. -/
def Threads.asked (s : Threads ρ) (thread : ℕ) : Option (PathName × ℕ × ℕ) :=
  match s.pcs thread with
  | .bypassing path size offset _ => some (path, size, offset)
  | .refreshing r key => (s.cache.cache.lookup key).map fun b => (r.path, config.blockSize, b.offset)
  | .fetching r key => some (r.path, config.blockSize, key.2 * config.blockSize)
  | _ => none

/-- A read of fixed contents fails, having written no more than the buffer, or is exact. -/
def ReplyOf (content : Bytes) (size offset : ℕ) (reply : ℤ × Bytes) : Prop :=
  (reply.1 < 0 ∧ reply.2.length ≤ size) ∨
    reply = (((pread content size offset).length : ℤ), pread content size offset)

/-- Files with fixed contents below, and requests for offsets within them. -/
def FixedContents (s : Threads ρ) : ThreadAction → Prop
  | .start _ path _ offset _ => offset ≤ (content path).length
  | .advance thread env =>
    match s.asked config thread with
    | some (path, size, offset) => ReplyOf (content path) size offset env.reply
    | none => True
  | _ => True

/-- The block that a thread copies from in its next step, having fetched it. -/
def Pc.copies : Pc → Option Key
  | .copying _ key => some key
  | _ => none

/-- The block that a thread is about to remove because its fetch failed. -/
def Pc.removes : Pc → Option Key
  | .failed _ key _ | .removing _ key _ => some key
  | _ => none

/-- A fetch of a block fails only when no other read is between its own fetch of the block
and its copy, and a read that finds a block valid does so only when no other read is between
a failed fetch of the block and its removal. -/
def Undisturbed (s : Threads ρ) : ThreadAction → Prop
  | .advance thread env =>
    match s.pcs thread with
    | .refreshing _ key => env.reply.1 < 0 → ∀ other, (s.pcs other).copies ≠ some key
    | .looking r => ∀ b, s.cache.cache.lookup (r.key config) = some b →
        b.isValid config.timeOut r.mtime env.now = true →
          ∀ other, (s.pcs other).removes ≠ some (r.key config)
    | _ => True
  | _ => True

/-- The bytes copied so far are the file's, and the position is within it. -/
def Reading.Right (r : Reading) : Prop :=
  r.out = pread (content r.path) r.out.length r.offset ∧ r.seeker ≤ (content r.path).length

/-- The read is at a block. -/
structure Reading.At (r : Reading) (key : Key) : Prop where
  right : r.Right content
  key : key = r.key config
  blockSize : config.blockSize ≠ 0

/-- What is known of a read at its place. -/
def Pc.Right : Pc → Prop
  | .idle | .bypassing _ _ _ _ => True
  | .looking r | .touching r _ | .counting r _ => r.Right content
  | .refreshing r key | .copying r key | .sizing r key | .evicting r key | .discarding r key _
  | .fetching r key => r.At content config key
  | .failed r _ res | .removing r _ res | .dropping r _ res => r.Right content ∧ res < 0
  | .emplacing r key newBuf blockSize => r.At content config key ∧
      ∀ timestamp, (⟨newBuf, blockSize, key.2 * config.blockSize, timestamp, r.mtime⟩ : Block).Holds
        config.blockSize key.2 (content key.1)

/-- The invariant of a run, over the locks. -/
structure Clean (s : Threads ρ) : Prop where
  shape : ∀ k b, s.cache.cache.lookup k = some b →
    b.offset = k.2 * config.blockSize ∧ b.buf.length = config.blockSize
  fresh : ∀ k b, s.cache.cache.lookup k = some b →
    b.Holds config.blockSize k.2 (content k.1) ∨ ∃ thread, (s.pcs thread).removes = some k
  copying : ∀ thread k b, (s.pcs thread).copies = some k → s.cache.cache.lookup k = some b →
    b.Holds config.blockSize k.2 (content k.1)
  pcs : ∀ thread, (s.pcs thread).Right content config
  served : NeverServed content config s

variable {content config policy} {s t : Threads ρ}

/-- A thread moves to a place that suits it, still removing what it had to remove. -/
theorem Clean.goto (h : Clean content config s) {thread : ℕ} {pc : Pc}
    (hright : pc.Right content config)
    (hcopies : ∀ k b, pc.copies = some k → s.cache.cache.lookup k = some b →
      b.Holds config.blockSize k.2 (content k.1))
    (hremoves : ∀ k, (s.pcs thread).removes = some k → pc.removes = some k) :
    Clean content config (s.goto thread pc) := by
  refine ⟨h.shape, fun k b hb => ?_, fun other k b hother hb => ?_, fun other => ?_,
    ⟨h.served.copies, h.served.returned⟩⟩
  · refine (h.fresh k b hb).imp_right ?_
    rintro ⟨other, hother⟩
    refine ⟨other, ?_⟩
    by_cases heq : other = thread
    · subst heq
      rw [goto_self]
      exact hremoves k hother
    · rwa [goto_of_ne _ _ _ heq]
  · have hcopying := forall_goto s thread pc (P := fun _ pc => pc.copies = some k →
      b.Holds config.blockSize k.2 (content k.1)) (fun hk => hcopies k b hk hb)
      fun other _ hk => h.copying other k b hk hb
    exact hcopying other hother
  · exact forall_goto s thread pc (P := fun _ pc => pc.Right content config) hright
      (fun other _ => h.pcs other) other

/-- What is known of a thread at its place. -/
theorem Clean.right (h : Clean content config s) {thread : ℕ} {pc : Pc} (hpc : s.pcs thread = pc) :
    pc.Right content config :=
  hpc ▸ h.pcs thread

/-- A thread that removes no block moves to a place where it does not copy one. -/
theorem Clean.move (h : Clean content config s) {thread : ℕ} {pc pc' : Pc}
    (hpc : s.pcs thread = pc) (hnone : pc.removes = none) (hright : pc'.Right content config)
    (hcopies : pc'.copies = none) : Clean content config (s.goto thread pc') := by
  refine h.goto hright (fun k b hk => ?_) fun k hk => ?_
  · rw [hcopies] at hk
    cases hk
  · rw [hpc, hnone] at hk
    cases hk

/-- The invariant is about the blocks, the threads and the records only. -/
theorem Clean.of_eq (h : Clean content config s) (hcache : t.cache.cache = s.cache.cache)
    (hpcs : t.pcs = s.pcs) (hcopies : t.copies = s.copies) (hreturned : t.returned = s.returned) :
    Clean content config t := by
  refine ⟨?_, ?_, ?_, ?_, ⟨?_, ?_⟩⟩
  · rw [hcache]
    exact h.shape
  · rw [hcache, hpcs]
    exact h.fresh
  · rw [hcache, hpcs]
    exact h.copying
  · rw [hpcs]
    exact h.pcs
  · rw [hcopies]
    exact h.served.copies
  · rw [hreturned]
    exact h.served.returned

/-- A right answer is added to the records. -/
theorem Clean.return (h : Clean content config s) {e : Returned} (he : e.Right content) :
    Clean content config { s with returned := e :: s.returned } :=
  ⟨h.shape, h.fresh, h.copying, h.pcs, h.served.copies,
    List.forall_mem_cons.mpr ⟨he, h.served.returned⟩⟩

/-- The end of a read that removes no block. -/
theorem Clean.finish (h : Clean content config s) {thread : ℕ} {pc : Pc} {r : Reading}
    {outcome : Outcome} (hpc : s.pcs thread = pc) (hnone : pc.removes = none)
    (he : (⟨r.path, r.size, r.offset, outcome⟩ : Returned).Right content) :
    Clean content config (s.finish thread r outcome) :=
  (h.return he).move hpc hnone trivial rfl

/-- The bytes copied so far are a right answer. -/
theorem Reading.Right.returned {r : Reading} (h : r.Right content) (res : ℤ) :
    (⟨r.path, r.size, r.offset, .ret res r.out⟩ : Returned).Right content := by
  intro res' out hout _
  obtain ⟨_, rfl⟩ := Outcome.ret.inj hout
  exact h.1

/-- An error is a right answer. -/
theorem right_of_neg {path : PathName} {size offset : ℕ} {res : ℤ} {out : Bytes} (h : res < 0) :
    (⟨path, size, offset, .ret res out⟩ : Returned).Right content := by
  intro res' out' hout hpos
  obtain ⟨rfl, _⟩ := Outcome.ret.inj hout
  omega

/-- The position lies in the block at which the read is, and in the part of it that the
file fills. -/
theorem Reading.At.position {r : Reading} {key : Key} {b : Block} (h : r.At content config key)
    (hholds : b.Holds config.blockSize key.2 (content key.1)) :
    b.offset ≤ r.seeker ∧ r.seeker - b.offset ≤ b.size := by
  have hkey := h.key
  subst hkey
  have hseeker : r.seeker ≤ (content r.path).length := h.right.2
  have hpos : 0 < config.blockSize := Nat.pos_of_ne_zero h.blockSize
  have hle := Nat.div_mul_le_self r.seeker config.blockSize
  have hlt := Nat.lt_div_mul_add hpos (a := r.seeker)
  have hsize := hholds.size
  rw [length_pread] at hsize
  rw [hholds.offset]
  simp only [Reading.key] at hsize ⊢
  omega

/-- The copy from a block that holds its slice, by a read at that block. -/
theorem Reading.At.served {r : Reading} {key : Key} {b : Block} (h : r.At content config key)
    (hholds : b.Holds config.blockSize key.2 (content key.1)) :
    r.seeker - b.offset + r.nBytesToCopy b ≤ b.size ∧
      (⟨key, b, r.seeker, r.nBytesToCopy b⟩ : Copy).Served content config := by
  obtain ⟨hoffset, hposition⟩ := h.position hholds
  have hn : r.seeker - b.offset + r.nBytesToCopy b ≤ b.size := by
    have hle : r.nBytesToCopy b ≤ sizeSub b.size (r.seeker - b.offset) := Nat.min_le_right _ _
    rw [sizeSub_of_le hposition] at hle
    omega
  have hbytes := hholds.copy hn
  rw [← hholds.offset, Nat.add_sub_cancel' hoffset] at hbytes
  refine ⟨hn, hholds, hbytes, ?_⟩
  rw [Copy.bytes, List.length_take, List.length_drop, hholds.length]
  have hle := hholds.size_le
  dsimp only
  omega

/-- A copy that is served keeps the bytes of the read right. -/
theorem Reading.At.next {r : Reading} {key : Key} {b : Block} (h : r.At content config key)
    (hholds : b.Holds config.blockSize key.2 (content key.1)) :
    { r with out := r.out ++ (⟨key, b, r.seeker, r.nBytesToCopy b⟩ : Copy).bytes }.Right content := by
  obtain ⟨hn, hserved⟩ := h.served hholds
  have hkey : key.1 = r.path := by rw [h.key]; rfl
  have hbytes := hserved.bytes
  have hlength := hserved.length
  rw [hkey] at hbytes
  dsimp only at hbytes hlength
  constructor
  · dsimp only
    rw [List.length_append, hlength, pread_add, ← h.right.1]
    congr 1
  · have hfile : (pread (content r.path) (r.nBytesToCopy b) r.seeker).length = r.nBytesToCopy b := by
      rw [← hbytes, hlength]
    rw [length_pread] at hfile
    have hseeker : r.seeker ≤ (content r.path).length := h.right.2
    change r.offset + (r.out ++ _).length ≤ (content r.path).length
    rw [List.length_append, hlength]
    rw [Reading.seeker] at hfile hseeker
    omega

/-- A copy from a block that holds its slice keeps the invariant. -/
theorem Clean.copy (h : Clean content config s) {thread : ℕ} {r : Reading} {key : Key} {b : Block}
    {pc : Pc} (hpc : s.pcs thread = pc) (hnone : pc.removes = none)
    (hat : r.At content config key) (hholds : b.Holds config.blockSize key.2 (content key.1)) :
    Clean content config (s.copy thread r key b) := by
  obtain ⟨hn, hserved⟩ := hat.served hholds
  unfold Threads.copy
  dsimp only
  split_ifs with hzero hinside
  · exact h.finish hpc hnone (hat.right.returned _)
  · have hcopied : Clean content config
        { s with copies := ⟨key, b, r.seeker, r.nBytesToCopy b⟩ :: s.copies } :=
      ⟨h.shape, h.fresh, h.copying, h.pcs, List.forall_mem_cons.mpr ⟨hserved, h.served.copies⟩,
        h.served.returned⟩
    exact hcopied.move hpc hnone (hat.next hholds) rfl
  · have hle := hholds.size_le
    rw [hholds.length] at hinside
    omega

/-- A block that holds its slice is added or put in place of an old one. -/
theorem Clean.insert (h : Clean content config s) {key : Key} {b : Block}
    (hholds : b.Holds config.blockSize key.2 (content key.1)) :
    Clean content config { s with cache.cache := s.cache.cache.insert key b } := by
  have hlookup : ∀ k b', (s.cache.cache.insert key b).lookup k = some b' →
      b'.Holds config.blockSize k.2 (content k.1) ∨ s.cache.cache.lookup k = some b' := by
    intro k b' hb'
    by_cases hk : k = key
    · subst hk
      rw [AList.lookup_insert] at hb'
      exact Or.inl (Option.some.inj hb' ▸ hholds)
    · rw [AList.lookup_insert_ne hk] at hb'
      exact Or.inr hb'
  refine ⟨fun k b' hb' => ?_, fun k b' hb' => ?_, fun thread k b' hcopies hb' => ?_, h.pcs,
    ⟨h.served.copies, h.served.returned⟩⟩
  · rcases hlookup k b' hb' with hnew | hold
    · exact ⟨hnew.offset, hnew.length⟩
    · exact h.shape k b' hold
  · rcases hlookup k b' hb' with hnew | hold
    · exact Or.inl hnew
    · exact h.fresh k b' hold
  · rcases hlookup k b' hb' with hnew | hold
    · exact hnew
    · exact h.copying thread k b' hcopies hold

/-- The removal of a block, by a thread that goes on without one. -/
theorem Clean.remove (h : Clean content config s) {thread : ℕ} {pc : Pc} {key : Key}
    (hright : pc.Right content config) (hcopies : pc.copies = none)
    (hremoves : ∀ k, (s.pcs thread).removes = some k → k = key) :
    Clean content config
      ({ s with cache := s.cache.removeBlock config key }.goto thread pc) := by
  refine ⟨fun k b hb => ?_, fun k b hb => ?_, fun other k b hother hb => ?_, fun other => ?_,
    ⟨h.served.copies, h.served.returned⟩⟩
  · exact h.shape k b (lookup_removeBlock.mp hb).2
  · obtain ⟨hne, hold⟩ := lookup_removeBlock.mp hb
    refine (h.fresh k b hold).imp_right ?_
    rintro ⟨other, hother⟩
    refine ⟨other, ?_⟩
    have hother' : other ≠ thread := by
      rintro rfl
      exact hne (hremoves k hother)
    rwa [goto_of_ne _ _ _ hother']
  · have hne : other ≠ thread := by
      rintro rfl
      rw [goto_self, hcopies] at hother
      cases hother
    rw [goto_of_ne _ _ _ hne] at hother
    exact h.copying other k b hother (lookup_removeBlock.mp hb).2
  · exact forall_goto _ thread pc (P := fun _ pc => pc.Right content config) hright
      (fun other _ => h.pcs other) other

/-- The block that a successful fetch leaves holds its slice. -/
theorem holds_update {b : Block} {id : ℕ} {bytes : Bytes} (mtime : Timespec) {env : Env}
    (hoffset : b.offset = id * config.blockSize) (hlength : b.buf.length = config.blockSize)
    (hreply : env.reply = (((pread bytes config.blockSize (id * config.blockSize)).length : ℤ),
      pread bytes config.blockSize (id * config.blockSize))) :
    (b.update mtime env).Holds config.blockSize id bytes := by
  have hsize : toSize ((pread bytes config.blockSize (id * config.blockSize)).length : ℤ) =
      (pread bytes config.blockSize (id * config.blockSize)).length := by
    rw [toSize, if_neg (by omega), Int.toNat_natCast]
  have hholds := holds_overlay bytes id mtime hlength env.now
  simpa only [Block.update, hreply, hsize, hoffset] using hholds

/-- A failed fetch leaves the buffer its length. -/
theorem length_update {b : Block} {mtime : Timespec} {env : Env}
    (hlength : b.buf.length = config.blockSize) (hreply : env.reply.2.length ≤ config.blockSize) :
    (b.update mtime env).buf.length = config.blockSize := by
  rw [Block.update, length_overlay (by omega), hlength]

/-- A fetch that fails when no other read is about to copy from the block. -/
theorem Clean.refreshFailed (h : Clean content config s) {thread : ℕ} {r : Reading} {key : Key}
    {env : Env} {b : Block} (hpc : s.pcs thread = .refreshing r key)
    (hb : s.cache.cache.lookup key = some b) (hres : env.reply.1 < 0)
    (hreply : env.reply.2.length ≤ config.blockSize)
    (hother : ∀ other, (s.pcs other).copies ≠ some key) :
    Clean content config ({ s with
      cache.cache := s.cache.cache.insert key (b.update r.mtime env) }.goto thread
        (.failed r key env.reply.1)) := by
  have hright : r.At content config key := by
    have hpcs := h.pcs thread
    rwa [hpc] at hpcs
  refine ⟨fun k b' hb' => ?_, fun k b' hb' => ?_, fun other k b' hcopies hb' => ?_, fun other => ?_,
    ⟨h.served.copies, h.served.returned⟩⟩
  · change (s.cache.cache.insert key (b.update r.mtime env)).lookup k = some b' at hb'
    by_cases hk : k = key
    · subst hk
      rw [AList.lookup_insert] at hb'
      obtain rfl := Option.some.inj hb'
      obtain ⟨hoffset, hlength⟩ := h.shape k b hb
      exact ⟨hoffset, length_update hlength hreply⟩
    · rw [AList.lookup_insert_ne hk] at hb'
      exact h.shape k b' hb'
  · change (s.cache.cache.insert key (b.update r.mtime env)).lookup k = some b' at hb'
    by_cases hk : k = key
    · subst hk
      exact Or.inr ⟨thread, by rw [goto_self]; rfl⟩
    · rw [AList.lookup_insert_ne hk] at hb'
      refine (h.fresh k b' hb').imp_right ?_
      rintro ⟨other, hremoves⟩
      have hne : other ≠ thread := by
        rintro rfl
        rw [hpc] at hremoves
        cases hremoves
      exact ⟨other, by rwa [goto_of_ne _ _ _ hne]⟩
  · change (s.cache.cache.insert key (b.update r.mtime env)).lookup k = some b' at hb'
    have hne : other ≠ thread := by
      rintro rfl
      rw [goto_self] at hcopies
      cases hcopies
    rw [goto_of_ne _ _ _ hne] at hcopies
    have hk : k ≠ key := by
      rintro rfl
      exact hother other hcopies
    rw [AList.lookup_insert_ne hk] at hb'
    exact h.copying other k b' hcopies hb'
  · have hfailed : (Pc.failed r key env.reply.1).Right content config := ⟨hright.right, hres⟩
    exact forall_goto _ thread _ (P := fun _ pc => pc.Right content config) hfailed
      (fun other _ => h.pcs other) other

/-- A fetch that succeeds: the thread copies from a block that holds its slice. -/
theorem Clean.refreshed (h : Clean content config s) {thread : ℕ} {r : Reading} {key : Key}
    {b : Block} (hpc : s.pcs thread = .refreshing r key)
    (hholds : b.Holds config.blockSize key.2 (content key.1)) :
    Clean content config ({ s with cache.cache := s.cache.cache.insert key b }.goto thread
      (.copying r key)) := by
  refine (h.insert hholds).goto (h.right hpc :) (fun k b' hk hb' => ?_) fun k hk => ?_
  · obtain rfl := Option.some.inj hk
    have hself : (s.cache.cache.insert key b).lookup key = some b' := hb'
    rw [AList.lookup_insert] at hself
    exact Option.some.inj hself ▸ hholds
  · dsimp only at hk
    rw [hpc] at hk
    cases hk

/-- **Step lemma.** Every step that is not disturbed keeps the invariant. -/
theorem Clean.step (h : Clean content config s) {a : ThreadAction}
    (hfixed : FixedContents content config s a) (hok : Undisturbed config s a)
    (hstep : s.step config policy a = some t) : Clean content config t := by
  cases steps_of_step hstep with
  | bypass hpc => exact h.move hpc rfl trivial rfl
  | begun hpc =>
    refine h.move hpc rfl ⟨?_, hfixed⟩ rfl
    rw [List.length_nil, pread_zero]
  | @bypassed thread size offset path fi env hpc =>
    refine (h.return ?_).move hpc rfl trivial rfl
    simp only [FixedContents, Threads.asked, hpc] at hfixed
    rcases hfixed with ⟨hneg, _⟩ | hexact
    · exact right_of_neg hneg
    · intro res out hout _
      obtain ⟨_, rfl⟩ := Outcome.ret.inj hout
      rw [hexact, pread_length_pread]
  | ended hpc => exact h.finish hpc rfl ((h.right hpc).returned _)
  | missed hpc hblock => exact h.move hpc rfl ⟨h.right hpc, rfl, hblock⟩ rfl
  | @hit thread r env b hpc hblock hb hvalid =>
    have hholds : b.Holds config.blockSize (r.key config).2 (content (r.key config).1) := by
      rcases h.fresh _ b hb with hholds | ⟨other, hremoves⟩
      · exact hholds
      · have hother : ∀ other, (s.pcs other).removes ≠ some (r.key config) := by
          simp only [Undisturbed, hpc] at hok
          exact hok b hb hvalid
        exact absurd hremoves (hother other)
    exact h.copy hpc rfl ⟨h.right hpc, rfl, hblock⟩ hholds
  | @outdated thread r env b hpc hblock hb =>
    have hlocked : Clean content config { s with shared := thread :: s.shared } :=
      h.of_eq rfl rfl rfl rfl
    exact hlocked.move hpc rfl ⟨h.right hpc, rfl, hblock⟩ rfl
  | @refreshFailed thread r key env b hpc hb hres =>
    have hother : ∀ other, (s.pcs other).copies ≠ some key := by
      simp only [Undisturbed, hpc] at hok
      exact hok hres
    simp only [FixedContents, Threads.asked, hpc, hb, Option.map_some] at hfixed
    rcases hfixed with ⟨_, hlength⟩ | hexact
    · exact h.refreshFailed hpc hb hres hlength hother
    · rw [hexact] at hres
      dsimp only at hres
      omega
  | @refreshed thread r key env b hpc hb hres =>
    obtain ⟨hoffset, hlength⟩ := h.shape key b hb
    have hpath : key.1 = r.path := by rw [(h.right hpc).key]; rfl
    simp only [FixedContents, Threads.asked, hpc, hb, Option.map_some] at hfixed
    rcases hfixed with ⟨hneg, _⟩ | hexact
    · omega
    · rw [hoffset, ← hpath] at hexact
      exact h.refreshed hpc (holds_update r.mtime hoffset hlength hexact)
  | @copied thread r key env b hpc hb =>
    have hholds := h.copying thread key b (by rw [hpc]; rfl) hb
    have hunlocked : Clean content config (s.unlock thread) := h.of_eq rfl rfl rfl rfl
    exact hunlocked.copy hpc rfl (h.right hpc) hholds
  | @touched thread r key env hpc =>
    have hpolicy : Clean content config { s with cache := s.cache.touch policy key } :=
      h.of_eq rfl rfl rfl rfl
    exact hpolicy.move hpc rfl (h.right hpc :) rfl
  | @unlocked thread r key res env hpc =>
    have hunlocked : Clean content config (s.unlock thread) := h.of_eq rfl rfl rfl rfl
    refine hunlocked.goto (h.right hpc :) (fun k b hk => by cases hk) fun k hk => ?_
    change (s.pcs thread).removes = some k at hk
    rwa [hpc] at hk
  | @removed thread r key res env hpc hshared =>
    refine h.remove (h.right hpc :) rfl fun k hk => ?_
    rw [hpc] at hk
    exact (Option.some.inj hk).symm
  | @dropped thread r key res env hpc =>
    have hpolicy : Clean content config
        { s with cache.policyState := policy.remove key s.cache.policyState } :=
      h.of_eq rfl rfl rfl rfl
    exact hpolicy.finish hpc rfl (right_of_neg (h.right hpc).2)
  | full hpc => exact h.move hpc rfl (h.right hpc :) rfl
  | room hpc => exact h.move hpc rfl (h.right hpc :) rfl
  | @evicted thread r key selected state env hpc hevict =>
    have hpolicy : Clean content config { s with cache.policyState := state } :=
      h.of_eq rfl rfl rfl rfl
    exact hpolicy.move hpc rfl (h.right hpc :) rfl
  | @evictedNone thread r key state env hpc hevict =>
    have hpolicy : Clean content config { s with cache.policyState := state } :=
      h.of_eq rfl rfl rfl rfl
    exact hpolicy.move hpc rfl (h.right hpc :) rfl
  | @discarded thread r key selected env hpc hshared =>
    refine h.remove (h.right hpc :) rfl fun k hk => ?_
    rw [hpc] at hk
    cases hk
  | fetchFailed hpc hres => exact h.finish hpc rfl (right_of_neg hres)
  | fetchEnded hpc => exact h.finish hpc rfl ((h.right hpc).right.returned _)
  | @fetched thread r key env hpc hres =>
    have hat : r.At content config key := h.right hpc
    have hpath : key.1 = r.path := by rw [hat.key]; rfl
    simp only [FixedContents, Threads.asked, hpc] at hfixed
    rcases hfixed with ⟨hneg, _⟩ | hexact
    · omega
    · refine h.move hpc rfl ⟨hat, fun timestamp => ?_⟩ rfl
      rw [hexact, Int.toNat_natCast, ← hpath]
      exact holds_overlay _ _ _ List.length_replicate _
  | found hpc hmem => exact h.move hpc rfl (h.right hpc).1.right rfl
  | @emplaced thread r key newBuf blockSize env hpc hshared =>
    exact (h.insert ((h.right hpc).2 env.now)).move hpc rfl (h.right hpc).1.right rfl
  | @counted thread r key env hpc =>
    have hcounter : Clean content config { s with
        cache.cacheSize := (s.cache.cacheSize + config.blockSize) % 2 ^ 64 } :=
      h.of_eq rfl rfl rfl rfl
    exact hcounter.move hpc rfl (h.right hpc :) rfl
  | opened => exact h.of_eq rfl rfl rfl rfl
  | released => exact h.of_eq rfl rfl rfl rfl

/-- **Refresh.** In every run of any number of reads over files with fixed contents, in which
no fetch fails between another read's fetch of the block and its copy and no read finds a
block valid between a failed fetch and the removal of the block, every byte copied was
delivered by a fetch of the block that succeeded. -/
theorem refresh_never_served {policyState : ρ} {actions : List ThreadAction}
    (hrun : Transition.run (Threads.step config policy) (Threads.initial policyState) actions = some s)
    (hfixed : Transition.Meets (Threads.step config policy) (FixedContents content config)
      (Threads.initial policyState) actions)
    (hok : Transition.Meets (Threads.step config policy) (Undisturbed config)
      (Threads.initial policyState) actions) : NeverServed content config s := by
  have hinitial : Clean content config (Threads.initial policyState) := by
    refine ⟨fun k b hb => ?_, fun k b hb => ?_, fun thread k b hk => ?_, fun _ => trivial,
      fun c hc => absurd hc List.not_mem_nil, fun e he => absurd he List.not_mem_nil⟩
    · cases hb
    · cases hb
    · cases hk
  exact (Transition.invariant (fun s a t h hsa hstep => h.step hsa.1 hsa.2 hstep) hrun
    (hfixed.and hok) hinitial).served

/-- A file of three bytes in blocks of four, which expire after a second. -/
def smallBlocks : DataCacheConfig := { size := 8, blockSize := 4, timeOut := 1 }

/-- A read that brings the block into the cache, by thread 0. -/
def fillBlock : List ThreadAction :=
  [.opened ['/', 'f'] ⟨0, 0⟩, .start 0 ['/', 'f'] 3 0 default, .advance 0 ⟨(0, []), 0⟩,
    .advance 0 ⟨(0, []), 0⟩, .advance 0 ⟨(3, [1, 2, 3]), 0⟩, .advance 0 ⟨(0, []), 0⟩,
    .advance 0 ⟨(0, []), 0⟩, .advance 0 ⟨(0, []), 0⟩, .advance 0 ⟨(0, []), 0⟩,
    .advance 0 ⟨(0, []), 0⟩, .advance 0 ⟨(0, []), 0⟩]

/-- After two seconds the fetch of thread 1 fails, and it removes the block. -/
def failAlone : List ThreadAction :=
  [.start 1 ['/', 'f'] 4 0 default, .advance 1 ⟨(0, []), 2000000000⟩,
    .advance 1 ⟨(-5, []), 2000000000⟩, .advance 1 ⟨(0, []), 0⟩, .advance 1 ⟨(0, []), 0⟩,
    .advance 1 ⟨(0, []), 0⟩]

/-- Thread 2 reads between the failed fetch of thread 1 and the removal of the block. -/
def readFailed : List ThreadAction :=
  [.start 1 ['/', 'f'] 4 0 default, .advance 1 ⟨(0, []), 2000000000⟩,
    .advance 1 ⟨(-5, []), 2000000000⟩, .start 2 ['/', 'f'] 4 0 default,
    .advance 2 ⟨(0, []), 2000000000⟩, .advance 2 ⟨(0, []), 0⟩, .advance 2 ⟨(0, []), 0⟩]

section Runs

/-- The contents of the file. -/
def threeBytes : PathName → Bytes := fun _ => [1, 2, 3]

theorem fillBlock_fixed :
    Transition.Meets (Threads.step smallBlocks lruEviction) (FixedContents threeBytes smallBlocks)
      (Threads.initial LruState.empty) fillBlock :=
  .cons trivial rfl (.cons (Nat.zero_le 3) rfl (.cons trivial rfl (.cons trivial rfl
    (.cons (Or.inr rfl) rfl (.cons trivial rfl (.cons trivial rfl (.cons trivial rfl
      (.cons trivial rfl (.cons trivial rfl (.cons trivial rfl trivial))))))))))

theorem fillBlock_undisturbed :
    Transition.Meets (Threads.step smallBlocks lruEviction) (Undisturbed smallBlocks)
      (Threads.initial LruState.empty) fillBlock := by
  refine .cons trivial rfl (.cons trivial rfl (.cons ?_ rfl (.cons trivial rfl (.cons trivial rfl
    (.cons trivial rfl (.cons trivial rfl (.cons trivial rfl (.cons ?_ rfl (.cons trivial rfl
      (.cons ?_ rfl trivial))))))))))
  · intro b hb
    cases hb
  · intro b _ _ other
    match other with
    | 0 => exact nofun
    | _ + 1 => exact nofun
  · intro b _ _ other
    match other with
    | 0 => exact nofun
    | _ + 1 => exact nofun

/-- The fetch that fails alone is not served. -/
theorem refresh_never_served_failAlone :
    ∃ s, Transition.run (Threads.step smallBlocks lruEviction) (Threads.initial LruState.empty)
        (fillBlock ++ failAlone) = some s ∧
      s.returned.map (·.outcome.bytes) = [[], [1, 2, 3]] ∧
      NeverServed threeBytes smallBlocks s := by
  obtain ⟨s, hrun, hreturned⟩ : ∃ s, Transition.run (Threads.step smallBlocks lruEviction)
      (Threads.initial LruState.empty) (fillBlock ++ failAlone) = some s ∧
      s.returned.map (·.outcome.bytes) = [[], [1, 2, 3]] := ⟨_, rfl, rfl⟩
  refine ⟨s, hrun, hreturned, refresh_never_served hrun (fillBlock_fixed.append rfl ?_)
    (fillBlock_undisturbed.append rfl ?_)⟩
  · exact .cons (Nat.zero_le 3) rfl (.cons trivial rfl
      (.cons (Or.inl ⟨by decide, by decide⟩) rfl (.cons trivial rfl (.cons trivial rfl
        (.cons trivial rfl trivial)))))
  · refine .cons trivial rfl (.cons ?_ rfl (.cons ?_ rfl (.cons trivial rfl (.cons trivial rfl
      (.cons trivial rfl trivial)))))
    · intro b _ _ other
      match other with
      | 0 => exact nofun
      | 1 => exact nofun
      | _ + 2 => exact nofun
    · intro _ other
      match other with
      | 0 => exact nofun
      | 1 => exact nofun
      | _ + 2 => exact nofun

/-- The read in between returns four bytes of a file that has three. -/
theorem not_never_served : ¬ ∀ (content : PathName → Bytes) (config : DataCacheConfig)
    (actions : List ThreadAction) (s : Threads (LruState Key)),
    Transition.run (Threads.step config lruEviction) (Threads.initial LruState.empty) actions =
      some s →
    Transition.Meets (Threads.step config lruEviction) (FixedContents content config)
      (Threads.initial LruState.empty) actions →
    NeverServed content config s := by
  intro hall
  have hserved := hall threeBytes smallBlocks (fillBlock ++ readFailed) _ rfl
    (fillBlock_fixed.append rfl (.cons (Nat.zero_le 3) rfl (.cons trivial rfl
      (.cons (Or.inl ⟨by decide, by decide⟩) rfl (.cons (Nat.zero_le 3) rfl (.cons trivial rfl
        (.cons trivial rfl (.cons trivial rfl trivial))))))))
  have hcount : 0 < toInt 4 := by
    rw [toInt_of_le (by decide)]
    decide
  have hbytes := hserved.returned _ List.mem_cons_self (toInt 4) [1, 2, 3, 0] rfl hcount
  exact absurd hbytes (by decide)

end Runs

end RSafeFS.DataCache
