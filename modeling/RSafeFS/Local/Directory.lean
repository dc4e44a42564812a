import RSafeFS.Rpc.Readdir
import RSafeFS.Lib.Loop
import Mathlib.Logic.Function.Basic

/-!
# Listing a directory in pages

`local_readdir` and `nfs_readdir` keep the directory stream, the entry that the last filler
did not take, and the offset behind the last entry that one took. A caller with a small buffer
lists a directory in several calls, each from the offset of the last entry it has. What a call
lists depends on that offset alone, also where the calls before it came from a server, which
has read all entries when its client has taken a few.
-/

namespace RSafeFS.Local

open Rpc

/-- `struct dirent`. -/
structure Dirent where
  ino : UInt64
  type : UInt8
  name : CString

/-- `<dirent.h>` on an open stream in state `δ`. An entry that cannot be had, at the end or
for an error, is `none`. -/
structure DirStream (δ : Type) where
  readdir : δ → Option Dirent × δ
  telldir : δ → Int64 × δ
  seekdir : Int64 → δ → δ

/-- `local_dirp` and `dir_handle`, with the state of the stream in the place of its pointer. -/
structure DirHandle (δ : Type) where
  dirPtr : δ
  entry : Option Dirent
  offset : Int64

section Stream

variable {δ : Type} (stream : DirStream δ)

/-- The start of `readdir`: another offset than that of the handle is sought. -/
def DirHandle.seek (d : DirHandle δ) (offset : Int64) : DirHandle δ :=
  if offset ≠ d.offset then ⟨stream.seekdir offset d.dirPtr, none, offset⟩ else d

/-- `if (!d->entry) d->entry = readdir(d->dir_ptr)`. -/
def DirHandle.next (d : DirHandle δ) : DirHandle δ :=
  match d.entry with
  | some _ => d
  | none =>
    let (entry, dirPtr) := stream.readdir d.dirPtr
    { d with dirPtr, entry }

/-- The `stat` of an entry: its inode and its type, at the place of the file type. -/
def Dirent.stat (entry : Dirent) : Rpc.Stat :=
  { (default : Rpc.Stat) with ino := entry.ino, mode := entry.type.toUInt32 <<< 12 }

/-- One turn of the loop of `readdir`. -/
def readdirBody {β : Type} (filler : FuseFillDir β) (s : DirHandle δ × β) :
    Loop.Step (DirHandle δ × β) (DirHandle δ × β) :=
  let d := s.1.next stream
  match d.entry with
  | none => .done (d, s.2)
  | some entry =>
    let (nextoff, dirPtr) := stream.telldir d.dirPtr
    let (full, buf) := filler ⟨entry.name, entry.stat, nextoff⟩ s.2
    if full then .done ({ d with dirPtr }, buf)
    else .next (⟨dirPtr, none, nextoff⟩, buf)

/-- `readdir` on an open stream, for at most `fuel` turns of the loop. -/
def DirHandle.readdir (fuel : ℕ) (d : DirHandle δ) {β : Type} (buf : β) (filler : FuseFillDir β)
    (offset : Int64) : Option (DirHandle δ × β) :=
  Loop.run (fun _ => readdirBody stream filler) fuel 0 (d.seek stream offset, buf)

end Stream

/-- A directory that does not change: its entries in the order of `readdir`, and the value of
`telldir` behind each number of entries read. -/
structure Directory where
  entries : List Dirent
  telldir : ℕ → Int64
  telldir_zero : telldir 0 = 0
  telldir_inj : ∀ i ≤ entries.length, ∀ j ≤ entries.length, telldir i = telldir j → i = j

/-- `seekdir`. An offset that is not one of `telldir` has no defined effect. -/
def Directory.seekdir (dir : Directory) (offset : Int64) (index : ℕ) : ℕ :=
  ((List.range (dir.entries.length + 1)).find? fun i => dir.telldir i == offset).getD index

/-- The stream of a directory, as the number of entries read from it. -/
def Directory.stream (dir : Directory) : DirStream ℕ where
  readdir index :=
    match dir.entries[index]? with
    | some entry => (some entry, index + 1)
    | none => (none, index)
  telldir index := (dir.telldir index, index)
  seekdir := dir.seekdir

/-- An open directory with its handle. -/
structure OpenDir where
  dir : Directory
  handle : DirHandle ℕ

/-- What `local_opendir` and `nfs_opendir` allocate. -/
def OpenDir.opened (dir : Directory) : OpenDir := ⟨dir, ⟨0, none, 0⟩⟩

/-- The open directories, by the addresses of their handles. -/
abbrev Dirs := UInt64 → Option OpenDir

/-- The body that the two tables share. Each turn of the loop but the last reads an entry. -/
def readdirEntry : Readdir Dirs := fun _ buf filler offset fi dirs => do
  let d ← dirs fi.fh
  let (handle, buf) ←
    d.handle.readdir d.dir.stream (d.dir.entries.length + 1) buf filler offset
  return ((0, buf, fi), Function.update dirs fi.fh (some { d with handle }))

/-- `local_readdir`. -/
def localReaddir : Readdir Dirs := readdirEntry

/-- `nfs_readdir`. -/
def nfsReaddir : Readdir Dirs := readdirEntry

/-- The entries of the directory as they are listed, in order. -/
def Directory.listing (dir : Directory) : List Listed :=
  dir.entries.mapIdx fun i entry => ⟨entry.name, entry.stat, dir.telldir (i + 1)⟩

/-- The handle stands behind `m` entries, and has perhaps read the next one already. -/
structure DirHandle.At (dir : Directory) (d : DirHandle ℕ) (m : ℕ) : Prop where
  le : m ≤ dir.entries.length
  offset : d.offset = dir.telldir m
  stream : (d.entry = none ∧ d.dirPtr = m) ∨
    ∃ entry, dir.entries[m]? = some entry ∧ d.entry = some entry ∧ d.dirPtr = m + 1

variable {dir : Directory} {d : DirHandle ℕ} {m k : ℕ}

@[simp] theorem listing_length (dir : Directory) : dir.listing.length = dir.entries.length := by
  simp [Directory.listing]

@[simp] theorem stream_telldir (dir : Directory) (index : ℕ) :
    dir.stream.telldir index = (dir.telldir index, index) := rfl

/-- The listing from an entry on. -/
theorem listing_drop {entry : Dirent} (hentry : dir.entries[m]? = some entry) :
    dir.listing.drop m =
      ⟨entry.name, entry.stat, dir.telldir (m + 1)⟩ :: dir.listing.drop (m + 1) := by
  obtain ⟨hm, hget⟩ := List.getElem?_eq_some_iff.mp hentry
  have hlt : m < dir.listing.length := by simpa using hm
  rw [List.drop_eq_getElem_cons hlt]
  simp [Directory.listing, hget]

/-- `seekdir` finds the place of each value of `telldir`. -/
theorem seekdir_telldir (hm : m ≤ dir.entries.length) (index : ℕ) :
    dir.seekdir (dir.telldir m) index = m := by
  unfold Directory.seekdir
  cases hfind : (List.range (dir.entries.length + 1)).find?
      fun i => dir.telldir i == dir.telldir m with
  | none =>
    have hnone := List.find?_eq_none.mp hfind m (List.mem_range.mpr (by omega))
    simp at hnone
  | some i =>
    have hi : i ∈ List.range (dir.entries.length + 1) := List.mem_of_find?_eq_some hfind
    have heq : dir.telldir i = dir.telldir m := by simpa using List.find?_some hfind
    exact dir.telldir_inj i (by have := List.mem_range.mp hi; omega) m hm heq

/-- Wherever the handle stands, it is sought to the place of the offset. -/
theorem DirHandle.At.seek (h : d.At dir m) (hk : k ≤ dir.entries.length) :
    (d.seek dir.stream (dir.telldir k)).At dir k := by
  unfold DirHandle.seek
  split
  · exact ⟨hk, rfl, Or.inl ⟨rfl, seekdir_telldir hk _⟩⟩
  · next hsame =>
    rw [not_not, h.offset] at hsame
    rw [dir.telldir_inj k hk m h.le hsame]
    exact h

/-- Behind the last entry there is none to be had. -/
theorem DirHandle.At.next_none (h : d.At dir m) (hentry : dir.entries[m]? = none) :
    d.next dir.stream = d ∧ d.entry = none := by
  rcases h.stream with ⟨hnone, hptr⟩ | ⟨entry, hsome, -, -⟩
  · refine ⟨?_, hnone⟩
    cases d
    simp only at hnone hptr
    simp only [DirHandle.next, Directory.stream, hnone, hptr, hentry]
  · rw [hentry] at hsome
    cases hsome

/-- Before that the next entry is the one read already or is read now. -/
theorem DirHandle.At.next_some (h : d.At dir m) {entry : Dirent}
    (hentry : dir.entries[m]? = some entry) :
    d.next dir.stream = ⟨m + 1, some entry, dir.telldir m⟩ := by
  have hoffset := h.offset
  rcases h.stream with ⟨hnone, hptr⟩ | ⟨entry', hentry', hsome, hptr⟩
  · simp only [DirHandle.next, Directory.stream, hnone, hptr, hentry, hoffset]
  · rw [hentry] at hentry'
    obtain rfl := Option.some.inj hentry'
    cases d
    simp only [DirHandle.next] at hsome hptr hoffset ⊢
    rw [hsome, hptr, hoffset]

/-- How many entries are left to be read. -/
def DirHandle.left (dir : Directory) (d : DirHandle ℕ) : ℕ :=
  dir.entries.length - d.dirPtr + if d.entry.isSome then 1 else 0

theorem DirHandle.At.left_eq (h : d.At dir m) : d.left dir = dir.entries.length - m := by
  rcases h.stream with ⟨hnone, hptr⟩ | ⟨entry, hentry, hsome, hptr⟩
  · simp [DirHandle.left, hnone, hptr]
  · have hlt := (List.getElem?_eq_some_iff.mp hentry).1
    simp only [DirHandle.left, hsome, hptr, Option.isSome_some, if_true]
    omega

/-- **What one call lists.** From the offset behind `k` entries the filler is given the entries
from there on until it is full, whatever was listed before. -/
theorem DirHandle.At.readdir (h : d.At dir m) (hk : k ≤ dir.entries.length) {β : Type} (buf : β)
    (filler : FuseFillDir β) :
    ∃ d' m', DirHandle.At dir d' m' ∧
      d.readdir dir.stream (dir.entries.length + 1) buf filler (dir.telldir k) =
        some (d', fillAll filler (dir.listing.drop k) buf) := by
  have hrun : ∃ r, Loop.run (fun _ => readdirBody dir.stream filler) (dir.entries.length + 1) 0
      (d.seek dir.stream (dir.telldir k), buf) = some r ∧
        ∃ m, r.1.At dir m ∧ r.2 = fillAll filler (dir.listing.drop k) buf := by
    -- From every turn on, what is still to be filled in gives the same buffer.
    apply Loop.run_rule (m := fun s => s.1.left dir) (I := fun s => ∃ m, s.1.At dir m ∧
      fillAll filler (dir.listing.drop m) s.2 = fillAll filler (dir.listing.drop k) buf)
    · rintro - ⟨d, buf'⟩ ⟨m, hat, hfill⟩
      dsimp only at hat hfill
      cases hentry : dir.entries[m]? with
      | none =>
        obtain ⟨hnext, hnone⟩ := hat.next_none hentry
        have hnil : dir.listing.drop m = [] := by
          rw [List.drop_eq_nil_iff, listing_length]
          exact List.getElem?_eq_none_iff.mp hentry
        rw [hnil] at hfill
        simp only [readdirBody, hnext, hnone]
        exact ⟨m, hat, hfill⟩
      | some entry =>
        have hlt := (List.getElem?_eq_some_iff.mp hentry).1
        rw [listing_drop hentry, fillAll] at hfill
        simp only [readdirBody, hat.next_some hentry, stream_telldir]
        cases hfull : filler ⟨entry.name, entry.stat, dir.telldir (m + 1)⟩ buf' with
        | mk full buf'' =>
          rw [hfull] at hfill
          cases full with
          | true => exact ⟨m, ⟨hat.le, rfl, Or.inr ⟨entry, hentry, rfl, rfl⟩⟩, hfill⟩
          | false =>
            have hat' : DirHandle.At dir ⟨m + 1, none, dir.telldir (m + 1)⟩ (m + 1) :=
              ⟨hlt, rfl, Or.inl ⟨rfl, rfl⟩⟩
            refine ⟨⟨m + 1, hat', hfill⟩, ?_⟩
            show DirHandle.left dir ⟨m + 1, none, dir.telldir (m + 1)⟩ < d.left dir
            rw [hat'.left_eq, hat.left_eq]
            omega
    · exact ⟨k, h.seek hk, rfl⟩
    · rw [(h.seek hk).left_eq]
      omega
  obtain ⟨⟨d', buf'⟩, hrun, m', hat, rfl⟩ := hrun
  exact ⟨d', m', hat, hrun⟩

/-- The entry lists the directory at the handle of `fi` from the offset it is given. -/
def Lists (readdir : Readdir Dirs) (dir : Directory) : Prop :=
  ∀ ⦃dirs : Dirs⦄ ⦃fi : Rpc.FuseFileInfo⦄ ⦃d : DirHandle ℕ⦄ ⦃m k : ℕ⦄ (path : CString),
    dirs fi.fh = some ⟨dir, d⟩ → d.At dir m → k ≤ dir.entries.length →
    ∀ ⦃β : Type⦄ (buf : β) (filler : FuseFillDir β), ∃ dirs' d' m',
      dirs' fi.fh = some ⟨dir, d'⟩ ∧ DirHandle.At dir d' m' ∧
      readdir path buf filler (dir.telldir k) fi dirs =
        some ((0, fillAll filler (dir.listing.drop k) buf, fi), dirs')

theorem lists_readdirEntry (dir : Directory) : Lists readdirEntry dir := by
  intro dirs fi d m k path hdirs hat hk β buf filler
  obtain ⟨d', m', hat', hreaddir⟩ := hat.readdir hk buf filler
  refine ⟨Function.update dirs fi.fh (some ⟨dir, d'⟩), d', m', Function.update_self _ _ _, hat', ?_⟩
  simp only [readdirEntry, hdirs, hreaddir, bind, Option.bind_some, pure]

/-- The `stat` of an entry survives the wire: its other fields are zero. -/
theorem fillStat_stat (entry : Dirent) :
    fillStat default (fillStructStat default entry.stat) = entry.stat := by
  have hzero : Int64.toUInt64 0 = 0 := rfl
  simp [fillStat, fillStructStat, Dirent.stat, default, hzero]

/-- An entry that lists the directory does so over RPC. -/
theorem Lists.remote {readdir : Readdir Dirs} (h : Lists readdir dir) :
    Lists (SyncClient.readdir readdir) dir := by
  intro dirs fi d m k path hdirs hat hk β buf filler
  obtain ⟨dirs', d', m', hdirs', hat', hserver⟩ := h path hdirs hat hk [] rpcFiller
  refine ⟨dirs', d', m', hdirs', hat', readdir_eq hserver (fun listed hlisted => ?_) buf filler⟩
  obtain ⟨i, hi, rfl⟩ := List.mem_mapIdx.mp (List.mem_of_mem_drop hlisted)
  exact fillStat_stat _

/-- The tables of operations on local files. -/
inductive Table where
  | «local» | nfs
  deriving DecidableEq, Repr

/-- The entry for `readdir`, as a process beside the table calls it or a client of its server. -/
def Table.readdir (remote : Bool) : Table → Readdir Dirs
  | .local => if remote then SyncClient.readdir localReaddir else localReaddir
  | .nfs => if remote then SyncClient.readdir nfsReaddir else nfsReaddir

/-- Both tables list, near and far. -/
theorem lists_readdir (table : Table) (remote : Bool) (dir : Directory) :
    Lists (table.readdir remote) dir := by
  cases table <;> cases remote
  · exact lists_readdirEntry dir
  · exact (lists_readdirEntry dir).remote
  · exact lists_readdirEntry dir
  · exact (lists_readdirEntry dir).remote

/-- A call of a reader: whether it starts anew, and how many entries its buffer takes. -/
structure Call where
  restart : Bool
  capacity : ℕ

/-- A filler with room for a number of entries. -/
def fillUpTo : FuseFillDir (ℕ × List Listed) := fun entry (room, accepted) =>
  match room with
  | 0 => (true, (0, accepted))
  | room + 1 => (false, (room, accepted ++ [entry]))

/-- A reader of a directory: the open directories, its own, and the entries that it has
accepted since it last started at offset 0. -/
structure Reader where
  dirs : Dirs
  fi : Rpc.FuseFileInfo
  accepted : List Listed

/-- The reader calls `readdir` with the offset of the last entry that it has accepted. -/
def Reader.step (readdir : Readdir Dirs) (path : CString) (r : Reader) (call : Call) :
    Option Reader := do
  let accepted := if call.restart then [] else r.accepted
  let offset := (accepted.getLast?.map Listed.off).getD 0
  let ((res, (_, accepted), fi), dirs) ←
    readdir path (call.capacity, accepted) fillUpTo offset r.fi r.dirs
  if res = 0 then some { dirs, fi, accepted } else none

/-- A filler with room takes as many entries as it has room for. -/
theorem fillAll_fillUpTo (entries : List Listed) (room : ℕ) (accepted : List Listed) :
    (fillAll fillUpTo entries (room, accepted)).2 = accepted ++ entries.take room := by
  induction entries generalizing room accepted with
  | nil => simp [fillAll]
  | cons entry entries ih =>
    cases room with
    | zero => simp [fillAll, fillUpTo]
    | succ room => simp [fillAll, fillUpTo, ih]

/-- The offset of the last of the first entries. -/
theorem offset_take (hm : m ≤ dir.entries.length) :
    ((dir.listing.take m).getLast?.map Listed.off).getD 0 = dir.telldir m := by
  cases m with
  | zero => simp [dir.telldir_zero]
  | succ m =>
    have hlt : m < dir.entries.length := hm
    rw [List.getLast?_take]
    simp [hlt, Directory.listing]

/-- The reader has accepted the first entries, and its handle stands somewhere. -/
structure Reader.Listing (dir : Directory) (r : Reader) : Prop where
  handle : ∃ d m, r.dirs r.fi.fh = some ⟨dir, d⟩ ∧ DirHandle.At dir d m
  accepted : r.accepted <+: dir.listing

/-- **One call.** It returns 0, and adds the next entries as far as there is room. -/
theorem Reader.Listing.step {readdir : Readdir Dirs} (hlists : Lists readdir dir) {r : Reader}
    (h : r.Listing dir) (path : CString) (call : Call) :
    ∃ r', r.step readdir path call = some r' ∧ r'.Listing dir ∧
      r'.accepted = dir.listing.take
        ((if call.restart then 0 else r.accepted.length) + call.capacity) := by
  obtain ⟨d, m, hdirs, hat⟩ := h.handle
  have hstart : ∃ start, start ≤ dir.entries.length ∧
      start = (if call.restart then 0 else r.accepted.length) ∧
      (if call.restart then [] else r.accepted) = dir.listing.take start := by
    cases call.restart with
    | true => exact ⟨0, Nat.zero_le _, rfl, rfl⟩
    | false =>
      refine ⟨r.accepted.length, ?_, rfl, List.prefix_iff_eq_take.mp h.accepted⟩
      simpa using h.accepted.length_le
  obtain ⟨start, hle, hstart, haccepted⟩ := hstart
  obtain ⟨dirs', d', m', hdirs', hat', hreaddir⟩ := hlists path hdirs hat hle
    (call.capacity, dir.listing.take start) fillUpTo
  refine ⟨⟨dirs', r.fi, dir.listing.take (start + call.capacity)⟩, ?_,
    ⟨⟨d', m', hdirs', hat'⟩, List.take_prefix _ _⟩, by rw [hstart]⟩
  have htaken := fillAll_fillUpTo (dir.listing.drop start) call.capacity (dir.listing.take start)
  rw [← List.take_add] at htaken
  simp only [Reader.step, haccepted, offset_take hle, hreaddir, bind, Option.bind_some, if_true,
    htaken]

/-- **Pagination.** Whatever calls a reader has made, each from the offset of the last entry
that it had accepted or anew from 0: it has accepted the first entries of the directory, in
order and each once. The next call adds the entries that follow, as far as there is room for
them, so that it adds none only when all have been delivered; and a call with offset 0 starts
with the first entry. -/
theorem readdir_pages (table : Table) (remote : Bool) (path : CString) (dir : Directory)
    {dirs : Dirs} {fi : Rpc.FuseFileInfo} (hopened : dirs fi.fh = some (.opened dir))
    (calls : List Call) :
    ∃ r, Transition.run (Reader.step (table.readdir remote) path) ⟨dirs, fi, []⟩ calls = some r ∧
      r.accepted <+: dir.listing ∧
      ∀ capacity,
        (∃ r', r.step (table.readdir remote) path ⟨false, capacity⟩ = some r' ∧
          r'.accepted = dir.listing.take (r.accepted.length + capacity) ∧
          (0 < capacity → r'.accepted = r.accepted → r.accepted = dir.listing)) ∧
        ∃ r', r.step (table.readdir remote) path ⟨true, capacity⟩ = some r' ∧
          r'.accepted = dir.listing.take capacity := by
  have hlists := lists_readdir table remote dir
  have hrun : ∀ (r : Reader) (calls : List Call), r.Listing dir →
      ∃ r', Transition.run (Reader.step (table.readdir remote) path) r calls = some r' ∧
        r'.Listing dir := by
    intro r calls hr
    induction calls generalizing r with
    | nil => exact ⟨r, rfl, hr⟩
    | cons call calls ih =>
      obtain ⟨next, hstep, hnext, -⟩ := hr.step hlists path call
      obtain ⟨r', hrest, hr'⟩ := ih next hnext
      exact ⟨r', Transition.run_cons.mpr ⟨next, hstep, hrest⟩, hr'⟩
  have hstart : Reader.Listing dir ⟨dirs, fi, []⟩ :=
    ⟨⟨_, 0, hopened, Nat.zero_le _, dir.telldir_zero.symm, Or.inl ⟨rfl, rfl⟩⟩, List.nil_prefix⟩
  obtain ⟨r, hr, hlisting⟩ := hrun _ calls hstart
  refine ⟨r, hr, hlisting.accepted, fun capacity => ⟨?_, ?_⟩⟩
  · obtain ⟨r', hstep, -, haccepted⟩ := hlisting.step hlists path ⟨false, capacity⟩
    refine ⟨r', hstep, haccepted, fun hpos hnone => ?_⟩
    have hlength := congrArg List.length haccepted
    rw [hnone, List.length_take] at hlength
    simp only [Bool.false_eq_true, if_false] at hlength
    exact hlisting.accepted.eq_of_length_le (by omega)
  · obtain ⟨r', hstep, -, haccepted⟩ := hlisting.step hlists path ⟨true, capacity⟩
    exact ⟨r', hstep, by simpa using haccepted⟩

/-- A directory with two entries. -/
def twoEntries : Directory where
  entries := [⟨7, 8, ⟨[97], by decide⟩⟩, ⟨8, 4, ⟨[98], by decide⟩⟩]
  telldir i := Int64.ofNat i
  telldir_zero := rfl
  telldir_inj := by decide

/-- A remote reader takes the first entry, and gets the second with the next call. -/
theorem readdir_pages_twoEntries :
    ∃ r r', Transition.run (Reader.step (Table.nfs.readdir true) ⟨[47], by decide⟩)
        ⟨fun _ => some (.opened twoEntries), default, []⟩ [⟨false, 1⟩] = some r ∧
      r.step (Table.nfs.readdir true) ⟨[47], by decide⟩ ⟨false, 1⟩ = some r' ∧
      r.accepted = twoEntries.listing.take 1 ∧ r'.accepted = twoEntries.listing := by
  have hpages := @readdir_pages .nfs true ⟨[47], by decide⟩ twoEntries
    (fun _ => some (.opened twoEntries)) default rfl
  obtain ⟨start, hstart, -, hfirst⟩ := hpages []
  obtain rfl := Option.some.inj hstart
  obtain ⟨⟨r, hr, haccepted, -⟩, -⟩ := hfirst 1
  obtain ⟨r₁, hrun, -, hsecond⟩ := hpages [⟨false, 1⟩]
  obtain rfl : r = r₁ := by
    obtain ⟨m, hm, hrest⟩ := Transition.run_cons.mp hrun
    exact (Option.some.inj (hr.symm.trans hm)).trans (Option.some.inj hrest)
  obtain ⟨⟨r', hr', haccepted', -⟩, -⟩ := hsecond 1
  refine ⟨r, r', hrun, hr', haccepted, ?_⟩
  rw [haccepted', haccepted]
  rfl

end RSafeFS.Local
