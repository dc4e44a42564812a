import RSafeFS.Rpc.Transparency

/-!
# Remote listing of directories

An entry of the operation table lists a directory by calling a `filler` for each of its
entries until the filler reports that the buffer of the caller is full. The server has its own
filler, which is never full; the client calls that of its caller with the entries of the reply.
-/

namespace RSafeFS.Rpc

/-- The arguments of a filler: an entry as it is listed, with the offset behind it. -/
structure Listed where
  name : CString
  st : Stat
  off : Int64

/-- `fuse_fill_dir_t`: takes an entry into the buffer and tells whether it was full. -/
abbrev FuseFillDir (β : Type) := Listed → StateM β Bool

/-- Fill a buffer with entries until it is full. -/
def fillAll {β : Type} (filler : FuseFillDir β) : List Listed → β → β
  | [], buf => buf
  | entry :: entries, buf =>
    let (full, buf) := filler entry buf
    if full then buf else fillAll filler entries buf

/-- The slot `readdir` of the operation table, for callers with any kind of buffer. Undefined
behaviour is `none`. -/
abbrev Readdir (σ : Type) : Type 1 :=
  ∀ {β : Type}, CString → β → FuseFillDir β → (offset : Int64) → FuseFileInfo →
    StateT σ Option (Int32 × β × FuseFileInfo)

/-- `DirInfo::Entry`. -/
structure DirInfoEntry where
  name : Bytes
  st : Stat
  offset : Int64

/-- `rpc_filler`, for the entries of a `DirInfo`. -/
def rpcFiller : FuseFillDir (List DirInfoEntry) :=
  fun entry buf => (false, buf ++ [⟨entry.name.bytes, entry.st, entry.off⟩])

/-- The message `StructDirInfoEntry`. -/
structure StructDirInfoEntry where
  name : Bytes
  stbuf : StructStat
  offset : UInt64

/-- A message without fields set. -/
instance : Inhabited StructDirInfoEntry := ⟨⟨[], default, 0⟩⟩

/-- `fill_StructDirEntryInfo`. -/
def fillStructDirEntryInfo (sdie : StructDirInfoEntry) (entry : DirInfoEntry) :
    StructDirInfoEntry :=
  { sdie with
    name := entry.name
    stbuf := fillStructStat sdie.stbuf entry.st
    offset := entry.offset.toUInt64 }

structure ReaddirRequest where
  path : Bytes
  offset : UInt64
  info : StructFuseFileInfo

structure ReaddirReply where
  result : Int32
  dirInfoEntries : List StructDirInfoEntry
  info : StructFuseFileInfo

variable {σ : Type}

/-- `readdir_data`. -/
def Server.readdirData (readdir : Readdir σ) (request : ReaddirRequest) :
    StateT σ Option ReaddirReply := do
  let fi := fillFuseFileInfo default request.info
  let (res, di, fi) ← readdir (path request.path) [] rpcFiller request.offset.toInt64 fi
  return {
    result := res
    dirInfoEntries := di.map (fillStructDirEntryInfo default)
    info := fillStructFuseFileInfo default fi }

/-- An entry of the reply as the client gives it to the filler. -/
def StructDirInfoEntry.listed (entry : StructDirInfoEntry) : Listed where
  name := .ofMemory (cStr entry.name)
  st := fillStat default entry.stbuf
  off := entry.offset.toInt64

/-- `sync_client::readdir`. -/
def SyncClient.readdir (readdir : Readdir σ) : Readdir σ := fun path buf filler offset fi => do
  let reply ← Server.readdirData readdir {
    path := path.bytes
    offset := offset.toUInt64
    info := fillStructFuseFileInfo default fi }
  let buf := fillAll filler (reply.dirInfoEntries.map StructDirInfoEntry.listed) buf
  return (reply.result, buf, fillFuseFileInfo fi reply.info)

/-- The filler of the server takes everything. -/
theorem fillAll_rpcFiller (entries : List Listed) (buf : List DirInfoEntry) :
    fillAll rpcFiller entries buf =
      buf ++ entries.map fun entry => ⟨entry.name.bytes, entry.st, entry.off⟩ := by
  induction entries generalizing buf with
  | nil => simp [fillAll]
  | cons entry entries ih => simp [fillAll, rpcFiller, ih]

/-- An entry whose `stat` survives the wire does so itself. -/
theorem listed_fillStructDirEntryInfo {entry : Listed}
    (hst : fillStat default (fillStructStat default entry.st) = entry.st) :
    (fillStructDirEntryInfo default ⟨entry.name.bytes, entry.st, entry.off⟩).listed = entry := by
  cases entry
  simp only [StructDirInfoEntry.listed, fillStructDirEntryInfo, CString.ofMemory_cStr,
    Int64.toInt64_toUInt64, Listed.mk.injEq, true_and, and_true]
  exact hst

/-- **A remote listing is a local one.** Where the entry of the server lists entries whose
`stat` survives the wire, for its own filler, the client's caller is given the same entries. -/
theorem readdir_eq {readdir : Readdir σ} {path : CString} {offset : Int64} {fi fi' : FuseFileInfo}
    {w w' : σ} {res : Int32} {entries : List Listed}
    (hserver : readdir path [] rpcFiller offset fi w =
      some ((res, fillAll rpcFiller entries [], fi'), w'))
    (hst : ∀ entry ∈ entries, fillStat default (fillStructStat default entry.st) = entry.st)
    {β : Type} (buf : β) (filler : FuseFillDir β) :
    SyncClient.readdir readdir path buf filler offset fi w =
      some ((res, fillAll filler entries buf, fi'), w') := by
  have hentries : (entries.map fun entry =>
      (fillStructDirEntryInfo default ⟨entry.name.bytes, entry.st, entry.off⟩).listed) =
        entries := by
    conv_rhs => rw [← List.map_id entries]
    exact List.map_congr_left fun entry hentry =>
      listed_fillStructDirEntryInfo (hst entry hentry)
  have hpure {α : Type} (a : α) (w : σ) : (pure a : StateT σ Option α) w = some (a, w) := rfl
  simp only [SyncClient.readdir, Server.readdirData, bind, StateT.bind, hpure, Server.path_bytes,
    Int64.toInt64_toUInt64, fillFuseFileInfo_fillStructFuseFileInfo, hserver, Option.bind_some,
    fillAll_rpcFiller, List.nil_append, List.map_map]
  simp only [Function.comp_def, hentries]

end RSafeFS.Rpc
