import RSafeFS.Fuse
import Mathlib.Logic.Function.Basic

/-!
# Delayed writes and their merging

`async_client::write` keeps each write as a block. `send_block` makes one request of
the first block and of the blocks behind it that continue it, up to the maximal size.
A request made so has the effect of its blocks, written one after the other.
-/

namespace RSafeFS.AsyncClient

open ByteFile

/-- `async_client::block`: one write as the client accepted it. The offset is a
nonnegative `off_t`, and a buffer in memory has fewer than `2 ^ 63` bytes. -/
structure Block where
  path : PathName
  buf : Bytes
  offset : ℕ
  fi : FuseFileInfo
  offset_lt : offset < 2 ^ 63
  size_lt : buf.length < 2 ^ 63
  deriving DecidableEq, Repr

/-- `size_` of a block. -/
def Block.size (b : Block) : ℕ := b.buf.length

/-- The bytes of blocks. -/
def totalSize (blocks : List Block) : ℕ := (blocks.map Block.size).sum

@[simp] theorem totalSize_nil : totalSize [] = 0 := rfl

@[simp] theorem totalSize_cons (b : Block) (blocks : List Block) :
    totalSize (b :: blocks) = b.size + totalSize blocks := by
  simp [totalSize]

@[simp] theorem totalSize_append (first last : List Block) :
    totalSize (first ++ last) = totalSize first + totalSize last := by
  simp [totalSize]

/-- The blocks one behind the other have as many bytes. -/
theorem length_flatMap_buf (blocks : List Block) :
    (blocks.flatMap Block.buf).length = totalSize blocks := by
  induction blocks with
  | nil => rfl
  | cons b blocks ih => rw [List.flatMap_cons, List.length_append, ih, totalSize_cons, Block.size]

/-- `block::is_mergeable`. The sum is one of `unsigned long` values. -/
def Block.isMergeable (b block : Block) : Bool :=
  b.path == block.path && (b.offset + b.size) % 2 ^ 64 == block.offset &&
    b.fi.directIo == block.fi.directIo && b.fi.fh == block.fi.fh &&
    b.fi.fhOld == block.fi.fhOld && b.fi.flags == block.fi.flags &&
    b.fi.flockRelease == block.fi.flockRelease && b.fi.flush == block.fi.flush &&
    b.fi.keepCache == block.fi.keepCache && b.fi.lockOwner == block.fi.lockOwner &&
    b.fi.nonseekable == block.fi.nonseekable && b.fi.padding == block.fi.padding &&
    b.fi.writepage == block.fi.writepage

/-- `WriteRequest`. Its `size` is always the length of its buffer. -/
structure WriteRequest where
  path : PathName
  buf : Bytes
  offset : ℕ
  info : FuseFileInfo
  deriving DecidableEq, Repr

/-- The request for one block alone. -/
def Block.request (b : Block) : WriteRequest := ⟨b.path, b.buf, b.offset, b.fi⟩

/-- The loop of `send_block`: how many of the blocks behind `lastBlock` are merged. -/
def mergeCount (maxBlockSize : ℕ) : ℕ → Block → List Block → ℕ
  | _, _, [] => 0
  | bufSize, lastBlock, currentBlock :: rest =>
    if bufSize + currentBlock.size ≤ maxBlockSize ∧ lastBlock.isMergeable currentBlock then
      mergeCount maxBlockSize (bufSize + currentBlock.size) currentBlock rest + 1
    else 0

/-- `n_blocks_sent_` as `send_block` leaves it, for a first block and those behind it. -/
def nBlocksToSend (maxBlockSize : ℕ) (firstBlock : Block) (rest : List Block) : ℕ :=
  mergeCount maxBlockSize firstBlock.size firstBlock rest + 1

/-- The request that `send_block` writes to the stream. -/
def sendRequest (maxBlockSize : ℕ) (firstBlock : Block) (rest : List Block) : WriteRequest :=
  { firstBlock.request with
    buf := ((firstBlock :: rest).take (nBlocksToSend maxBlockSize firstBlock rest)).flatMap
      Block.buf }

/-- The request is made of the blocks: they follow one another in one file, through
one handle. -/
inductive Merges : WriteRequest → List Block → Prop
  | single (b : Block) : Merges b.request [b]
  | snoc {r : WriteRequest} {parts : List Block} {b : Block} (h : Merges r parts)
      (hpath : b.path = r.path) (hinfo : b.fi = r.info)
      (hoffset : b.offset = r.offset + r.buf.length) :
      Merges { r with buf := r.buf ++ b.buf } (parts ++ [b])

/-- Blocks that `is_mergeable` accepts are of one file and handle, and adjacent. -/
theorem isMergeable_spec {b block : Block} (h : b.isMergeable block = true) :
    block.path = b.path ∧ block.fi = b.fi ∧ block.offset = b.offset + b.size := by
  simp only [Block.isMergeable, Bool.and_eq_true, beq_iff_eq, and_assoc] at h
  obtain ⟨hpath, hoffset, hfields⟩ := h
  have hb := b.offset_lt
  have hsize : b.size < 2 ^ 63 := b.size_lt
  -- Neither summand reaches the sign bit, so the unsigned sum does not wrap.
  rw [Nat.mod_eq_of_lt (by omega)] at hoffset
  refine ⟨hpath.symm, ?_, hoffset.symm⟩
  cases hfi : b.fi
  cases hfi' : block.fi
  rw [hfi, hfi'] at hfields
  simp_all only

/-- Merging on from a request whose last block is known gives a request of all the blocks. -/
theorem Merges.extend {r : WriteRequest} {parts : List Block} (h : Merges r parts)
    (maxBlockSize bufSize : ℕ) {lastBlock : Block} (hpath : lastBlock.path = r.path)
    (hinfo : lastBlock.fi = r.info)
    (hend : lastBlock.offset + lastBlock.size = r.offset + r.buf.length) (rest : List Block) :
    Merges { r with buf := r.buf ++
        (rest.take (mergeCount maxBlockSize bufSize lastBlock rest)).flatMap Block.buf }
      (parts ++ rest.take (mergeCount maxBlockSize bufSize lastBlock rest)) := by
  induction rest generalizing r parts bufSize lastBlock with
  | nil => simpa [mergeCount] using h
  | cons b rest ih =>
    rw [mergeCount]
    split
    · next hmerge =>
      obtain ⟨hpath', hinfo', hoffset'⟩ := isMergeable_spec hmerge.2
      have hnext := h.snoc (hpath'.trans hpath) (hinfo'.trans hinfo) (hoffset'.trans hend)
      have hend' : b.offset + b.size = r.offset + (r.buf ++ b.buf).length := by
        simp only [List.length_append, Block.size]
        omega
      have hall := ih hnext (bufSize + b.size) (hpath'.trans hpath) (hinfo'.trans hinfo) hend'
      simpa using hall
    · simpa using h

/-- **What is sent is what was written.** The request of `send_block` is made of the
blocks that it counts as sent. -/
theorem sendRequest_merges (maxBlockSize : ℕ) (firstBlock : Block) (rest : List Block) :
    Merges (sendRequest maxBlockSize firstBlock rest)
      ((firstBlock :: rest).take (nBlocksToSend maxBlockSize firstBlock rest)) := by
  have h := (Merges.single firstBlock).extend maxBlockSize firstBlock.size rfl rfl rfl rest
  simpa [sendRequest, nBlocksToSend, Block.request] using h

section Effect

variable {F : Type} [DecidableEq F] (file : PathName → FuseFileInfo → Option F)

/-- The effect of a request on the contents of files, for a given way to find the file. A
request that finds no file has none. -/
def applyWrite (content : F → Bytes) (r : WriteRequest) : F → Bytes :=
  match file r.path r.info with
  | none => content
  | some f => Function.update content f (pwrite (content f) r.offset r.buf)

/-- The in-order effect of blocks. -/
def applyAll (content : F → Bytes) (blocks : List Block) : F → Bytes :=
  blocks.foldl (fun content b => applyWrite file content b.request) content

variable {file}

@[simp] theorem applyAll_nil (content : F → Bytes) : applyAll file content [] = content := rfl

@[simp] theorem applyAll_singleton (content : F → Bytes) (b : Block) :
    applyAll file content [b] = applyWrite file content b.request := rfl

theorem applyAll_append (content : F → Bytes) (a b : List Block) :
    applyAll file content (a ++ b) = applyAll file (applyAll file content a) b :=
  List.foldl_append

/-- A request has the effect of the blocks it is made of. -/
theorem Merges.applyWrite_eq {r : WriteRequest} {parts : List Block} (h : Merges r parts)
    (content : F → Bytes) : applyWrite file content r = applyAll file content parts := by
  induction h with
  | single b => rfl
  | @snoc r parts b h hpath hinfo hoffset ih =>
    have hsame : file b.path b.fi = file r.path r.info := by rw [hpath, hinfo]
    rw [applyAll_append, ← ih, applyAll_singleton]
    cases hfile : file r.path r.info with
    | none => simp only [applyWrite, Block.request, hsame, hfile]
    | some f =>
      simp only [applyWrite, Block.request, hsame, hfile, Function.update_self,
        Function.update_idem]
      rw [hoffset, pwrite_pwrite_adjacent]

/-- Blocks of other files commute with a change of one file. -/
theorem applyAll_update {f : F} {blocks : List Block}
    (h : ∀ b ∈ blocks, file b.path b.fi ≠ some f) (content : F → Bytes) (data : Bytes) :
    applyAll file (Function.update content f data) blocks =
      Function.update (applyAll file content blocks) f data := by
  induction blocks generalizing content with
  | nil => rfl
  | cons b blocks ih =>
    have hb := h b List.mem_cons_self
    have hwrite : applyWrite file (Function.update content f data) b.request =
        Function.update (applyWrite file content b.request) f data := by
      cases hfile : file b.path b.fi with
      | none => simp only [applyWrite, Block.request, hfile]
      | some g =>
        have hne : g ≠ f := fun heq => hb (by rw [hfile, heq])
        simp only [applyWrite, Block.request, hfile, Function.update_of_ne hne]
        exact Function.update_comm hne.symm _ _ content
    have hrest := ih (fun b' hb' => h b' (List.mem_cons_of_mem b hb'))
      (applyWrite file content b.request)
    rw [← hwrite] at hrest
    exact hrest

/-- Blocks of other files leave a file as it is. -/
theorem applyAll_apply {f : F} {blocks : List Block}
    (h : ∀ b ∈ blocks, file b.path b.fi ≠ some f) (content : F → Bytes) :
    applyAll file content blocks f = content f := by
  have hupdate := applyAll_update h content (content f)
  rw [Function.update_eq_self] at hupdate
  rw [hupdate, Function.update_self]

/-- The effect of blocks depends on where their own files are found only. -/
theorem applyAll_congr {file' : PathName → FuseFileInfo → Option F} {blocks : List Block}
    (h : ∀ b ∈ blocks, file b.path b.fi = file' b.path b.fi) (content : F → Bytes) :
    applyAll file content blocks = applyAll file' content blocks := by
  induction blocks generalizing content with
  | nil => rfl
  | cons b blocks ih =>
    have hwrite : applyWrite file content b.request = applyWrite file' content b.request := by
      simp only [applyWrite, Block.request, h b List.mem_cons_self]
    have hrest := ih (fun b' hb' => h b' (List.mem_cons_of_mem b hb'))
      (applyWrite file content b.request)
    rw [hwrite] at hrest
    calc applyAll file content (b :: blocks)
        = applyAll file (applyWrite file' content b.request) blocks := by rw [← hwrite]; rfl
      _ = applyAll file' content (b :: blocks) := hrest

end Effect

end RSafeFS.AsyncClient
