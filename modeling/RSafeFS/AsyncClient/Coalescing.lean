import RSafeFS.AsyncClient.Pipeline
import RSafeFS.Lib.Loop

/-!
# Sending the blocks of a call

`send_block` as the code has it: the loop that counts the blocks to merge and adds up their
sizes, and the loop that copies them into the buffer of the request, or the shorter path for
the only block left. It makes the request of `sendRequest`. `proceed` drops what was sent and
sends again until no block is left.
-/

namespace RSafeFS.AsyncClient

open ByteFile

/-- The message `WriteRequest` with the `size` that the code sets. -/
structure SizedRequest where
  request : WriteRequest
  size : ℕ
  deriving DecidableEq, Repr

/-- The loop that merges: `bufSize` and `n_blocks_sent_` at its end. The sum is one of
`size_t` values. -/
def mergeLoop (maxBlockSize : ℕ) : List Block → Block → ℕ → ℕ → ℕ × ℕ
  | [], _, bufSize, nBlocksSent => (bufSize, nBlocksSent)
  | currentBlock :: rest, lastBlock, bufSize, nBlocksSent =>
    if (bufSize + currentBlock.size) % 2 ^ 64 ≤ maxBlockSize ∧
        lastBlock.isMergeable currentBlock then
      mergeLoop maxBlockSize rest currentBlock ((bufSize + currentBlock.size) % 2 ^ 64)
        (nBlocksSent + 1)
    else (bufSize, nBlocksSent)

/-- The loop that copies, undefined where a block does not fit the buffer. -/
def copyLoop : List Block → Bytes → ℕ → Option Bytes
  | [], buf, _ => some buf
  | block :: rest, buf, nCopiedBytes =>
    if nCopiedBytes + block.size ≤ buf.length then
      copyLoop rest (buf.take nCopiedBytes ++ block.buf ++ buf.drop (nCopiedBytes + block.size))
        (nCopiedBytes + block.size)
    else none

/-- `send_block`: the request and `n_blocks_sent_`. There must be a block. -/
def sendBlock (maxBlockSize : ℕ) : List Block → Option (SizedRequest × ℕ)
  | [] => none
  | [firstBlock] => some (⟨firstBlock.request, firstBlock.size⟩, 1)
  | firstBlock :: rest => do
    let (bufSize, nBlocksSent) := mergeLoop maxBlockSize rest firstBlock firstBlock.size 1
    let buf ← copyLoop ((firstBlock :: rest).take nBlocksSent) (List.replicate bufSize 0) 0
    return (⟨{ firstBlock.request with buf }, bufSize⟩, nBlocksSent)

/-- The merging loop counts the blocks of `mergeCount`. What is merged lies in the file before
the end of the last block, so its size does not wrap around. -/
theorem mergeLoop_eq (maxBlockSize : ℕ) (rest : List Block) (lastBlock : Block)
    (bufSize nBlocksSent : ℕ) (hsize : bufSize ≤ lastBlock.offset + lastBlock.size) :
    mergeLoop maxBlockSize rest lastBlock bufSize nBlocksSent =
      (bufSize + totalSize (rest.take (mergeCount maxBlockSize bufSize lastBlock rest)),
        nBlocksSent + mergeCount maxBlockSize bufSize lastBlock rest) := by
  induction rest generalizing lastBlock bufSize nBlocksSent with
  | nil => simp [mergeLoop, mergeCount]
  | cons currentBlock rest ih =>
    rw [mergeLoop, mergeCount]
    by_cases hmergeable : lastBlock.isMergeable currentBlock = true
    · obtain ⟨-, -, hoffset⟩ := isMergeable_spec hmergeable
      have hcurrent := currentBlock.offset_lt
      have hlt : currentBlock.size < 2 ^ 63 := currentBlock.size_lt
      rw [Nat.mod_eq_of_lt (by omega)]
      by_cases hfits : bufSize + currentBlock.size ≤ maxBlockSize
      · rw [if_pos ⟨hfits, hmergeable⟩, if_pos ⟨hfits, hmergeable⟩, ih _ _ _ (by omega)]
        simp only [List.take_succ_cons, totalSize_cons]
        refine Prod.ext ?_ ?_ <;> dsimp only <;> omega
      · rw [if_neg fun h => hfits h.1, if_neg fun h => hfits h.1]
        simp
    · rw [if_neg fun h => hmergeable h.2, if_neg fun h => hmergeable h.2]
      simp

/-- The copying loop fills a buffer of the right size with the blocks, one behind the other. -/
theorem copyLoop_eq (blocks : List Block) (copied : Bytes) :
    copyLoop blocks (copied ++ List.replicate (totalSize blocks) 0) copied.length =
      some (copied ++ blocks.flatMap Block.buf) := by
  induction blocks generalizing copied with
  | nil => simp [copyLoop]
  | cons block rest ih =>
    have hfits : copied.length + block.size ≤
        (copied ++ List.replicate (totalSize (block :: rest)) (0 : UInt8)).length := by
      simp
    have hdrop : (copied ++ List.replicate (totalSize (block :: rest)) (0 : UInt8)).drop
        (copied.length + block.size) = List.replicate (totalSize rest) 0 := by
      simp [List.drop_append]
    rw [copyLoop, if_pos hfits, List.take_left', hdrop]
    · have hnext := ih (copied ++ block.buf)
      rw [List.length_append] at hnext
      rw [Block.size, hnext, List.flatMap_cons, List.append_assoc]
    · rfl

/-- **Both paths make one request.** `send_block` makes the request of `sendRequest`, with the
length of its buffer as its size, and no copy leaves the buffer. -/
theorem sendBlock_eq (maxBlockSize : ℕ) (firstBlock : Block) (rest : List Block) :
    sendBlock maxBlockSize (firstBlock :: rest) =
      some (⟨sendRequest maxBlockSize firstBlock rest,
        (sendRequest maxBlockSize firstBlock rest).buf.length⟩,
        nBlocksToSend maxBlockSize firstBlock rest) := by
  cases rest with
  | nil => simp [sendBlock, sendRequest, nBlocksToSend, mergeCount, Block.request, Block.size]
  | cons second rest =>
    have hcopy := copyLoop_eq ((firstBlock :: second :: rest).take
      (nBlocksToSend maxBlockSize firstBlock (second :: rest))) []
    simp only [List.nil_append, List.length_nil] at hcopy
    have hcount : 1 + mergeCount maxBlockSize firstBlock.size firstBlock (second :: rest) =
        nBlocksToSend maxBlockSize firstBlock (second :: rest) := Nat.add_comm _ _
    have htotal : firstBlock.size + totalSize ((second :: rest).take
        (mergeCount maxBlockSize firstBlock.size firstBlock (second :: rest))) =
        totalSize ((firstBlock :: second :: rest).take
          (nBlocksToSend maxBlockSize firstBlock (second :: rest))) := by
      rw [nBlocksToSend, List.take_succ_cons, totalSize_cons]
    rw [sendBlock, mergeLoop_eq _ _ _ _ _ (Nat.le_add_left _ _), hcount, htotal]
    · simp only [hcopy]
      simp only [← length_flatMap_buf]
      rfl
    · simp

/-- Merged blocks fit the maximal size with the first one. -/
theorem mergeCount_fits (maxBlockSize bufSize : ℕ) (lastBlock : Block) (rest : List Block)
    (hmerged : mergeCount maxBlockSize bufSize lastBlock rest ≠ 0) :
    bufSize + totalSize (rest.take (mergeCount maxBlockSize bufSize lastBlock rest)) ≤
      maxBlockSize := by
  induction rest generalizing lastBlock bufSize with
  | nil => exact absurd rfl hmerged
  | cons currentBlock rest ih =>
    rw [mergeCount] at hmerged ⊢
    split at hmerged
    · next hmerge =>
      rw [if_pos hmerge, List.take_succ_cons, totalSize_cons, ← Nat.add_assoc]
      by_cases hlast : mergeCount maxBlockSize (bufSize + currentBlock.size) currentBlock rest = 0
      · rw [hlast]
        exact hmerge.1
      · exact ih _ _ hlast
    · exact absurd rfl hmerged

/-- The messages that are sent for blocks: one for the first block and those merged with it,
and then those for the blocks behind them. -/
inductive Drains (maxBlockSize : ℕ) : List Block → List Message → Prop
  | nil : Drains maxBlockSize [] []
  | send {firstBlock : Block} {rest : List Block} {messages : List Message}
      (h : Drains maxBlockSize
        ((firstBlock :: rest).drop (nBlocksToSend maxBlockSize firstBlock rest)) messages) :
      Drains maxBlockSize (firstBlock :: rest)
        (⟨sendRequest maxBlockSize firstBlock rest,
          (firstBlock :: rest).take (nBlocksToSend maxBlockSize firstBlock rest)⟩ :: messages)

variable {maxBlockSize : ℕ} {blocks : List Block} {messages : List Message}

/-- What a message says of the blocks it is made of. -/
theorem Drains.message (h : Drains maxBlockSize blocks messages) :
    ∀ m ∈ messages, Merges m.request m.parts ∧ ∃ firstBlock rest,
      m.parts = firstBlock :: rest ∧
      m.request = ⟨firstBlock.path, m.parts.flatMap Block.buf, firstBlock.offset, firstBlock.fi⟩ ∧
      (maxBlockSize < m.request.buf.length → rest = []) := by
  induction h with
  | nil => simp
  | @send firstBlock rest messages h ih =>
    refine List.forall_mem_cons.mpr ⟨⟨sendRequest_merges maxBlockSize firstBlock rest, firstBlock,
      rest.take (mergeCount maxBlockSize firstBlock.size firstBlock rest), rfl, rfl, fun hlt => ?_⟩, ih⟩
    by_contra hmerged
    have hcount : mergeCount maxBlockSize firstBlock.size firstBlock rest ≠ 0 := fun hzero =>
      hmerged (by rw [hzero, List.take_zero])
    have hfits := mergeCount_fits maxBlockSize firstBlock.size firstBlock rest hcount
    rw [← totalSize_cons, ← length_flatMap_buf] at hfits
    exact Nat.not_lt.mpr hfits hlt

/-- A call in flight whose `proceed` is called until the stream is half closed puts these
messages on it. -/
theorem Drains.proceed (h : Drains maxBlockSize blocks messages) {c : CallData}
    (hstatus : c.callStatus = .write) (hblocks : c.blocks.drop c.nBlocksSent = blocks)
    (hstream : c.stream.broken = false) :
    (CallData.proceed maxBlockSize)^[messages.length + 1] c = { c with
      blocks := []
      nBlocksSent := 0
      callStatus := .writesDone
      stream := { c.stream with wire := c.stream.wire ++ messages, halfClosed := true } } := by
  induction h generalizing c with
  | nil => simp [CallData.proceed, hstatus, hblocks]
  | @send firstBlock rest messages h ih =>
    have hsent : c.proceed maxBlockSize = { c with
        blocks := firstBlock :: rest
        nBlocksSent := nBlocksToSend maxBlockSize firstBlock rest
        stream := { c.stream with wire := c.stream.wire ++ [⟨sendRequest maxBlockSize firstBlock rest,
          (firstBlock :: rest).take (nBlocksToSend maxBlockSize firstBlock rest)⟩] } } := by
      simp [CallData.proceed, CallData.sendBlock, Stream.write, hstatus, hblocks, hstream]
    rw [List.length_cons, Function.iterate_succ_apply, hsent]
    refine (ih ?_ ?_ ?_).trans ?_
    · exact hstatus
    · rfl
    · exact hstream
    · simp

/-- The blocks of a call, and what has been emitted for those sent. -/
structure Draining where
  blocks : List Block
  emitted : List (SizedRequest × List Block)

/-- `send_block`, and the pops of `proceed` when the request has been written. -/
def drainBody (maxBlockSize : ℕ) (_ : ℕ) (s : Draining) :
    Loop.Step Draining (Option (List (SizedRequest × List Block))) :=
  if s.blocks = [] then .done (some s.emitted)
  else match sendBlock maxBlockSize s.blocks with
    | none => .done none
    | some (request, nBlocksSent) =>
      .next ⟨s.blocks.drop nBlocksSent, s.emitted ++ [(request, s.blocks.take nBlocksSent)]⟩

/-- A message as the code emits it. -/
def Message.sized (m : Message) : SizedRequest × List Block :=
  (⟨m.request, m.request.buf.length⟩, m.parts)

/-- The rounds emit the messages. -/
theorem Drains.run (h : Drains maxBlockSize blocks messages)
    (emitted : List (SizedRequest × List Block)) {fuel i : ℕ} (hfuel : messages.length < fuel) :
    Loop.run (drainBody maxBlockSize) fuel i ⟨blocks, emitted⟩ =
      some (some (emitted ++ messages.map Message.sized)) := by
  induction h generalizing emitted fuel i with
  | nil =>
    obtain ⟨fuel, rfl⟩ := Nat.exists_eq_succ_of_ne_zero (Nat.ne_zero_of_lt hfuel)
    simp [Loop.run, drainBody]
  | @send firstBlock rest messages h ih =>
    obtain ⟨fuel, rfl⟩ := Nat.exists_eq_succ_of_ne_zero (Nat.ne_zero_of_lt hfuel)
    rw [List.length_cons] at hfuel
    have hround : drainBody maxBlockSize i ⟨firstBlock :: rest, emitted⟩ = .next
        ⟨(firstBlock :: rest).drop (nBlocksToSend maxBlockSize firstBlock rest), emitted ++
          [Message.sized ⟨sendRequest maxBlockSize firstBlock rest,
            (firstBlock :: rest).take (nBlocksToSend maxBlockSize firstBlock rest)⟩]⟩ := by
      rw [drainBody, if_neg (List.cons_ne_nil _ _), sendBlock_eq]
      rfl
    rw [Loop.run, hround]
    dsimp only
    rw [ih _ (by omega)]
    simp

end RSafeFS.AsyncClient
