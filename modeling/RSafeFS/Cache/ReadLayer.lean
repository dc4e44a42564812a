import RSafeFS.Fuse

/-!
# The file operations below a read cache

The data cache and the read-ahead cache stand on the same few operations of the layer
below. Reading leaves the state below as it is and reports the bytes that were put at
the start of the buffer. The operations that modify a file are not hooked by either
cache and reach the layer below directly.
-/

namespace RSafeFS

open ByteFile

/-- The operations of the layer below that a read cache calls. `open` also leaves a
`fuse_file_info`; `read` takes a size and an offset. -/
structure ReadLayer (σ : Type) where
  «open» : PathName → FuseFileInfo → σ → (ℤ × FuseFileInfo) × σ
  getattr : PathName → σ → ℤ × Stat
  read : PathName → ℕ → ℕ → FuseFileInfo → σ → ℤ × Bytes
  release : PathName → FuseFileInfo → σ → ℤ × σ

/-- The end of a `read`: it returned, having put some bytes into the caller's buffer,
or it left the behaviour that the language defines. -/
inductive Outcome where
  | ret (res : ℤ) (buf : Bytes)
  | undefined
  deriving DecidableEq, Repr

/-- The bytes that a read has put into the caller's buffer. -/
def Outcome.bytes : Outcome → Bytes
  | .ret _ buf => buf
  | .undefined => []

/-- A buffer after `data` has been put at its start. -/
def overlay (data buf : Bytes) : Bytes := data ++ buf.drop data.length

theorem length_overlay {data buf : Bytes} (h : data.length ≤ buf.length) :
    (overlay data buf).length = buf.length := by
  simp [overlay, h]

@[simp] theorem take_overlay (data buf : Bytes) : (overlay data buf).take data.length = data := by
  simp [overlay]

/-- The layer below reads the path as a positional read of the contents. -/
def ReadsExactly {σ : Type} (lower : ReadLayer σ) (path : PathName) (content : Bytes) (w : σ) :
    Prop :=
  ∀ size offset fi,
    lower.read path size offset fi w =
      (((pread content size offset).length : ℤ), pread content size offset)

/-- A request that modifies a file. -/
inductive Modification where
  | write (path : PathName) (buf : Bytes) (offset : ℕ) (fi : FuseFileInfo)
  | truncate (path : PathName) (size : ℕ)
  | ftruncate (path : PathName) (size : ℕ) (fi : FuseFileInfo)
  deriving DecidableEq, Repr

/-- A layer below on which files can also be modified. -/
structure FileLayer (σ : Type) extends ReadLayer σ where
  modify : Modification → σ → ℤ × σ

/-- The contents of the files below, as the layer below shows them. Opening and releasing
a file leaves all contents as they are. -/
structure FileLayer.Shows {σ : Type} (lower : FileLayer σ) (content : σ → PathName → Bytes) :
    Prop where
  read : ∀ path w, ReadsExactly lower.toReadLayer path (content w path) w
  «open» : ∀ path fi w, content (lower.open path fi w).2 = content w
  release : ∀ path fi w, content (lower.release path fi w).2 = content w

/-- A request of a client. A read carries the clock readings that a cache may make. -/
inductive ClientAction where
  | «open» (path : PathName) (fi : FuseFileInfo)
  | read (path : PathName) (size offset : ℕ) (fi : FuseFileInfo) (clock : ℕ → ℤ × ℤ)
  | release (path : PathName) (fi : FuseFileInfo)
  | modify (m : Modification)

/-- A layer below on which every path names one and the same file. -/
def oneFileLayer : FileLayer Bytes where
  «open» _ fi w := ((0, fi), w)
  getattr _ w := (0, { (default : Stat) with size := w.length })
  read _ size offset _ w := ((pread w size offset).length, pread w size offset)
  release _ _ w := (0, w)
  modify
    | .write _ buf offset _, w => (buf.length, pwrite w offset buf)
    | .truncate _ size, w => (0, truncate w size)
    | .ftruncate _ size _, w => (0, truncate w size)

theorem oneFileLayer_shows : oneFileLayer.Shows fun w _ => w where
  read _ _ _ _ _ := rfl
  «open» _ _ _ := rfl
  release _ _ _ := rfl

end RSafeFS
