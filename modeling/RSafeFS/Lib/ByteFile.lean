import Mathlib.Data.List.Basic
import Mathlib.Data.List.TakeDrop

/-!
# Byte files

The contents of a regular file are a list of bytes. This file gives the positional
read, positional write and length change that POSIX specifies for such a file, and
the algebra of slices that a block cache or a write coalescer relies on.
-/

/-- The contents of a file or of a buffer. -/
abbrev Bytes := List UInt8

namespace ByteFile

/-- The bytes a positional read of `size` bytes at `offset` delivers: a short or
empty list when the file ends before. -/
def pread (content : Bytes) (size offset : ℕ) : Bytes := (content.drop offset).take size

/-- The file after a positional write. A gap before `offset` is filled with zeros;
a write of no bytes changes nothing, not even the length. -/
def pwrite (content : Bytes) (offset : ℕ) (data : Bytes) : Bytes :=
  if data = [] then content
  else content.take offset ++ List.replicate (offset - content.length) 0 ++ data ++
    content.drop (offset + data.length)

/-- The file after its length is set to `size`, cutting it or filling it with zeros. -/
def truncate (content : Bytes) (size : ℕ) : Bytes :=
  content.take size ++ List.replicate (size - content.length) 0

/-- The number of bytes a positional read delivers. -/
@[simp] theorem length_pread (content : Bytes) (size offset : ℕ) :
    (pread content size offset).length = min size (content.length - offset) := by
  simp [pread]

/-- Byte by byte, a positional read is a shifted window of the file. -/
theorem getElem?_pread (content : Bytes) (size offset i : ℕ) :
    (pread content size offset)[i]? = if i < size then content[offset + i]? else none := by
  simp [pread, List.getElem?_take, List.getElem?_drop]

/-- A read at or past the end of the file delivers nothing. -/
theorem pread_eq_nil {content : Bytes} {size offset : ℕ} (h : content.length ≤ offset) :
    pread content size offset = [] := by
  simp [pread, h]

@[simp] theorem pread_zero (content : Bytes) (offset : ℕ) : pread content 0 offset = [] := by
  simp [pread]

/-- Reading `n + m` bytes is reading `n` bytes and then the `m` bytes behind them. -/
theorem pread_add (content : Bytes) (n m offset : ℕ) :
    pread content (n + m) offset = pread content n offset ++ pread content m (offset + n) := by
  simp [pread, List.take_add, List.drop_drop]

/-- A window of a slice is the corresponding window of the file, as long as the
window stays inside the slice that was asked for. -/
theorem drop_take_pread (content : Bytes) {size offset skip n : ℕ} (h : skip + n ≤ size) :
    ((pread content size offset).drop skip).take n = pread content n (offset + skip) := by
  have hn : min n (size - skip) = n := by omega
  simp [pread, List.drop_take, List.take_take, List.drop_drop, hn]

/-- A window inside the filled part of a buffer has the bytes of the file that the
buffer was filled from. -/
theorem drop_take_of_take_eq {content buf : Bytes} {filled size offset skip n : ℕ}
    (hbuf : buf.take filled = pread content size offset) (hfilled : skip + n ≤ filled)
    (hsize : skip + n ≤ size) : (buf.drop skip).take n = pread content n (offset + skip) := by
  calc (buf.drop skip).take n = ((buf.take filled).drop skip).take n := by
        rw [List.drop_take, List.take_take, Nat.min_eq_left (by omega)]
    _ = pread content n (offset + skip) := by
        rw [hbuf, drop_take_pread content hsize]

/-- Reading again as many bytes as a read delivered delivers the same. -/
theorem pread_length_pread (content : Bytes) (size offset : ℕ) :
    pread content (pread content size offset).length offset = pread content size offset := by
  apply List.ext_getElem?
  intro i
  rw [getElem?_pread, getElem?_pread, length_pread]
  by_cases hi : i < content.length - offset
  · have hiff : i < min size (content.length - offset) ↔ i < size := by omega
    simp only [hiff]
  · have hnone : content[offset + i]? = none := List.getElem?_eq_none (by omega)
    simp [hnone]

/-- Byte by byte, a nonempty positional write replaces exactly its own range. -/
theorem getElem?_pwrite {content data : Bytes} (offset i : ℕ) (hdata : data ≠ []) :
    (pwrite content offset data)[i]? =
      if i < offset then (if i < content.length then content[i]? else some 0)
      else if i < offset + data.length then data[i - offset]? else content[i]? := by
  have hlen : (content.take offset ++ List.replicate (offset - content.length) (0 : UInt8)).length
      = offset := by
    simp only [List.length_append, List.length_take, List.length_replicate]
    omega
  rw [pwrite, if_neg hdata, List.append_assoc]
  by_cases hi : i < offset
  · rw [List.getElem?_append_left (by omega), if_pos hi]
    by_cases hc : i < content.length
    · rw [if_pos hc, List.getElem?_append_left (by simp; omega), List.getElem?_take, if_pos hi]
    · rw [if_neg hc, List.getElem?_append_right (by simp; omega), List.getElem?_replicate]
      simp only [List.length_take]
      rw [if_pos (by omega)]
  · rw [List.getElem?_append_right (by omega), if_neg hi, hlen]
    by_cases hd : i < offset + data.length
    · rw [if_pos hd, List.getElem?_append_left (by omega)]
    · rw [if_neg hd, List.getElem?_append_right (by omega), List.getElem?_drop]
      congr 1
      omega

@[simp] theorem pwrite_nil (content : Bytes) (offset : ℕ) : pwrite content offset [] = content := by
  simp [pwrite]

/-- The length of a file after a nonempty write. -/
theorem length_pwrite {content data : Bytes} (offset : ℕ) (hdata : data ≠ []) :
    (pwrite content offset data).length = max content.length (offset + data.length) := by
  simp only [pwrite, if_neg hdata, List.length_append, List.length_take, List.length_replicate,
    List.length_drop]
  omega

/-- **Adjacent writes merge.** Writing `a` and then `b` directly behind it has the
effect of writing their concatenation. -/
theorem pwrite_pwrite_adjacent (content a b : Bytes) (offset : ℕ) :
    pwrite (pwrite content offset a) (offset + a.length) b = pwrite content offset (a ++ b) := by
  by_cases ha : a = []
  · simp [ha]
  by_cases hb : b = []
  · simp [hb]
  have hab : a ++ b ≠ [] := by simp [ha]
  apply List.ext_getElem?
  intro i
  rw [getElem?_pwrite _ _ hb, getElem?_pwrite _ _ ha, getElem?_pwrite _ _ hab, length_pwrite _ ha,
    List.length_append]
  by_cases h1 : i < offset
  · simp [h1, show i < offset + a.length by omega, show i < max content.length (offset + a.length) by
      omega]
  · by_cases h2 : i < offset + a.length
    · simp only [h1, h2, if_true, if_false, show i < max content.length (offset + a.length) by omega,
        show i < offset + (a.length + b.length) by omega]
      rw [List.getElem?_append_left (by omega)]
    · by_cases h3 : i < offset + a.length + b.length
      · simp only [h1, h2, h3, if_true, if_false, show i < offset + (a.length + b.length) by omega]
        rw [List.getElem?_append_right (by omega)]
        congr 1
        omega
      · simp [h1, h2, h3, show ¬ i < offset + (a.length + b.length) by omega]

end ByteFile
