import NonceSweep.Proofs.Engine.Memory
import NonceSweep.Proofs.Engine.Stream

/-!
# The bytes that filling writes

A filled memory is the keystream written out cell by cell, and a string of bytes is filled in the same way as
far as it is made of whole blocks. In between, so many cells have been written over the front of the string
and the bytes behind them are what they were: this is the invariant of a loop that fills a string cell by
cell.

## Main results

- `Keystream.memoryBytes_fill`: the bytes of a filled memory
- `Keystream.exists_writtenOver_succ`: what one more cell changes
- `Keystream.fillBytes_eq_writtenOver`, `Keystream.fillBytes_memoryBytes`: filled strings
-/

namespace NonceSweep.Engine

variable (p : Primitives)

namespace Keystream

/-- The bytes of the first `count` cells of the stream. -/
def streamBytes (key start : Cell) : (count : Nat) → ByteArray
  | 0 => ByteArray.empty
  | count + 1 => streamBytes key start count ++ (cellAfter p key start (count + 1)).toBytes

theorem size_streamBytes (key start : Cell) (count : Nat) :
    (streamBytes p key start count).size = count * Cell.size := by
  induction count with
  | zero => rfl
  | succ count ih => simp [streamBytes, ih, Nat.succ_mul]

theorem toBytes_blockAfter (key start : Cell) (count : Nat) :
    streamBytes p key start count ++ (blockAfter p key start count).toBytes =
      streamBytes p key start (count + 4) := by
  simp only [blockAfter, Block.ofCells, Block.toBytes_eq, Digest.toBytes_ofCells, streamBytes,
    ByteArray.append_assoc]

theorem memoryBytes_fill {n : Nat} (memory : Vector Block n) (seed : Digest) :
    memoryBytes (fill p memory seed) = streamBytes p seed.front seed.back (4 * n) := by
  have hblocks : (fill p memory seed).toList =
      (List.range n).map fun i => blockAfter p seed.front seed.back (4 * i) := by
    apply List.ext_getElem
    · simp
    · intro i hi _
      have hi : i < n := by simpa using hi
      simp [getElem_fill p memory seed i hi]
  rw [memoryBytes_eq_joined, hblocks]
  clear hblocks
  -- by now the memory itself plays no part, and the last block of the list is the last of the stream
  induction n with
  | zero => rfl
  | succ n ih =>
    rw [List.range_succ, List.map_append, joined_append, ih (Vector.replicate n .zero), Nat.mul_succ,
      ← toBytes_blockAfter]
    simp [joined]

/-- The bytes after `count` cells have been written over the front of a string. -/
def writtenOver (buffer : ByteArray) (seed : Digest) (count : Nat) : ByteArray :=
  streamBytes p seed.front seed.back count ++ buffer.extract (count * Cell.size) buffer.size

theorem fillBytes_eq_writtenOver (buffer : ByteArray) (seed : Digest) :
    fillBytes p buffer seed = writtenOver p buffer seed (4 * (buffer.size / Block.size)) := by
  have hcells (n : Nat) : n * Block.size = 4 * n * Cell.size := by
    simp only [Block.size, Cell.size]
    omega
  simp only [fillBytes, writtenOver, memoryBytes_fill, hcells]

theorem writtenOver_zero (buffer : ByteArray) (seed : Digest) :
    writtenOver p buffer seed 0 = buffer := by
  simp [writtenOver, streamBytes]

/-- One more cell takes the place of as many bytes of what the string held, and nothing else changes. -/
theorem exists_writtenOver_succ (buffer : ByteArray) (seed : Digest) {count : Nat}
    (hinside : (count + 1) * Cell.size ≤ buffer.size) :
    ∃ old rest, old.size = Cell.size ∧
      writtenOver p buffer seed count = streamBytes p seed.front seed.back count ++ old ++ rest ∧
      writtenOver p buffer seed (count + 1) = streamBytes p seed.front seed.back count ++
        (cellAfter p seed.front seed.back (count + 1)).toBytes ++ rest := by
  rw [Nat.succ_mul] at hinside
  refine ⟨buffer.extract (count * Cell.size) (count * Cell.size + Cell.size),
    buffer.extract (count * Cell.size + Cell.size) buffer.size, ?_, ?_, ?_⟩
  · rw [ByteArray.size_extract, Nat.min_eq_left hinside, Nat.add_sub_cancel_left]
  · rw [writtenOver, ByteArray.append_assoc,
      ← ByteArray.extract_eq_extract_append_extract _ (Nat.le_add_right _ _) hinside]
  · rw [writtenOver, streamBytes, Nat.succ_mul]

/-- Filling the bytes of a memory is filling the memory. -/
theorem fillBytes_memoryBytes {n : Nat} (memory : Vector Block n) (seed : Digest) :
    fillBytes p (memoryBytes memory) seed = memoryBytes (fill p memory seed) := by
  have hblocks : (memoryBytes memory).size / Block.size = n := by
    rw [size_memoryBytes]
    exact Nat.mul_div_cancel n (by decide)
  have hcells : (memoryBytes memory).size = 4 * n * Cell.size := by
    rw [size_memoryBytes]
    simp only [Block.size, Cell.size]
    omega
  rw [fillBytes_eq_writtenOver, hblocks, memoryBytes_fill, writtenOver, ← hcells, ByteArray.extract_same,
    ByteArray.append_empty]

theorem size_fillBytes (buffer : ByteArray) (seed : Digest) :
    (fillBytes p buffer seed).size = buffer.size := by
  have hwhole := Nat.div_mul_le_self buffer.size Block.size
  rw [fillBytes, ByteArray.size_append, size_memoryBytes, ByteArray.size_extract, Nat.min_self]
  omega

end Keystream

end NonceSweep.Engine
