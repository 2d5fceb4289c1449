import NonceSweep.Engine.Keystream
import NonceSweep.Proofs.Layout

/-!
# The bytes of a memory

A memory is a vector of blocks, and its bytes are those of its blocks one behind the other. So block `i`
lies in the bytes from `i * Block.size` on, and to replace a block, or a part of one, is to replace those
bytes and no others.

## Main results

- `size_memoryBytes`: a memory has as many bytes as its blocks
- `memoryBytes_eq_append`, `memoryBytes_set`: the bytes before a block, of it, and behind it
- `extract_memoryBytes`, `extract_lower`, `extract_upper`: where a block and its halves are found
-/

namespace NonceSweep.Engine

variable {n : Nat} (memory : Vector Block n)

/-! ## Blocks one behind the other -/

/-- The bytes of a list of blocks. -/
def joined : List Block → ByteArray
  | [] => ByteArray.empty
  | block :: rest => block.toBytes ++ joined rest

theorem joined_append (first second : List Block) :
    joined (first ++ second) = joined first ++ joined second := by
  induction first with
  | nil => simp [joined]
  | cons block rest ih => simp [joined, ih, ByteArray.append_assoc]

theorem foldl_push (bytes : ByteArray) (blocks : List Block) :
    blocks.foldl Block.push bytes = bytes ++ joined blocks := by
  induction blocks generalizing bytes with
  | nil => simp [joined]
  | cons block rest ih => simp [joined, ih, Block.push_eq_append, ByteArray.append_assoc]

theorem size_joined (blocks : List Block) : (joined blocks).size = blocks.length * Block.size := by
  induction blocks with
  | nil => rfl
  | cons block rest ih =>
    rw [joined, ByteArray.size_append, Block.size_toBytes, ih, List.length_cons, Nat.succ_mul,
      Nat.add_comm]

/-! ## The bytes of a memory -/

theorem memoryBytes_eq_joined : memoryBytes memory = joined memory.toList := by
  rw [memoryBytes, ← Vector.foldl_toList, foldl_push, Bytes.emptyWithCapacity_append]

@[simp] theorem size_memoryBytes : (memoryBytes memory).size = n * Block.size := by
  rw [memoryBytes_eq_joined, size_joined, Vector.length_toList]

/-- The bytes before block `i`. -/
def bytesBefore (i : Nat) : ByteArray := joined (memory.toList.take i)

/-- The bytes behind block `i`. -/
def bytesBehind (i : Nat) : ByteArray := joined (memory.toList.drop (i + 1))

variable {i : Nat} (hi : i < n)

include hi in
theorem size_bytesBefore : (bytesBefore memory i).size = i * Block.size := by
  rw [bytesBefore, size_joined, List.length_take, Vector.length_toList, Nat.min_eq_left (Nat.le_of_lt hi)]

theorem memoryBytes_eq_append :
    memoryBytes memory = bytesBefore memory i ++ memory[i].toBytes ++ bytesBehind memory i := by
  have hsplit : memory.toList = memory.toList.take i ++ memory[i] :: memory.toList.drop (i + 1) := by
    have hlength : i < memory.toList.length := by simpa using hi
    have hdrop := List.drop_eq_getElem_cons hlength
    rw [Vector.getElem_toList] at hdrop
    rw [← hdrop, List.take_append_drop]
  rw [memoryBytes_eq_joined, hsplit, joined_append, joined, ← ByteArray.append_assoc]
  simp [bytesBefore, bytesBehind]

/-- Another block `i` leaves the bytes on both sides as they are. -/
theorem memoryBytes_set (block : Block) :
    memoryBytes (memory.set i block) =
      bytesBefore memory i ++ block.toBytes ++ bytesBehind memory i := by
  have hbefore : bytesBefore (memory.set i block) i = bytesBefore memory i := by
    simp [bytesBefore, Vector.toList_set, List.take_set_of_le]
  have hbehind : bytesBehind (memory.set i block) i = bytesBehind memory i := by
    simp [bytesBehind, Vector.toList_set, List.drop_set_of_lt]
  rw [memoryBytes_eq_append (memory.set i block) hi, hbefore, hbehind, Vector.getElem_set_self]

/-! ## Finding a block -/

theorem extract_memoryBytes :
    (memoryBytes memory).extract (i * Block.size) (i * Block.size + Block.size) =
      memory[i].toBytes := by
  have hmiddle := Bytes.extract_middle (bytesBefore memory i) memory[i].toBytes
    (bytesBehind memory i)
  rw [size_bytesBefore memory hi, Block.size_toBytes, ← memoryBytes_eq_append memory hi] at hmiddle
  exact hmiddle

theorem extract_lower :
    (memoryBytes memory).extract (i * Block.size) (i * Block.size + Digest.size) =
      memory[i].lower.toBytes := by
  have hmiddle := Bytes.extract_middle (bytesBefore memory i) memory[i].lower.toBytes
    (memory[i].upper.toBytes ++ bytesBehind memory i)
  rw [size_bytesBefore memory hi, Digest.size_toBytes] at hmiddle
  rw [memoryBytes_eq_append memory hi, Block.toBytes_eq]
  simpa only [ByteArray.append_assoc] using hmiddle

theorem extract_upper :
    (memoryBytes memory).extract (i * Block.size + Digest.size) (i * Block.size + Block.size) =
      memory[i].upper.toBytes := by
  have hmiddle := Bytes.extract_middle (bytesBefore memory i ++ memory[i].lower.toBytes)
    memory[i].upper.toBytes (bytesBehind memory i)
  have hsize : Block.size = Digest.size + Digest.size := rfl
  rw [ByteArray.size_append, size_bytesBefore memory hi, Digest.size_toBytes, Digest.size_toBytes,
    Nat.add_assoc, ← hsize] at hmiddle
  rw [memoryBytes_eq_append memory hi, Block.toBytes_eq]
  simpa only [ByteArray.append_assoc] using hmiddle

end NonceSweep.Engine
