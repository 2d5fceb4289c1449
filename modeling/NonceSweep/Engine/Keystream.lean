import NonceSweep.Engine.Primitives

/-!
# The keystream that memories are filled with

A seed is a key and a starting cell. Four rounds of encryption under the key lead from one cell of the
stream to the next, and four cells make a block. Filling a memory writes the stream over all that was there.

## Contents

- `expand`: from one cell to the next
- `Keystream.fill`: a memory of whole blocks
- `Keystream.fillBytes`: a byte string, whose last bytes stay if they are no whole block
-/

namespace NonceSweep.Engine

variable (p : Primitives)

/-- Four rounds of encryption under one key. -/
def expand (state key : Cell) : Cell :=
  p.cipherRound (p.cipherRound (p.cipherRound (p.cipherRound state key) key) key) key

namespace Keystream

/-- The next block of the stream, and the cell to go on from. -/
def nextBlock (key state : Cell) : Block × Cell :=
  let a := expand p state key
  let b := expand p a key
  let c := expand p b key
  let d := expand p c key
  (Block.ofCells a b c d, d)

/-- Writes the stream into a memory from block `i` on. -/
def fillFrom {n : Nat} (key : Cell) (memory : Vector Block n) (i : Nat) (state : Cell) : Vector Block n :=
  if h : i < n then
    let (block, state) := nextBlock p key state
    fillFrom key (memory.set i block) (i + 1) state
  else memory
termination_by n - i

/-- Fills a memory. The first half of the seed is the key, the second half the starting cell. -/
def fill {n : Nat} (memory : Vector Block n) (seed : Digest) : Vector Block n :=
  fillFrom p seed.front memory 0 seed.back

end Keystream

def memoryBytes {n : Nat} (memory : Vector Block n) : ByteArray :=
  memory.foldl Block.push (ByteArray.emptyWithCapacity (n * Block.size))

namespace Keystream

/-- Fills the whole blocks of a byte string. -/
def fillBytes (buffer : ByteArray) (seed : Digest) : ByteArray :=
  let blocks := buffer.size / Block.size
  memoryBytes (fill p (Vector.replicate blocks Block.zero) seed) ++
    buffer.extract (blocks * Block.size) buffer.size

end Keystream

end NonceSweep.Engine
