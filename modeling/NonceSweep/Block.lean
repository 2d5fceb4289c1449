import NonceSweep.Bytes

/-!
# Cells, digests and blocks

Everything that the engine computes on has one of three fixed sizes, and each is held as little-endian
64-bit lanes:

- a `Cell` is 16 bytes, the unit of the block cipher
- a `Digest` is 32 bytes, the size of every hash, key, seed and round state
- a `Block` is 64 bytes, the unit of memory; its two halves are digests

`toBytes` and `ofBytes` pass between a value and its bytes.
-/

namespace NonceSweep

/-! ## The three sizes -/

/-- Sixteen bytes: two 64-bit lanes. -/
structure Cell where
  lane0 : UInt64
  lane1 : UInt64
deriving DecidableEq, Inhabited, Repr

/-- Thirty-two bytes: four 64-bit lanes. -/
structure Digest where
  lane0 : UInt64
  lane1 : UInt64
  lane2 : UInt64
  lane3 : UInt64
deriving DecidableEq, Inhabited, Repr

/-- Sixty-four bytes: a lower and an upper half. -/
structure Block where
  lower : Digest
  upper : Digest
deriving DecidableEq, Inhabited, Repr

/-! ## Cells -/

namespace Cell

def size : Nat := 16

/-- The bytes of a cell, appended to `bytes`. -/
@[inline] def push (bytes : ByteArray) (c : Cell) : ByteArray :=
  Bytes.push64 (Bytes.push64 bytes c.lane0) c.lane1

def toBytes (c : Cell) : ByteArray :=
  push (ByteArray.emptyWithCapacity size) c

/-- The cell that starts at byte `i`. -/
def ofBytes (bytes : ByteArray) (i : Nat) : Cell :=
  ⟨Bytes.word64 bytes i, Bytes.word64 bytes (i + 8)⟩

end Cell

/-! ## Digests -/

namespace Digest

def size : Nat := 32

def zero : Digest := ⟨0, 0, 0, 0⟩

/-- The first sixteen bytes. -/
@[inline] def front (d : Digest) : Cell := ⟨d.lane0, d.lane1⟩

/-- The last sixteen bytes. -/
@[inline] def back (d : Digest) : Cell := ⟨d.lane2, d.lane3⟩

@[inline] def ofCells (front back : Cell) : Digest :=
  ⟨front.lane0, front.lane1, back.lane0, back.lane1⟩

/-- Lane-wise exclusive or, which is also the exclusive or of the bytes. -/
def xor (a b : Digest) : Digest :=
  ⟨a.lane0 ^^^ b.lane0, a.lane1 ^^^ b.lane1, a.lane2 ^^^ b.lane2, a.lane3 ^^^ b.lane3⟩

@[inline] def push (bytes : ByteArray) (d : Digest) : ByteArray :=
  Cell.push (Cell.push bytes d.front) d.back

def toBytes (d : Digest) : ByteArray :=
  push (ByteArray.emptyWithCapacity size) d

@[inline] def ofBytes (bytes : ByteArray) (i : Nat) : Digest :=
  ⟨Bytes.word64 bytes i, Bytes.word64 bytes (i + 8),
    Bytes.word64 bytes (i + 16), Bytes.word64 bytes (i + 24)⟩

end Digest

/-! ## Blocks -/

namespace Block

def size : Nat := 64

def zero : Block := ⟨.zero, .zero⟩

@[inline] def ofCells (a b c d : Cell) : Block :=
  ⟨.ofCells a b, .ofCells c d⟩

def xor (a b : Block) : Block :=
  ⟨a.lower.xor b.lower, a.upper.xor b.upper⟩

def push (bytes : ByteArray) (b : Block) : ByteArray :=
  Digest.push (Digest.push bytes b.lower) b.upper

def toBytes (b : Block) : ByteArray :=
  push (ByteArray.emptyWithCapacity size) b

def ofBytes (bytes : ByteArray) (i : Nat) : Block :=
  ⟨.ofBytes bytes i, .ofBytes bytes (i + 32)⟩

end Block

end NonceSweep
