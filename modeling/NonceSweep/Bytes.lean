/-!
# Byte strings and little-endian words

Byte strings are `ByteArray`s. A word is read and written with its low byte first. Reading is total:
a position at or past the end reads as zero, which is also how the hash functions pad their last block.

## Contents

- `Bytes.byteAt`: one byte of a string, zero past its end
- `Bytes.word32`, `Bytes.word64`: little-endian words at a byte position
- `Bytes.push32`, `Bytes.push64`: appending a word
- `Bytes.lane?`: the `i`-th 64-bit lane, if it lies inside the string
-/

namespace NonceSweep.Bytes

/-- Byte strings are compared by their arrays. -/
instance (priority := high) decEq : DecidableEq ByteArray := ByteArray.instDecidableEq

/-! ## Reading -/

/-- The byte at position `i`, and zero at every position past the end. -/
@[inline] def byteAt (bytes : ByteArray) (i : Nat) : UInt8 :=
  if h : i < bytes.size then bytes[i] else 0

/-- The four bytes from position `i` on as a word, low byte first. -/
@[inline] def word32 (bytes : ByteArray) (i : Nat) : UInt32 :=
  (byteAt bytes i).toUInt32 + ((byteAt bytes (i + 1)).toUInt32 <<< 8) +
    ((byteAt bytes (i + 2)).toUInt32 <<< 16) + ((byteAt bytes (i + 3)).toUInt32 <<< 24)

/-- The eight bytes from position `i` on as a word, low byte first. -/
@[inline] def word64 (bytes : ByteArray) (i : Nat) : UInt64 :=
  (word32 bytes i).toUInt64 + ((word32 bytes (i + 4)).toUInt64 <<< 32)

/-- Lane `i` is the word in bytes `8 * i` to `8 * i + 7`; a string that ends before that has none. -/
def lane? (bytes : ByteArray) (i : Nat) : Option UInt64 :=
  if 8 * i + 8 ≤ bytes.size then some (word64 bytes (8 * i)) else none

/-! ## Writing -/

/-- Appends the four bytes of a word, low byte first. -/
@[inline] def push32 (bytes : ByteArray) (w : UInt32) : ByteArray :=
  (((bytes.push w.toUInt8).push (w >>> 8).toUInt8).push (w >>> 16).toUInt8).push (w >>> 24).toUInt8

/-- Appends the eight bytes of a word, low byte first. -/
@[inline] def push64 (bytes : ByteArray) (w : UInt64) : ByteArray :=
  push32 (push32 bytes w.toUInt32) (w >>> 32).toUInt32

def ofWord32 (w : UInt32) : ByteArray :=
  push32 (ByteArray.emptyWithCapacity 4) w

def ofWord64 (w : UInt64) : ByteArray :=
  push64 (ByteArray.emptyWithCapacity 8) w

/-! ## Sizes -/

@[simp] theorem size_set (bytes : ByteArray) (i : Nat) (b : UInt8) (h : i < bytes.size) :
    (bytes.set i b h).size = bytes.size :=
  Array.size_set ..

end NonceSweep.Bytes
