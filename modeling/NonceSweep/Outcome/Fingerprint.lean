import NonceSweep.Block
import NonceSweep.Text.Blank
import NonceSweep.Text.Hex

/-!
# Fingerprints

A fingerprint is the exclusive or of any number of hashes, held as four 64-bit lanes. Its text is the
hexadecimal text of its 32 bytes, each lane low byte first.

## Contents

- `Fingerprint`: its zero, `^^^`, and the passage from hashes and to bytes
- `Fingerprint.text`, `Fingerprint.parse`: its text
-/

namespace NonceSweep

/-- Lanes of a fingerprint. -/
abbrev laneCount : Nat := 4

/-- The exclusive or of a collection of hashes. -/
structure Fingerprint where
  lanes : Vector UInt64 laneCount
deriving DecidableEq, Repr

namespace Fingerprint

def zero : Fingerprint := ⟨Vector.replicate laneCount 0⟩

/-- The fingerprint of one hash. -/
def ofHash (h : Digest) : Fingerprint := ⟨#v[h.lane0, h.lane1, h.lane2, h.lane3]⟩

/-- The fingerprint of the hash with these bytes. -/
def ofBytes (bytes : ByteArray) : Fingerprint := ofHash (Digest.ofBytes bytes 0)

def toBytes (f : Fingerprint) : ByteArray :=
  f.lanes.foldl Bytes.push64 (ByteArray.emptyWithCapacity Digest.size)

/-- Whether nothing, or nothing but what cancels out, was merged. -/
def isZero (f : Fingerprint) : Bool := f == zero

/-- Lane-wise exclusive or. -/
def merge (f g : Fingerprint) : Fingerprint :=
  ⟨Vector.zipWith (· ^^^ ·) f.lanes g.lanes⟩

instance : XorOp Fingerprint := ⟨merge⟩

/-! ## Text -/

def characters (f : Fingerprint) : List Char := Text.Hex.encode f.toBytes.data.toList

/-- The text of a fingerprint: 64 digits in lower case. -/
def text (f : Fingerprint) : String := String.ofList f.characters

/-- Reads a fingerprint. Blank characters at the two ends do not count. -/
def parse (s : String) : Except Text.Hex.Fault Fingerprint :=
  (Text.Hex.decode Digest.size (Text.utf8 (Text.trim s.toList))).map fun bytes => ofBytes ⟨bytes.toArray⟩

end Fingerprint

def Digest.text (d : Digest) : String := String.ofList (Text.Hex.encode d.toBytes.data.toList)

end NonceSweep
