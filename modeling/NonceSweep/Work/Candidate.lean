import NonceSweep.Outcome.Failure

/-!
# Templates and candidates

A template is a byte string with a field of four bytes for a nonce. A candidate is a private copy of it in
which the field holds a nonce, low byte first; workers write to the field of one candidate again and again.

That the field lies inside the bytes is part of both types.
-/

namespace NonceSweep

def nonceSize : Nat := 4

/-- A byte string with a nonce field. -/
structure Template where
  bytes : ByteArray
  /-- Where the field begins. -/
  offset : Nat
  fits : offset + nonceSize ≤ bytes.size

/-- A copy of a template with a nonce in its field. -/
structure Candidate where
  bytes : ByteArray
  offset : Nat
  fits : offset + nonceSize ≤ bytes.size

/-! ## The nonce field -/

/-- Writes a nonce to the four bytes from `offset` on. -/
def writeNonce (bytes : ByteArray) (offset : Nat) (fits : offset + nonceSize ≤ bytes.size)
    (nonce : UInt32) : ByteArray :=
  have inside : offset + 3 < bytes.size := fits
  (((bytes.set offset nonce.toUInt8).set (offset + 1) (nonce >>> 8).toUInt8
    (by simp only [Bytes.size_set]; omega)).set (offset + 2) (nonce >>> 16).toUInt8
    (by simp only [Bytes.size_set]; omega)).set (offset + 3) (nonce >>> 24).toUInt8
    (by simp only [Bytes.size_set]; omega)

@[simp] theorem size_writeNonce (bytes : ByteArray) (offset : Nat)
    (fits : offset + nonceSize ≤ bytes.size) (nonce : UInt32) :
    (writeNonce bytes offset fits nonce).size = bytes.size := by
  simp [writeNonce]

namespace Candidate

/-- Puts another nonce into the field. -/
def patch (c : Candidate) (nonce : UInt32) : Candidate :=
  { bytes := writeNonce c.bytes c.offset c.fits nonce
    offset := c.offset
    fits := by simpa using c.fits }

def nonce (c : Candidate) : UInt32 := Bytes.word32 c.bytes c.offset

end Candidate

namespace Template

/-- The template with a field at `offset`, if the field fits. -/
def make (bytes : ByteArray) (offset : Nat) : Except PlanFault Template :=
  if fits : offset + nonceSize ≤ bytes.size then .ok ⟨bytes, offset, fits⟩
  else .error (.nonceOutside offset bytes.size)

def candidate (t : Template) (nonce : UInt32) : Candidate :=
  Candidate.patch ⟨t.bytes, t.offset, t.fits⟩ nonce

/-! ## The standard template -/

def standardBytes : ByteArray := ⟨#[
  0x07, 0x07, 0xf7, 0xa4, 0xf0, 0xd6, 0x05, 0xb3, 0x03, 0x26, 0x08, 0x16, 0xba, 0x3f, 0x10, 0x90,
  0x2e, 0x1a, 0x14, 0x5a, 0xc5, 0xfa, 0xd3, 0xaa, 0x3a, 0xf6, 0xea, 0x44, 0xc1, 0x18, 0x69, 0xdc,
  0x4f, 0x85, 0x3f, 0x00, 0x2b, 0x2e, 0xea, 0x00, 0x00, 0x00, 0x00, 0x77, 0xb2, 0x06, 0xa0, 0x2c,
  0xa5, 0xb1, 0xd4, 0xce, 0x6b, 0xbf, 0xdf, 0x0a, 0xca, 0xc3, 0x8b, 0xde, 0xd3, 0x4d, 0x2d, 0xcd,
  0xee, 0xf9, 0x5c, 0xd2, 0x0c, 0xef, 0xc1, 0x2f, 0x61, 0xd5, 0x61, 0x09]⟩

def standardOffset : Nat := 39

/-- The template that is hashed when no other is given. -/
def standard : Template := ⟨standardBytes, standardOffset, by decide⟩

end Template

end NonceSweep
