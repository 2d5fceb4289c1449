import NonceSweep.Primitive.Blake3
import NonceSweep.Primitive.Sha256
import NonceSweep.Primitive.CipherRound

/-!
# The primitives of the engine

The engine is built from six functions and uses nothing of them but their types. `Primitives` is any
choice of them, `Primitives.standard` the one that hashes are computed with.
-/

namespace NonceSweep.Engine

/-- The functions that the engine is built from. -/
structure Primitives where
  hash : ByteArray → Digest
  keyedHash : Digest → ByteArray → Digest
  /-- One block that depends on a key and a message. -/
  keyedBlock : Digest → ByteArray → Block
  /-- A key for a named purpose from key material. -/
  deriveKey : String → ByteArray → Digest
  sha256 : ByteArray → Digest
  /-- One round of encryption of a cell under a round key. -/
  cipherRound : (state key : Cell) → Cell

/-- BLAKE3, SHA-256 and the encryption round of AES. -/
def Primitives.standard : Primitives :=
  { hash := Blake3.hash
    keyedHash := Blake3.keyedHash
    keyedBlock := Blake3.keyedOutput
    deriveKey := Blake3.deriveKey
    sha256 := Sha256.hash
    cipherRound := CipherRound.encrypt }

end NonceSweep.Engine
