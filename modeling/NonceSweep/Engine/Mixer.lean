import NonceSweep.Engine.Primitives
import NonceSweep.Engine.Dimensions

/-!
# Mixers

A round of the hash reads a block of the scratchpad and mixes it into a 32-byte state with one of three
mixers. The state and the number of the round choose the block and the mixer.

## Contents

- `cipherMix`, `shaMix`, `blakeMix`: the three mixers
- `mix`: the mixer of a round
- `slot`, `place`, `address`: the block of a round, and where its bytes begin
-/

namespace NonceSweep.Engine

variable (p : Primitives)

/-! ## The mixers -/

/-- Encrypts each half of the state for two rounds; the keys are the two cells of the same half of the
block. -/
def cipherMix (state : Digest) (block : Block) : Digest :=
  .ofCells
    (p.cipherRound (p.cipherRound state.front block.lower.front) block.lower.back)
    (p.cipherRound (p.cipherRound state.back block.upper.front) block.upper.back)

/-- Hashes the state and the block behind it. -/
def shaMix (state : Digest) (block : Block) : Digest :=
  p.sha256 (Block.push state.toBytes block)

/-- Hashes the block under the state as key. -/
def blakeMix (state : Digest) (block : Block) : Digest :=
  p.keyedHash state block.toBytes

/-- The mixer of a round is chosen by the first byte of the state plus the number of the round, modulo
three. -/
def mix (round : Nat) (state : Digest) (block : Block) : Digest :=
  match (state.lane0.toUInt8.toNat + round) % 3 with
  | 0 => cipherMix p state block
  | 1 => shaMix p state block
  | _ => blakeMix p state block

/-! ## The block of a round -/

def rotateLeft (x n : UInt64) : UInt64 :=
  (x <<< n) ||| (x >>> (64 - n))

/-- The odd factor that spreads the number of a round over all bits. -/
def spread : UInt64 := 0x517cc1b727220a95

/-- What the block of a round is taken from. -/
def mixed (state : Digest) (round : UInt64) : UInt64 :=
  state.lane0 ^^^ state.lane1 ^^^ rotateLeft round 13 ^^^ round * spread

/-- The number of the block that a round uses: the lowest bits, as many as number the scratchpad. -/
def slot (state : Digest) (round : UInt64) : UInt64 :=
  mixed state round &&& 0x3ff

/-- Where the bytes of that block begin. -/
def address (state : Digest) (round : UInt64) : UInt64 :=
  slot state round * UInt64.ofNat Block.size

theorem slot_lt (state : Digest) (round : UInt64) : (slot state round).toNat < scratchpadBlocks := by
  simpa [slot, scratchpadBlocks] using Nat.and_lt_two_pow (mixed state round).toNat (n := 10) (by decide)

/-- The place of that block in the scratchpad. -/
def place (state : Digest) (round : Nat) : Fin scratchpadBlocks :=
  ⟨(slot state (UInt64.ofNat round)).toNat, slot_lt _ _⟩

end NonceSweep.Engine
