import NonceSweep.Engine.Store

/-!
# Hashing machines

A `Machine` has a scratchpad of its own and reads a store. One hash takes three phases:

1. the input is hashed under the store's input key, and the scratchpad is filled from the result
2. in each round a block is chosen by the state, mixed into it, and its lower half replaced by the new
   state; now and then a dataset item is folded into the block that is mixed
3. the last state and the whole scratchpad are hashed

A machine can also hold back one input: `prime` hands in the first, `advance` hands in the next and returns
the hash of the one before, `drain` returns the hash of the last. Only the seed of the held input is kept.
The scratchpad is never cleared between hashes.
-/

namespace NonceSweep.Engine

variable (p : Primitives)

/-! ## Rounds -/

abbrev Scratchpad := Vector Block scratchpadBlocks

/-- The block that is mixed in a round: the one at its place, with a dataset item folded in if it is due. -/
def roundBlock (store : Store) (round : Nat) (pad : Scratchpad) (state : Digest) : Block :=
  let block := pad[place state round]
  if round % datasetInterval = 0 then block.xor (store.item p state.lane2) else block

/-- One round. The new state goes into the lower half of the block that was read. -/
def performRound (store : Store) (round : Nat) (pad : Scratchpad) (state : Digest) : Scratchpad × Digest :=
  let next := mix p round state (roundBlock p store round pad state)
  (pad.set (place state round) ⟨next, pad[place state round].upper⟩, next)

/-- The scratchpad and the state after `count` rounds. -/
def performRounds (store : Store) (pad : Scratchpad) (seed : Digest) : (count : Nat) → Scratchpad × Digest
  | 0 => (pad, seed)
  | count + 1 =>
    let (pad, state) := performRounds store pad seed count
    performRound p store count pad state

/-- What the last state and the scratchpad are hashed to. -/
def finalHash (pad : Scratchpad) (state : Digest) : Digest :=
  p.hash (p.sha256 (Digest.push state.toBytes (p.hash (memoryBytes pad)))).toBytes

/-- The hash for a seed, and the scratchpad that is left. -/
def execute (store : Store) (pad : Scratchpad) (seed : Digest) : Digest × Scratchpad :=
  let (pad, state) := performRounds p store (Keystream.fill p pad seed) seed roundCount
  (finalHash p pad state, pad)

/-! ## Machines -/

structure Machine where
  store : Store
  scratchpad : Scratchpad
  /-- Seed of the input that is held back. -/
  held : Option Digest

namespace Machine

def new (store : Store) : Machine :=
  { store, scratchpad := Vector.replicate scratchpadBlocks .zero, held := none }

def isHolding (m : Machine) : Bool := m.held.isSome

/-- Works on a seed. -/
def work (m : Machine) (seed : Digest) : Digest × Machine :=
  let ⟨store, scratchpad, held⟩ := m
  let (hash, scratchpad) := execute p store scratchpad seed
  (hash, { store, scratchpad, held })

/-- The hash of an input. An input that is held back stays so. -/
def hash (m : Machine) (input : ByteArray) : Digest × Machine :=
  m.work p (m.store.seedOf p input)

/-- Holds an input back in place of any other. -/
def prime (m : Machine) (input : ByteArray) : Machine :=
  { m with held := some (m.store.seedOf p input) }

/-- Holds an input back and returns the hash of the one that was; without one, that of the input itself. -/
def advance (m : Machine) (input : ByteArray) : Digest × Machine :=
  let next := m.store.seedOf p input
  let previous := m.held.getD next
  { m with held := some next }.work p previous

/-- Returns the hash of the input that is held back, and holds none any more. -/
def drain (m : Machine) : Option Digest × Machine :=
  match m.held with
  | none => (none, m)
  | some seed =>
    let (hash, m) := { m with held := none }.work p seed
    (some hash, m)

end Machine

/-- The commitment to a hash of an input. -/
def commitment (input : ByteArray) (hash : Digest) : Digest :=
  p.hash (Digest.push input hash)

end NonceSweep.Engine
