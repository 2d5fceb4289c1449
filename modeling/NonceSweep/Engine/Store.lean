import NonceSweep.Engine.Keystream
import NonceSweep.Engine.Mixer
import NonceSweep.Engine.Notice

/-!
# The shared memory of an engine

A `Store` is what all machines of one sweep read: a key for inputs, a cache, and with the full profile the
dataset. It is allocated with zeros, and then seeded any number of times; the last seed decides all of it.

A dataset item is derived from a few cache blocks, each of which names the next. With the light profile it
is derived whenever it is read, with the full profile once, when the store is seeded.

## Contents

- `derive`: a dataset item from the cache
- `Store.allocate`, `Store.seed`: the life of a store
- `Store.item`, `Store.seedOf`: what machines read
-/

namespace NonceSweep.Engine

variable (p : Primitives)

/-! ## Dataset items -/

/-- The cache block that a state names. -/
def cacheSlot (state : Digest) : UInt64 := state.lane0 &&& 0x3fff

theorem cacheSlot_lt (state : Digest) : (cacheSlot state).toNat < cacheBlocks := by
  simpa [cacheSlot, cacheBlocks] using Nat.and_lt_two_pow state.lane0.toNat (n := 14) (by decide)

/-- The place of that block in the cache. -/
def cachePlace (state : Digest) : Fin cacheBlocks := ⟨(cacheSlot state).toNat, cacheSlot_lt state⟩

/-- Follows `count` cache blocks. Each is hashed under the state that named it. -/
def follow (cache : Vector Block cacheBlocks) : (count : Nat) → Digest → Digest
  | 0, state => state
  | count + 1, state =>
    follow cache count (p.keyedHash state cache[cachePlace state].toBytes)

/-- Derives an item of the dataset from the cache. -/
def derive (cache : Vector Block cacheBlocks) (index : UInt64) : Block :=
  let name := Bytes.ofWord64 index
  p.keyedBlock (follow p cache cacheReads (p.hash name)) name

/-- The item that a number names. -/
def itemSlot (index : UInt64) : UInt64 := index % 0x10000

theorem itemSlot_lt (index : UInt64) : (itemSlot index).toNat < datasetItems := by
  simpa [itemSlot, datasetItems] using Nat.mod_lt index.toNat (y := 65536) (by decide)

/-- The place of that item in the dataset. -/
def itemPlace (index : UInt64) : Fin datasetItems := ⟨(itemSlot index).toNat, itemSlot_lt index⟩

/-- Derives one item and writes it to its place. -/
def writeItem (cache : Vector Block cacheBlocks) (dataset : Vector Block datasetItems)
    (index : Fin datasetItems) : Vector Block datasetItems :=
  dataset.set index (derive p cache (UInt64.ofNat index))

/-- Derives items in the given order. -/
def writeItems (cache : Vector Block cacheBlocks) (order : List (Fin datasetItems))
    (dataset : Vector Block datasetItems) : Vector Block datasetItems :=
  order.foldl (writeItem p cache) dataset

/-! ## Builds -/

/-- How an engine is built to derive its dataset. -/
inductive Build where
  /-- One thread derives the items in ascending order. -/
  | sequential
  /-- Several threads share the items; together they write them in some order. -/
  | parallel (order : List (Fin datasetItems))

namespace Build

/-- A parallel build whose threads happen to keep the ascending order. -/
def inOrder : Build := .parallel (List.finRange datasetItems)

def order : Build → List (Fin datasetItems)
  | .sequential => List.finRange datasetItems
  | .parallel order => order

end Build

/-! ## Stores -/

/-- The memory that the machines of a sweep share. -/
structure Store where
  options : Options
  /-- Key under which inputs are hashed. -/
  inputKey : Digest
  cache : Vector Block cacheBlocks
  /-- The items, if the profile keeps them. -/
  dataset : Option (Vector Block datasetItems)

namespace Store

def cachePurpose : String := "uhash-core 2025 cache key"

def inputPurpose : String := "uhash-core 2025 input key"

def allocationNotices (o : Options) : List Notice :=
  (if o.jit || o.secure then [.interpreted] else []) ++
  (if o.largePages then [.regularPages] else []) ++
  (if o.softAes then [.softwareAes] else []) ++
  [.allocated o.profile]

/-- A store of zeros. -/
def allocate (o : Options) : Store :=
  { options := o
    inputKey := .zero
    cache := Vector.replicate cacheBlocks .zero
    dataset :=
      match o.profile with
      | .light => none
      | .full => some (Vector.replicate datasetItems .zero) }

def seedingNotices (s : Store) (build : Build) (threads : Nat) : List Notice :=
  match s.dataset with
  | none => []
  | some _ =>
    .derivingDataset (max threads 1) s.options.kernel ::
      match build with
      | .sequential => if 1 < threads then [.oneThread] else []
      | .parallel _ => []

/-- Writes over the whole memory what follows from a seed. -/
def seed (s : Store) (build : Build) (bytes : ByteArray) : Store :=
  let ⟨options, _, cache, dataset⟩ := s
  let cache := Keystream.fill p cache (p.deriveKey cachePurpose bytes)
  { options
    inputKey := p.deriveKey inputPurpose bytes
    cache
    dataset := dataset.map (writeItems p cache build.order) }

/-- Item `index` of the dataset, counted modulo its length. -/
def item (s : Store) (index : UInt64) : Block :=
  match s.dataset with
  | some dataset => dataset[itemPlace index]
  | none => derive p s.cache (itemSlot index)

/-- The seed of a machine's work on an input. -/
def seedOf (s : Store) (input : ByteArray) : Digest :=
  p.keyedHash s.inputKey input

end Store

end NonceSweep.Engine
