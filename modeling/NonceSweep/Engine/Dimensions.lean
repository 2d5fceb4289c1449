import NonceSweep.Block

/-!
# Dimensions of the engine

How large its three memories are and how much work one hash takes. A memory is counted in blocks; its size
in bytes follows.
-/

namespace NonceSweep.Engine

def cacheBlocks : Nat := 16384

/-- Items of the dataset, each one block. -/
def datasetItems : Nat := 65536

def scratchpadBlocks : Nat := 1024

def cacheSize : Nat := cacheBlocks * Block.size

def datasetSize : Nat := datasetItems * Block.size

def scratchpadSize : Nat := scratchpadBlocks * Block.size

/-- Cache blocks that go into one dataset item. -/
def cacheReads : Nat := 4

def roundCount : Nat := 512

/-- A dataset item is read in every round whose number is a multiple of this. -/
def datasetInterval : Nat := 16

def version : Nat := 5

end NonceSweep.Engine
