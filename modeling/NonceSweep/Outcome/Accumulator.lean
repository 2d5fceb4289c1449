import NonceSweep.Outcome.Fingerprint

/-!
# The accumulator of hashes

Workers merge fingerprints into one accumulator, lane after lane. Each lane is merged by one exclusive or,
which nothing can interrupt; between two lanes of one merge others may merge theirs.
-/

namespace NonceSweep

/-- Lanes that hashes are merged into. -/
structure Accumulator where
  lanes : Vector UInt64 laneCount
deriving DecidableEq, Repr

namespace Accumulator

def empty : Accumulator := ⟨Vector.replicate laneCount 0⟩

/-- Merges one lane of a fingerprint. -/
def mergeLane (a : Accumulator) (update : Fingerprint) (i : Fin laneCount) : Accumulator :=
  ⟨a.lanes.set i (a.lanes[i] ^^^ update.lanes[i])⟩

/-- Merges all lanes of a fingerprint in turn. -/
def merge (a : Accumulator) (update : Fingerprint) : Accumulator :=
  (List.finRange laneCount).foldl (·.mergeLane update) a

/-- What has been merged so far. -/
def value (a : Accumulator) : Fingerprint := ⟨a.lanes⟩

end Accumulator

end NonceSweep
