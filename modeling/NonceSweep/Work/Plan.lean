import NonceSweep.Engine.Options
import NonceSweep.Outcome.Failure

/-!
# Plans

A strategy fixes how the workers of a sweep call their engine and what they merge: two independent choices.

A plan says what a sweep does: which engine it sets up, how many nonces it hashes, and how the work is
shared out. It is checked once, before anything else happens.
-/

namespace NonceSweep

/-! ## Strategies -/

/-- How hashes are computed and what becomes of them. -/
structure Strategy where
  /-- Whether the next input is handed in before the hash of the last is taken. -/
  batched : Bool
  /-- Whether commitments to hashes are merged, and not the hashes themselves. -/
  commits : Bool
deriving DecidableEq, Repr

namespace Strategy

def standard : Strategy := ⟨true, false⟩

def name : Strategy → String
  | ⟨false, false⟩ => "hash"
  | ⟨false, true⟩ => "hash_commit"
  | ⟨true, false⟩ => "batch"
  | ⟨true, true⟩ => "batch_commit"

def text : Strategy → String
  | ⟨false, false⟩ => "hash"
  | ⟨false, true⟩ => "hash + commitment"
  | ⟨true, false⟩ => "batched hash"
  | ⟨true, true⟩ => "batched hash + commitment"

end Strategy

/-! ## Plans -/

/-- What a sweep is to do. -/
structure Plan where
  options : Engine.Options
  threads : UInt64
  affinity : UInt64
  initThreads : UInt64
  /-- The nonces below this are hashed. -/
  nonces : UInt64
  seed : UInt32
  strategy : Strategy
deriving DecidableEq, Repr

namespace Plan

/-- What is done when nothing is said. -/
def standard : Plan :=
  { options := .standard, threads := 1, affinity := 0, initThreads := 1, nonces := 1000, seed := 0
    strategy := .standard }

/-- The greatest bound: every nonce below it fits a field of four bytes. -/
def greatestBound : UInt64 := 0x100000000

/-- Checks a plan: first its workers, then the threads for the dataset, then its bound. -/
def check (p : Plan) : Except PlanFault Unit :=
  if p.threads = 0 then .error .noThreads
  else if p.initThreads = 0 then .error .noInitThreads
  else if greatestBound < p.nonces then .error (.tooManyNonces p.nonces)
  else .ok ()

/-- The bytes that the engine is seeded with. -/
def engineSeed (p : Plan) : ByteArray := Bytes.ofWord32 p.seed

end Plan

end NonceSweep
