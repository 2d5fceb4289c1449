import NonceSweep.Engine.Options
import NonceSweep.Log

/-!
# Notices of the engine

What the engine logs while it is set up, and why setting it up can fail.
-/

namespace NonceSweep.Engine

/-- Something that the engine logs. -/
inductive Notice where
  /-- Machine code or its write protection was asked for. -/
  | interpreted
  /-- Large pages were asked for. -/
  | regularPages
  /-- Software encryption rounds were asked for. -/
  | softwareAes
  | allocated (profile : Profile)
  | derivingDataset (threads : Nat) (kernel : Kernel)
  /-- Several threads were asked for in a build that has one. -/
  | oneThread
deriving DecidableEq, Repr

namespace Notice

def level : Notice → Level
  | .interpreted | .regularPages => .warning
  | .softwareAes | .allocated _ | .oneThread => .debug
  | .derivingDataset _ _ => .info

def message : Notice → String
  | .interpreted => "JIT/W^X requested; this engine always runs interpreted"
  | .regularPages => "large pages requested; allocating with regular pages"
  | .softwareAes => "software AES requested; backend is selected by the aes crate"
  | .allocated profile => "allocated shared state: " ++ profile.text
  | .derivingDataset threads kernel =>
    "initializing dataset with " ++ toString threads ++ " thread(s), " ++ kernel.text ++ " kernel"
  | .oneThread => "built without `parallel`; initializing dataset on one thread"

end Notice

/-- The memory that could not be had. -/
inductive AllocationFailure where
  | cache
  | dataset
deriving DecidableEq, Repr

def AllocationFailure.message : AllocationFailure → String
  | .cache => "Cache allocation failed"
  | .dataset => "Dataset allocation failed"

end NonceSweep.Engine
