import NonceSweep.CommandLine.Options
import NonceSweep.Work.Plan

/-!
# Invocations

What a command line asks for, and the plan that follows from it. The processor is looked at only if the
choice of the best options is left to it.
-/

namespace NonceSweep.CommandLine

/-- What a command line asks for. -/
structure Invocation where
  switches : List Switch
  threads : UInt64
  affinity : UInt64
  initThreads : UInt64
  nonces : UInt64
  seed : UInt32
  expect : Option Fingerprint
deriving DecidableEq, Repr

namespace Invocation

/-- What an empty command line asks for. -/
def standard : Invocation :=
  { switches := [], threads := 1, affinity := 0, initThreads := 1, nonces := 1000, seed := 0, expect := none }

def has (i : Invocation) (s : Switch) : Bool := s ∈ i.switches

def kernel (i : Invocation) : Engine.Kernel :=
  if i.has .avx2 then .avx2 else if i.has .ssse3 then .ssse3 else .reference

def options (i : Invocation) : Engine.Options :=
  { profile := if i.has .mine then .full else .light
    jit := i.has .jit
    secure := i.has .secure
    largePages := i.has .largePages
    softAes := i.has .softAes
    kernel := i.kernel }

/-- The plan of an invocation on a processor with certain features, if it is a good one. -/
def plan (i : Invocation) (features : Engine.Features) : Except PlanFault Plan :=
  let plan : Plan :=
    { options := if i.has .auto then i.options.tuned features else i.options
      threads := i.threads
      affinity := i.affinity
      initThreads := i.initThreads
      nonces := i.nonces
      seed := i.seed
      strategy := ⟨!i.has .noBatch, i.has .commit⟩ }
  plan.check.map fun _ => plan

end Invocation

end NonceSweep.CommandLine
