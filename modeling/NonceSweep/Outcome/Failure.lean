import NonceSweep.Engine.Notice
import NonceSweep.Outcome.Fingerprint

/-!
# Failures

Why a sweep ends without a report, or its report is rejected. Each cause has one wording.
-/

namespace NonceSweep

/-- What is wrong with a plan or a template. -/
inductive PlanFault where
  /-- There would be no worker. -/
  | noThreads
  /-- There would be nobody to derive the dataset. -/
  | noInitThreads
  /-- The bound lies above the numbers that fit the nonce field. -/
  | tooManyNonces (nonces : UInt64)
  /-- The nonce field is not inside the template. -/
  | nonceOutside (offset length : Nat)
  /-- Anything else, in the words of whoever found it. -/
  | other (reason : String)
deriving DecidableEq, Repr

def PlanFault.reason : PlanFault → String
  | .noThreads => "thread count must be at least 1"
  | .noInitThreads => "init thread count must be at least 1"
  | .tooManyNonces nonces => "nonce bound " ++ toString nonces.toNat ++ " exceeds the 32-bit nonce space"
  | .nonceOutside offset length =>
    "nonce field at offset " ++ toString offset ++ " does not fit a " ++ toString length ++ "-byte template"
  | .other reason => reason

/-- Why there is no accepted report. -/
inductive Failure where
  | plan (fault : PlanFault)
  | allocation (cause : Engine.AllocationFailure)
  | spawn (worker : Nat) (cause : String)
  | workerPanicked (worker : Nat)
  | mismatch (expected actual : Fingerprint)
deriving DecidableEq, Repr

def Failure.message : Failure → String
  | .plan fault => "invalid configuration: " ++ fault.reason
  | .allocation cause => cause.message
  | .spawn worker cause => "failed to spawn worker " ++ toString worker ++ ": " ++ cause
  | .workerPanicked worker => "worker " ++ toString worker ++ " panicked"
  | .mismatch expected actual =>
    "fingerprint mismatch: expected " ++ expected.text ++ ", got " ++ actual.text

/-- The wording of the report that a worker stays where it is. -/
def unpinnedMessage (processor : Nat) : String :=
  "failed to set thread affinity to CPU " ++ toString processor

end NonceSweep
