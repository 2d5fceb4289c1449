import NonceSweep.Outcome.Duration
import NonceSweep.Work.Plan

/-!
# Events of a sweep

What a sweep logs, from its first phase to its last. Each event has a level and one wording; the events
that open a phase carry its name in front.
-/

namespace NonceSweep

/-! ## Phases -/

/-- How far a sweep has come. -/
inductive Phase where
  | configured
  | engineReady
  | running
  | joined
  | reported
  | failed
deriving DecidableEq, Repr

def Phase.text : Phase → String
  | .configured => "configured"
  | .engineReady => "engine ready"
  | .running => "running"
  | .joined => "joined"
  | .reported => "reported"
  | .failed => "failed"

/-! ## Events -/

/-- Something that a sweep logs. -/
inductive Event where
  | engine (notice : Engine.Notice)
  | configured (threads nonces : UInt64) (seed : UInt32) (strategy : Strategy)
  | failed (cause : Engine.AllocationFailure)
  | engineReady (elapsed : Duration)
  | running (threads : UInt64)
  | pinned (worker processor : Nat)
  /-- A worker could not be bound to a processor. -/
  | unpinned (worker processor : Nat)
  | workerDone (worker : Nat) (hashes : UInt64)
  /-- A worker was found to have broken off. -/
  | workerPanicked (worker : Nat)
  /-- All workers have ended well. -/
  | joined (claims bound : UInt64)
  | reported (fingerprint : Fingerprint)
  /-- The standard input was hashed under both profiles. -/
  | profilesHashed (light full : Digest)
deriving DecidableEq, Repr

namespace Event

/-- The phase that an event opens. -/
def phase? : Event → Option Phase
  | .configured .. => some .configured
  | .failed _ => some .failed
  | .engineReady _ => some .engineReady
  | .running _ => some .running
  | .joined .. => some .joined
  | .reported _ => some .reported
  | _ => none

def level : Event → Level
  | .engine notice => notice.level
  | .failed _ | .workerPanicked _ => .error
  | .unpinned .. => .warning
  | .configured .. | .engineReady _ | .running _ | .reported _ | .profilesHashed .. => .info
  | .pinned .. | .workerDone .. | .joined .. => .debug

/-- What an event says, its phase left out. -/
def content : Event → String
  | .engine notice => notice.message
  | .configured threads nonces seed strategy =>
    toString threads.toNat ++ " thread(s), " ++ toString nonces.toNat ++ " nonces, seed " ++
      toString seed.toNat ++ ", " ++ strategy.text
  | .failed cause => cause.message
  | .engineReady elapsed => "initialized in " ++ elapsed.text 2
  | .running threads => "launching " ++ toString threads.toNat ++ " worker(s)"
  | .pinned worker processor => "worker " ++ toString worker ++ " pinned to CPU " ++ toString processor
  | .unpinned worker processor => "worker " ++ toString worker ++ ": " ++ unpinnedMessage processor
  | .workerDone worker hashes =>
    "worker " ++ toString worker ++ " done: " ++ toString hashes.toNat ++ " hashes"
  | .workerPanicked worker => (Failure.workerPanicked worker).message
  | .joined claims bound =>
    toString claims.toNat ++ " values issued for bound " ++ toString bound.toNat
  | .reported fingerprint => fingerprint.text
  | .profilesHashed light full => "profile parity: light " ++ light.text ++ " / full " ++ full.text

/-- The wording of an event. -/
def message (e : Event) : String :=
  match e.phase? with
  | some phase => "[" ++ phase.text ++ "] " ++ e.content
  | none => e.content

end Event

end NonceSweep
