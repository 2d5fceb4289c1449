import NonceSweep.Journal.Event
import NonceSweep.Outcome.Accumulator
import NonceSweep.Work.Dispenser

/-!
# Actions and the ledger

Whatever workers share is in one ledger: the dispenser that they claim from, the accumulator that they merge
into, and their log. A step of a worker does at most one thing that others can see, its `Action`, and
`Ledger.record` says what becomes of the ledger.
-/

namespace NonceSweep

/-! ## Actions -/

inductive Call where
  | hash (input : ByteArray)
  | prime (input : ByteArray)
  | advance (input : ByteArray)
  | drain
deriving DecidableEq

/-- What a worker does in one step. -/
inductive Action where
  | log (event : Event)
  | claim (value : UInt64)
  | call (call : Call)
  /-- Turns the hash of an input into what is merged. -/
  | finish (input : ByteArray) (hash : Digest)
  | merge (update : Fingerprint)
  | release
deriving DecidableEq

/-- What the workers of a sweep share. -/
structure Ledger where
  dispenser : Dispenser
  accumulator : Accumulator
  /-- What the workers have logged, in the order in which they did. -/
  log : List Event
deriving DecidableEq

namespace Ledger

/-- The ledger of workers that start from a given number. -/
def startingAt (first : UInt64) : Ledger := ⟨.startingAt first, .empty, []⟩

/-- The ledger after an action. -/
def record (l : Ledger) : Action → Ledger
  | .log event => { l with log := l.log ++ [event] }
  | .claim _ => { l with dispenser := l.dispenser.claim.2 }
  | .merge update => { l with accumulator := l.accumulator.merge update }
  | .call _ | .finish .. | .release => l

end Ledger

end NonceSweep
