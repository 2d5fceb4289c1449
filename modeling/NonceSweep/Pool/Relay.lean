import NonceSweep.Pool.Worker

/-!
# Relays

Workers that run one after the other on one ledger, each with a bound of its own. A worker takes over the
dispenser where the one before left it, which is one past the number that ended that worker's loop.
-/

namespace NonceSweep

/-- What one worker of a relay leaves behind. -/
structure Leg (b : Backend) where
  worker : Worker b
  ledger : Ledger

namespace Relay

/-- Runs a worker for each bound. Workers are numbered from `index` on and bound to no processor. -/
def run (b : Backend) (shared : b.Shared) (strategy : Strategy) (template : Template) :
    (bounds : List UInt64) → (index : Nat) → Ledger → List (Leg b)
  | [], _, _ => []
  | bound :: bounds, index, ledger =>
    let worker := Worker.new index strategy bound (b.hasher shared index) template (.claiming false)
    let (worker, ledger) := worker.run ledger
    ⟨worker, ledger⟩ :: run b shared strategy template bounds (index + 1) ledger

end Relay

end NonceSweep
