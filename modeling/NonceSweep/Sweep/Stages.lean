import NonceSweep.Journal.Session
import NonceSweep.Outcome.Report
import NonceSweep.Pool.Interleaving
import NonceSweep.Work.Placement

/-!
# The stages of a sweep

A whole sweep is a session of four stages: `configure` checks the plan, `prepare` sets the engine up,
`launch` makes the workers, and, once the pool has settled, `conclude` takes stock. Between the last two the
workers run, under a schedule that is not part of any stage.

The workers of a sweep are entered in a table of handles, which is laid out before the first of them is made.
If the table cannot be had, the sweep collapses.
-/

namespace NonceSweep

/-! ## The host -/

/-- What a sweep takes from the machine it runs on. -/
structure Host where
  processors : Nat
  features : Engine.Features
  /-- The greatest number of bytes that are given to a table. -/
  memory : Nat
  /-- Whether a worker can be bound to a processor. -/
  allows : Nat → Bool
  /-- How long the engine took to be seeded. -/
  setupTime : Duration
  /-- How long the workers took. -/
  sweepTime : Duration

/-- Why there is no table for the handles of workers. Nothing goes on after that. -/
inductive Collapse where
  /-- No table can be as large. -/
  | tooLarge
  /-- The host does not give as much memory. -/
  | outOfMemory (bytes : Nat)
deriving DecidableEq, Repr

/-! ## The stages of a sweep -/

namespace Sweep

def configure (plan : Plan) : Session Unit :=
  match plan.check with
  | .error fault => Session.fail (.plan fault)
  | .ok () => Session.log [.configured plan.threads plan.nonces plan.seed plan.strategy]

def prepare (b : Backend) (host : Host) (plan : Plan) : Session b.Shared := do
  match ← Session.allocate b plan.options with
  | .error cause =>
    Session.log [.failed cause]
    Session.fail (.allocation cause)
  | .ok shared =>
    let shared ← Session.seed b plan shared
    Session.log [.engineReady host.setupTime]
    return shared

/-- Where a worker begins: at once, or after it has been bound to a processor. -/
def firstPoint (host : Host) (plan : Plan) (index : Nat) : Point :=
  match processorOf plan.affinity index with
  | none => .claiming false
  | some processor => .binding processor (host.allows processor)

/-- Makes the workers from number `index` on. -/
def makeWorkers (b : Backend) (host : Host) (plan : Plan) (template : Template) (shared : b.Shared) :
    (count index : Nat) → Session (List (Worker b))
  | 0, _ => pure []
  | count + 1, index => do
    let hasher ← Session.hasher b shared index
    let rest ← makeWorkers b host plan template shared count (index + 1)
    return .new index plan.strategy plan.nonces hasher template (firstPoint host plan index) :: rest

/-- Bytes of a worker's handle. -/
def handleSize : Nat := 24

/-- The greatest number of bytes of any table. -/
def greatestTable : Nat := 0x7fffffffffffffff

/-- Whether a host has a table for the handles of so many workers. -/
def table (host : Host) (threads : UInt64) : Except Collapse Unit :=
  let bytes := threads.toNat * handleSize
  if greatestTable < bytes then .error .tooLarge
  else if host.memory < bytes then .error (.outOfMemory bytes)
  else .ok ()

/-- Makes all workers and opens a ledger, if the table of handles can be had. -/
def launch (b : Backend) (host : Host) (plan : Plan) (template : Template) (shared : b.Shared) :
    Session (Except Collapse (Pool b)) := do
  Session.log [.running plan.threads]
  match table host plan.threads with
  | .error collapse => return .error collapse
  | .ok () =>
    let workers ← makeWorkers b host plan template shared plan.threads.toNat 0
    return .ok ⟨workers, .startingAt 0⟩

/-- Takes stock of a pool that has settled. If workers have broken off, each is logged and the first is
the failure. -/
def conclude {b : Backend} (host : Host) (plan : Plan) (pool : Pool b) : Session Report := do
  Session.log pool.ledger.log
  match pool.casualties with
  | first :: others =>
    Session.log ((first :: others).map .workerPanicked)
    Session.fail (.workerPanicked first)
  | [] =>
    let claims := pool.ledger.dispenser.next
    let fingerprint := pool.ledger.accumulator.value
    Session.log [.joined claims plan.nonces, .reported fingerprint]
    return {
      fingerprint
      strategy := plan.strategy
      threads := plan.threads
      nonces := plan.nonces
      hashes := pool.total
      perWorker := pool.counts
      claims
      elapsed := host.sweepTime }

/-- The first three stages: all that happens before workers run. -/
def start (b : Backend) (host : Host) (plan : Plan) (template : Template) :
    Session (Except Collapse (Pool b)) := do
  configure plan
  let shared ← prepare b host plan
  launch b host plan template shared

/-- A whole sweep under a schedule. -/
def run (b : Backend) (host : Host) (schedule : Pool.Schedule b) (plan : Plan) (template : Template) :
    Session (Except Collapse Report) := do
  match ← start b host plan template with
  | .error collapse => return .error collapse
  | .ok pool => return .ok (← conclude host plan (schedule pool))

end Sweep

end NonceSweep
