import NonceSweep.Pool.Worker

/-!
# The pool of workers

All workers of a sweep and the ledger they share. One step of the pool is one step of one of its workers,
so a run of the pool is any interleaving of theirs. `Pool.Steps` says which interleavings there are;
`Pool.inTurn` is the one in which each worker runs to its end before the next begins.
-/

namespace NonceSweep

/-- The workers of a sweep, in the order in which they were made. -/
structure Pool (b : Backend) where
  workers : List (Worker b)
  ledger : Ledger

namespace Pool

variable {b : Backend}

/-! ## Steps -/

/-- A step of worker `i`, if there is such a worker and it has not stopped. -/
def step (p : Pool b) (i : Nat) : Option (Action × Pool b) :=
  match p.workers[i]? with
  | none => none
  | some w =>
    match w.step p.ledger.dispenser.next with
    | none => none
    | some (a, w') => some (a, ⟨p.workers.set i w', p.ledger.record a⟩)

/-- One pool leads to another by some steps of its workers. Each is listed with its worker. -/
inductive Steps : Pool b → List (Nat × Action) → Pool b → Prop where
  | refl (p : Pool b) : Steps p [] p
  | head {p q r : Pool b} {i : Nat} {a : Action} {rest : List (Nat × Action)} :
    p.step i = some (a, q) → Steps q rest r → Steps p ((i, a) :: rest) r

/-- Whether no worker can make a step any more. -/
def Settled (p : Pool b) : Prop :=
  ∀ w ∈ p.workers, w.point = .ended ∨ w.point = .failed

/-! ## Schedules -/

/-- What becomes of a pool when it is left to run. -/
abbrev Schedule (b : Backend) := Pool b → Pool b

/-- A schedule that interleaves the steps of the workers in some way until none is left. -/
def Schedule.IsComplete (schedule : Schedule b) : Prop :=
  ∀ p, (schedule p).Settled ∧ ∃ actions, Steps p actions (schedule p)

/-- Lets workers run to their ends, one after the other. -/
def runAll : List (Worker b) → Ledger → List (Worker b) × Ledger
  | [], ledger => ([], ledger)
  | w :: ws, ledger =>
    let (w, ledger) := w.run ledger
    let (ws, ledger) := runAll ws ledger
    (w :: ws, ledger)

/-- The schedule in which each worker runs to its end before the next begins. -/
def inTurn : Schedule b := fun p =>
  let (workers, ledger) := runAll p.workers p.ledger
  ⟨workers, ledger⟩

/-! ## Outcome -/

/-- The numbers of the workers that broke off, in ascending order. -/
def casualties (p : Pool b) : List Nat :=
  (p.workers.filter (·.point = .failed)).map (·.index)

def counts (p : Pool b) : List UInt64 := p.workers.map (·.hashes)

def total (p : Pool b) : UInt64 := p.counts.foldl (· + ·) 0

end Pool

end NonceSweep
