import NonceSweep.Engine.Backend
import NonceSweep.Outcome.Fingerprint

/-!
# Points in the life of a worker

A worker is bound to a processor, goes through a loop of claiming, submitting, finishing and merging, and
ends. Where it stands is its `Point`.

A worker that hashes one by one comes back to `claiming` with nothing in its hasher. One that hashes in a
batch comes back with one input in it, whose hash it takes at the next turn of the loop or when it drains.

`Point.work` bounds the steps that are left, from which it follows that a worker comes to an end.
-/

namespace NonceSweep

/-- Where a worker stands, that is, what its next step will be. -/
inductive Point where
  /-- To be bound to a processor, which the host allows or does not. -/
  | binding (processor : Nat) (allowed : Bool)
  /-- To claim a number. `primed`: an input is in the hasher. -/
  | claiming (primed : Bool)
  /-- To hand in the candidate of a number. -/
  | submitting (value : UInt64) (primed : Bool)
  /-- To take the last hash of a batch. -/
  | draining
  /-- To finish the hash of `current`. -/
  | finishing (hash : Digest) (last : Bool)
  | merging (update : Fingerprint) (last : Bool)
  /-- To log that the loop is over. -/
  | leaving
  | releasing
  | ended
  /-- Broken off by a call. -/
  | failed
deriving DecidableEq, Repr

/-- Where a call leads. -/
def Point.after {α : Type} (a : Attempt α) (next : α → Point) : Point :=
  match a with
  | .done value => next value
  | .panicked => .failed

/-- Steps that a worker at this point can still make, at most, if `left` more numbers below its bound can
be claimed. -/
def Point.work (point : Point) (left : Nat) : Nat :=
  match point with
  | .binding .. => 4 * left + 10
  | .submitting .. => 4 * left + 9
  | .finishing _ false => 4 * left + 8
  | .merging _ false => 4 * left + 7
  | .claiming _ => 4 * left + 6
  | .draining => 5
  | .finishing _ true => 4
  | .merging _ true => 3
  | .leaving => 2
  | .releasing => 1
  | .ended | .failed => 0

theorem Point.work_after_lt {α : Type} {a : Attempt α} {next : α → Point} {left n : Nat} (pos : 0 < n)
    (h : ∀ value, (next value).work left < n) : (Point.after a next).work left < n := by
  cases a with
  | done value => exact h value
  | panicked => exact pos

end NonceSweep
