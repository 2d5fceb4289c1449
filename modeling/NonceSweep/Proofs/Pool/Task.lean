import NonceSweep.Outcome.Accumulator
import NonceSweep.Pool.Ledger
import NonceSweep.Work.Candidate
import NonceSweep.Work.Plan
import NonceSweep.Engine.Backend

/-!
# What a sweep relies on

A sweep makes calls on hashers that it knows nothing about. A `Task` names what it may rely on: the hash of
every input, and which input a hasher holds back. `Task.Honoured` says that the calls of a backend give
these hashes whenever they give any, `Task.Unbroken` that they never break off, `Task.Prepared` that the
backend can be set up. The first two are kept apart, as much of a sweep goes well even if some calls break
off.

A backend is bound by very little. `hash` is asked of hashers that hold nothing back, `advance` and `drain`
of hashers that hold an input back; what they do otherwise is left open.
-/

namespace NonceSweep

/-- What the workers of a sweep work on, and what the calls of a backend come to. -/
structure Task (b : Backend) where
  template : Template
  /-- The hash of an input. -/
  hashOf : ByteArray → Digest
  /-- The commitment to a hash of an input. -/
  commit : ByteArray → Digest → Digest
  /-- A hasher holds back an input, or none. -/
  Holds : b.Hasher → Option ByteArray → Prop

namespace Task

variable {b : Backend}

/-! ## Inputs and their shares -/

/-- The input for a number: the template with the low half of the number in its field. -/
def input (task : Task b) (value : UInt64) : ByteArray :=
  (task.template.candidate value.toUInt32).bytes

theorem bytes_candidate (task : Task b) (value : UInt64) :
    (task.template.candidate value.toUInt32).bytes = task.input value := rfl

/-- What a number adds to the fingerprint, with or without a commitment. -/
def share (task : Task b) (commits : Bool) (value : UInt64) : Fingerprint :=
  let hash := task.hashOf (task.input value)
  .ofHash (if commits then task.commit (task.input value) hash else hash)

/-! ## Assumptions on a backend -/

/-- Calls that come to something come to what the task says. -/
structure Honoured (task : Task b) : Prop where
  hash : ∀ {m : b.Hasher}, task.Holds m none → ∀ {x digest}, (b.hash m x).1 = .done digest →
    digest = task.hashOf x ∧ task.Holds (b.hash m x).2 none
  prime : ∀ {m : b.Hasher}, task.Holds m none → ∀ {x}, (b.prime m x).1 = .done () →
    task.Holds (b.prime m x).2 (some x)
  advance : ∀ {m : b.Hasher} {y}, task.Holds m (some y) → ∀ {x digest},
    (b.advance m x).1 = .done digest →
      digest = task.hashOf y ∧ task.Holds (b.advance m x).2 (some x)
  drain : ∀ {m : b.Hasher} {y}, task.Holds m (some y) → ∀ {answer}, (b.drain m).1 = .done answer →
    answer = some (task.hashOf y) ∧ task.Holds (b.drain m).2 none
  commitment : ∀ {x digest answer}, b.commitment x digest = .done answer →
    answer = task.commit x digest

theorem Honoured.ofHash_eq_share {task : Task b} (h : task.Honoured) {commits : Bool} {value : UInt64}
    {answer : Digest}
    (hanswer : (if commits then b.commitment (task.input value) (task.hashOf (task.input value))
      else .done (task.hashOf (task.input value))) = .done answer) :
    Fingerprint.ofHash answer = task.share commits value := by
  unfold share
  cases commits with
  | true => exact congrArg Fingerprint.ofHash (h.commitment hanswer)
  | false =>
    cases hanswer
    rfl

/-- No call breaks off. -/
structure Unbroken (task : Task b) : Prop where
  hash : ∀ {m : b.Hasher}, task.Holds m none → ∀ x, (b.hash m x).1 ≠ .panicked
  prime : ∀ {m : b.Hasher}, task.Holds m none → ∀ x, (b.prime m x).1 ≠ .panicked
  advance : ∀ {m : b.Hasher} {y}, task.Holds m (some y) → ∀ x, (b.advance m x).1 ≠ .panicked
  drain : ∀ {m : b.Hasher} {y}, task.Holds m (some y) → (b.drain m).1 ≠ .panicked
  release : ∀ {m : b.Hasher}, task.Holds m none → b.release m ≠ .panicked
  commitment : ∀ x digest, b.commitment x digest ≠ .panicked

/-- No call of a worker breaks off. Commitments matter to a worker only if it `commits` to hashes. -/
structure Steady (task : Task b) (commits : Bool) : Prop where
  hash : ∀ {m : b.Hasher}, task.Holds m none → ∀ x, (b.hash m x).1 ≠ .panicked
  prime : ∀ {m : b.Hasher}, task.Holds m none → ∀ x, (b.prime m x).1 ≠ .panicked
  advance : ∀ {m : b.Hasher} {y}, task.Holds m (some y) → ∀ x, (b.advance m x).1 ≠ .panicked
  drain : ∀ {m : b.Hasher} {y}, task.Holds m (some y) → (b.drain m).1 ≠ .panicked
  release : ∀ {m : b.Hasher}, task.Holds m none → b.release m ≠ .panicked
  commitment : commits = true → ∀ x digest, b.commitment x digest ≠ .panicked

theorem Unbroken.steady {task : Task b} (h : task.Unbroken) (commits : Bool) : task.Steady commits :=
  ⟨h.hash, h.prime, h.advance, h.drain, h.release, fun _ => h.commitment⟩

/-- The hashers of a task answer every call. What a hasher holds back when a batch begins does not matter,
    nor does what it holds back when it hashes one input for itself. -/
structure Pipelined (task : Task b) : Prop where
  hash : ∀ {m : b.Hasher} {slot}, task.Holds m slot → ∀ x,
    (b.hash m x).1 = .done (task.hashOf x) ∧ ∃ slot', task.Holds (b.hash m x).2 slot'
  prime : ∀ {m : b.Hasher} {slot}, task.Holds m slot → ∀ x,
    (b.prime m x).1 = .done () ∧ task.Holds (b.prime m x).2 (some x)
  advance : ∀ {m : b.Hasher} {y}, task.Holds m (some y) → ∀ x,
    (b.advance m x).1 = .done (task.hashOf y) ∧ task.Holds (b.advance m x).2 (some x)
  drain : ∀ {m : b.Hasher} {y}, task.Holds m (some y) →
    (b.drain m).1 = .done (some (task.hashOf y))

/-- The engine can be set up as a plan asks, and its hashers hold nothing back at first. -/
structure Prepared (task : Task b) (plan : Plan) (shared : b.Shared) : Prop where
  setUp : ∃ raw, (b.allocate plan.options).2 = .ok raw ∧
    (b.seed raw plan.engineSeed plan.initThreads.toNat).2 = shared
  fresh : ∀ index, task.Holds (b.hasher shared index) none

end Task

/-! ## What actions tell -/

/-- The number that an action takes. -/
def Action.claimed? : Action → Option UInt64
  | .claim value => some value
  | _ => none

/-- The input that a call hands in. -/
def Call.input? : Call → Option ByteArray
  | .hash input | .prime input | .advance input => some input
  | .drain => none

/-- The input that an action hands in. -/
def Action.submitted? : Action → Option ByteArray
  | .call made => made.input?
  | _ => none

/-- The call that an action makes. -/
def Action.called? : Action → Option Call
  | .call made => some made
  | _ => none

/-- The input that an action finishes, and the hash that it takes for the hash of this input. -/
def Action.finished? : Action → Option (ByteArray × Digest)
  | .finish input hash => some (input, hash)
  | _ => none

/-- What an action merges. -/
def Action.merged? : Action → Option Fingerprint
  | .merge update => some update
  | _ => none

/-- The numbers that were taken, in order. -/
def claims (actions : List Action) : List UInt64 := actions.filterMap Action.claimed?

/-- The inputs that were handed in, in order. -/
def submissions (actions : List Action) : List ByteArray := actions.filterMap Action.submitted?

/-- The calls that were made, in order. -/
def calls (actions : List Action) : List Call := actions.filterMap Action.called?

/-- The inputs that were finished, each with its hash, in order. -/
def finishes (actions : List Action) : List (ByteArray × Digest) :=
  actions.filterMap Action.finished?

/-- What was merged, in order. -/
def merges (actions : List Action) : List Fingerprint := actions.filterMap Action.merged?

/-! ## What a hasher holds back -/

/-- The input that is held back after a call, if `slot` was before. -/
def Call.held (slot : Option ByteArray) : Call → Option ByteArray
  | .hash _ => slot
  | .prime input | .advance input => some input
  | .drain => none

/-- The input that is held back after these calls, of a hasher that held nothing back before. -/
def held (made : List Call) : Option ByteArray := made.foldl Call.held none

end NonceSweep
