import NonceSweep.Engine.Backend
import NonceSweep.Journal.Event

/-!
# Sessions

A session is a computation that keeps a journal: what it logs, and which calls it makes to set an engine up.
It ends with a value or with a failure, and nothing is journaled after a failure.

## Contents

- `SetupCall`, `Entry`: what a journal holds
- `Session`: the computation, and its basic steps
- `Session.allocate`, `Session.seed`, `Session.hasher`: the calls on an engine
-/

namespace NonceSweep

/-! ## Journals -/

/-- A call that sets an engine up. -/
inductive SetupCall where
  | allocate (options : Engine.Options)
  | seed (bytes : ByteArray) (threads : Nat)
  /-- The making of a hasher. -/
  | hasher (index : Nat)
deriving DecidableEq

/-- An entry of a journal. -/
inductive Entry where
  | event (event : Event)
  | call (call : SetupCall)
deriving DecidableEq

/-- A computation that keeps a journal. -/
structure Session (α : Type) where
  journal : List Entry
  result : Except Failure α

namespace Session

/-- Goes on after a session that has not failed. -/
def bind {α β : Type} (s : Session α) (f : α → Session β) : Session β :=
  match s.result with
  | .error failure => ⟨s.journal, .error failure⟩
  | .ok value =>
    let next := f value
    ⟨s.journal ++ next.journal, next.result⟩

instance : Monad Session where
  pure value := ⟨[], .ok value⟩
  bind := bind

def fail {α : Type} (failure : Failure) : Session α := ⟨[], .error failure⟩

def log (events : List Event) : Session Unit := ⟨events.map .event, .ok ()⟩

def note (call : SetupCall) : Session Unit := ⟨[.call call], .ok ()⟩

/-- The events of the journal. -/
def events {α : Type} (s : Session α) : List Event :=
  s.journal.filterMap fun
    | .event event => some event
    | .call _ => none

/-- The calls of the journal. -/
def calls {α : Type} (s : Session α) : List SetupCall :=
  s.journal.filterMap fun
    | .event _ => none
    | .call call => some call

/-! ## The engine -/

/-- Sets up the shared part of an engine. -/
def allocate (b : Backend) (options : Engine.Options) : Session (Except Engine.AllocationFailure b.Shared) := do
  let (notices, result) := b.allocate options
  note (.allocate options)
  log (notices.map .engine)
  return result

/-- Seeds the shared part of an engine. -/
def seed (b : Backend) (plan : Plan) (shared : b.Shared) : Session b.Shared := do
  let (notices, shared) := b.seed shared plan.engineSeed plan.initThreads.toNat
  note (.seed plan.engineSeed plan.initThreads.toNat)
  log (notices.map .engine)
  return shared

def hasher (b : Backend) (shared : b.Shared) (index : Nat) : Session b.Hasher := do
  note (.hasher index)
  return b.hasher shared index

end Session

end NonceSweep
