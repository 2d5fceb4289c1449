import NonceSweep.Engine.Machine

/-!
# Hash engines as a sweep sees them

A sweep sets up the shared part of an engine once and gives each worker a hasher of its own. It looks at
neither; it only makes the calls below. Any call on a hasher, and the giving up of one, may break off.

`Backend.bundled` is the engine of this library.
-/

namespace NonceSweep

/-! ## Calls that may break off -/

/-- What comes of a call: a value, or nothing because the call broke off. -/
inductive Attempt (α : Type) where
  | done (value : α)
  | panicked
deriving DecidableEq, Repr

namespace Attempt

def bind {α β : Type} (a : Attempt α) (f : α → Attempt β) : Attempt β :=
  match a with
  | .done value => f value
  | .panicked => .panicked

instance : Monad Attempt where
  pure := .done
  bind := bind

end Attempt

/-! ## The interface -/

/-- What a sweep needs of a hash engine. -/
structure Backend where
  /-- The part that all hashers share. -/
  Shared : Type
  /-- The part that one worker has for itself. -/
  Hasher : Type
  /-- Sets up the shared part, not yet seeded. -/
  allocate : Engine.Options → List Engine.Notice × Except Engine.AllocationFailure Shared
  /-- Seeds the shared part with the help of some threads. -/
  seed : Shared → (bytes : ByteArray) → (threads : Nat) → List Engine.Notice × Shared
  /-- The hasher that is made as number `index`. -/
  hasher : Shared → (index : Nat) → Hasher
  hash : Hasher → ByteArray → Attempt Digest × Hasher
  /-- Hands in the first input of a batch. -/
  prime : Hasher → ByteArray → Attempt Unit × Hasher
  /-- Hands in the next input and returns the hash of the one before. -/
  advance : Hasher → ByteArray → Attempt Digest × Hasher
  /-- Returns the hash of the input handed in last, if its hash has not been returned yet. -/
  drain : Hasher → Attempt (Option Digest) × Hasher
  release : Hasher → Attempt Unit
  commitment : ByteArray → Digest → Attempt Digest

/-! ## The bundled engine -/

/-- The engine on any primitives, in either build. Its memory can always be had and its calls never
break off. -/
def Backend.bundled (p : Engine.Primitives) (build : Engine.Build) : Backend where
  Shared := Engine.Store
  Hasher := Engine.Machine
  allocate o := (Engine.Store.allocationNotices o, .ok (.allocate o))
  seed store bytes threads := (store.seedingNotices build threads, store.seed p build bytes)
  hasher store _ := .new store
  hash m input :=
    let (digest, m) := m.hash p input
    (.done digest, m)
  prime m input := (.done (), m.prime p input)
  advance m input :=
    let (digest, m) := m.advance p input
    (.done digest, m)
  drain m :=
    let (digest, m) := m.drain p
    (.done digest, m)
  release _ := .done ()
  commitment input digest := .done (Engine.commitment p input digest)

end NonceSweep
