import NonceSweep.Proofs.Engine.OneSlot
import NonceSweep.Proofs.Pool.Task

/-!
# What the bundled engine offers a sweep

The machines of the bundled engine are slots, so they do what a sweep relies on. The hash of an input is
that by a machine on the seeded store that has done nothing else.

## Main results

- `Backend.bundledTask`: the task of a sweep with the bundled engine
- `Backend.bundled_honoured`, `Backend.bundled_unbroken`, `Backend.bundled_pipelined`: the engine is up to it
-/

namespace NonceSweep.Backend

variable (p : Engine.Primitives) (build : Engine.Build) (store : Engine.Store) (template : Template)

/-- The task of a sweep with machines on a store. -/
def bundledTask : Task (bundled p build) where
  template := template
  hashOf := Engine.freshHash p store
  commit := Engine.commitment p
  Holds m slot := Engine.Machine.Shows p store m slot

/-! ## Calls -/

section Calls

variable {p build} (m : (bundled p build).Hasher) (x : ByteArray)

theorem bundled_hash : (bundled p build).hash m x =
    (.done (Engine.Machine.hash p m x).1, (Engine.Machine.hash p m x).2) := by
  simp only [bundled]

theorem bundled_advance : (bundled p build).advance m x =
    (.done (Engine.Machine.advance p m x).1, (Engine.Machine.advance p m x).2) := by
  simp only [bundled]

theorem bundled_drain : (bundled p build).drain m =
    (.done (Engine.Machine.drain p m).1, (Engine.Machine.drain p m).2) := by
  simp only [bundled]

end Calls

/-! ## The contract -/

theorem bundled_honoured : (bundledTask p build store template).Honoured where
  -- `Holds` is `Shows` by definition: it is named in each call, so that no call has to be unfolded
  hash {m} hholds {x digest} hdone := by
    have hshows : Engine.Machine.Shows p store m none := hholds
    rw [bundled_hash] at hdone ⊢
    rw [← Attempt.done.inj hdone]
    dsimp only [bundledTask]
    exact hshows.hash x
  prime {m} hholds {x} _ := by
    have hshows : Engine.Machine.Shows p store m none := hholds
    exact hshows.prime x
  advance {m y} hholds {x digest} hdone := by
    have hshows : Engine.Machine.Shows p store m (some y) := hholds
    rw [bundled_advance] at hdone ⊢
    rw [← Attempt.done.inj hdone]
    dsimp only [bundledTask]
    exact hshows.advance x
  drain {m y} hholds {answer} hdone := by
    have hshows : Engine.Machine.Shows p store m (some y) := hholds
    rw [bundled_drain] at hdone ⊢
    rw [← Attempt.done.inj hdone]
    dsimp only [bundledTask]
    exact hshows.drain
  commitment {x digest answer} hdone := (Attempt.done.inj hdone).symm

theorem bundled_unbroken : (bundledTask p build store template).Unbroken where
  hash {m} _ x := by
    rw [bundled_hash]
    exact nofun
  prime _ _ := nofun
  advance {m y} _ x := by
    rw [bundled_advance]
    exact nofun
  drain {m y} _ := by
    rw [bundled_drain]
    exact nofun
  release _ := nofun
  commitment _ _ := nofun

/-- The hashers answer every call, whatever they hold back. -/
theorem bundled_pipelined : (bundledTask p build store template).Pipelined where
  hash {m slot} hholds x := by
    have hshows : Engine.Machine.Shows p store m slot := hholds
    obtain ⟨hvalue, hnext⟩ := hshows.hash x
    rw [bundled_hash, hvalue]
    dsimp only [bundledTask]
    exact ⟨rfl, slot, hnext⟩
  prime {m slot} hholds x := by
    have hshows : Engine.Machine.Shows p store m slot := hholds
    exact ⟨rfl, hshows.prime x⟩
  advance {m y} hholds x := by
    have hshows : Engine.Machine.Shows p store m (some y) := hholds
    obtain ⟨hvalue, hnext⟩ := hshows.advance x
    rw [bundled_advance, hvalue]
    dsimp only [bundledTask]
    exact ⟨rfl, hnext⟩
  drain {m y} hholds := by
    have hshows : Engine.Machine.Shows p store m (some y) := hholds
    rw [bundled_drain, hshows.drain.1]
    dsimp only [bundledTask, Option.map_some]

theorem bundled_prepared (plan : Plan) :
    let store := (Engine.Store.allocate plan.options).seed p build plan.engineSeed
    (bundledTask p build store template).Prepared plan store where
  setUp := ⟨Engine.Store.allocate plan.options, rfl, rfl⟩
  fresh _ := Engine.Machine.Shows.new _

end NonceSweep.Backend
