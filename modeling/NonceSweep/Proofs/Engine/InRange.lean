import NonceSweep.Proofs.Engine.Flattening
import NonceSweep.Proofs.Engine.Seeding

/-!
# No access is out of range

Every offset in the engine comes out of a hash, so no test could try them all. But a mask or a remainder
keeps each of them below the number of blocks of the memory that it is for, and no operation changes the size
of a memory, not even the seeding of a dataset, which is taken out of the store for that time. So the engine
on flat memory, where every access and every sum is checked, never breaks off.

The statement is about all that can be done with an engine: a store is allocated and then seeded, machines
are made on it and asked, and items are read, any number of times and in any order.

## Contents

- `Operation`, `Rig.perform`, `Rig.run`: operations, on the engine as it is
- `Flat.perform`, `Flat.run`: the same on flat memory
- `Flat.run_eq`: both give the same replies
- `no_access_is_out_of_range`: the main statement
-/

namespace NonceSweep.Engine

/-! ## Operations -/

/-- A store, and the machines that were made on it. -/
structure Rig (Store Machine : Type) where
  store : Store
  machines : List Machine

/-- What can be done with an engine. -/
inductive Operation where
  /-- The store is seeded. How many threads there are is logged; the build says in which order they write. -/
  | seed (build : Build) (bytes : ByteArray) (threads : Nat)
  /-- A machine is made, with the number of machines before it as its own. -/
  | create
  | ask (machine : Nat) (request : Request)
  | item (index : UInt64)

/-- What comes back. -/
inductive Reply where
  | nothing
  /-- There is no machine of this number. -/
  | absent
  | answer (answer : Answer)
  | item (item : Block)
deriving DecidableEq

variable (p : Primitives)

namespace Rig

def perform (r : Rig Store Machine) : Operation → Reply × Rig Store Machine
  | .seed build bytes threads =>
    (.nothing, { r with store := ((Backend.bundled p build).seed r.store bytes threads).2 })
  | .create => (.nothing, { r with machines := r.machines ++ [.new r.store] })
  | .ask machine request =>
    match r.machines[machine]? with
    | none => (.absent, r)
    | some m =>
      let (answer, m) := m.answer p request
      (.answer answer, { r with machines := r.machines.set machine m })
  | .item index => (.item (r.store.item p index), r)

/-- All replies to a sequence of operations, and what is left after it. -/
def run : List Operation → Rig Store Machine → List Reply × Rig Store Machine
  | [], r => ([], r)
  | operation :: rest, r =>
    let (reply, r) := r.perform p operation
    let (replies, r) := run rest r
    (reply :: replies, r)

end Rig

namespace Flat

def perform (r : Rig Store Machine) : Operation → Attempt (Reply × Rig Store Machine)
  | .seed build bytes _ => do
    let store ← r.store.seed p build bytes
    return (.nothing, { r with store })
  | .create => return (.nothing, { r with machines := r.machines ++ [.new r.store] })
  | .ask machine request =>
    match r.machines[machine]? with
    | none => return (.absent, r)
    | some m => do
      let (answer, m) ← m.answer p request
      return (.answer answer, { r with machines := r.machines.set machine m })
  | .item index => do
    let item ← r.store.item p index
    return (.item item, r)

def run : List Operation → Rig Store Machine → Attempt (List Reply × Rig Store Machine)
  | [], r => return ([], r)
  | operation :: rest, r => do
    let (reply, r) ← perform p r operation
    let (replies, r) ← run rest r
    return (reply :: replies, r)

/-- A rig with all memories laid out as bytes. -/
def rigOfVectors (r : Rig Engine.Store Engine.Machine) : Rig Store Machine :=
  { store := .ofVectors r.store
    machines := r.machines.map .ofVectors }

theorem perform_eq (r : Rig Engine.Store Engine.Machine) (operation : Operation) :
    perform p (rigOfVectors r) operation =
      .done ((r.perform p operation).1, rigOfVectors (r.perform p operation).2) := by
  obtain ⟨store, machines⟩ := r
  cases operation with
  | seed build bytes threads =>
    simp [perform, rigOfVectors, Rig.perform, Backend.bundled]
  | create =>
    simp [perform, rigOfVectors, Rig.perform, Machine.new_eq]
  | ask machine request =>
    simp only [perform, rigOfVectors, List.getElem?_map, Rig.perform]
    cases machines[machine]? with
    | none => rfl
    | some m =>
      simp [List.map_set]
  | item index =>
    simp [perform, rigOfVectors, Rig.perform]

/-- On flat memory every operation succeeds, with the reply that the engine gives. -/
theorem run_eq (operations : List Operation) (r : Rig Engine.Store Engine.Machine) :
    run p operations (rigOfVectors r) =
      .done ((r.run p operations).1, rigOfVectors (r.run p operations).2) := by
  induction operations generalizing r with
  | nil => rfl
  | cons operation rest ih => simp [run, perform_eq, ih, Rig.run]

/-- The cache has its size, and so has the dataset, which is there with the full profile. -/
structure Store.HasSizes (profile : Profile) (s : Store) : Prop where
  cache : s.cache.size = cacheSize
  dataset : s.dataset.map ByteArray.size =
    match profile with
    | .light => none
    | .full => some datasetSize

end Flat

/-! ## What no operation changes -/

/-- The dataset is there with the full profile and not otherwise. -/
def Store.Fits (profile : Profile) (s : Store) : Prop := s.dataset.isSome = true ↔ profile = .full

theorem Store.Fits.hasSizes {profile : Profile} {s : Store} (h : s.Fits profile) :
    (Flat.Store.ofVectors s).HasSizes profile := by
  refine ⟨size_memoryBytes s.cache, ?_⟩
  obtain ⟨options, inputKey, cache, dataset⟩ := s
  cases dataset with
  | none =>
    cases profile with
    | light => rfl
    | full => exact absurd (h.mpr rfl) Bool.false_ne_true
  | some dataset =>
    cases profile with
    | light => exact Profile.noConfusion (h.mp rfl)
    | full => exact congrArg some (size_memoryBytes dataset)

theorem Machine.store_answer (m : Machine) (request : Request) : (m.answer p request).2.store = m.store := by
  cases request with
  | hash input =>
    simp only [answer, hash]
    exact (work_spec p m (m.store.seedOf p input)).2.1
  | prime input => rfl
  | advance input =>
    simp only [answer, advance]
    exact (work_spec p { m with held := some (m.store.seedOf p input) } _).2.1
  | drain =>
    cases hheld : m.held with
    | none => simp only [answer, drain, hheld]
    | some seed =>
      simp only [answer, drain, hheld]
      exact (work_spec p { m with held := none } seed).2.1
  | isHolding => rfl

namespace Rig

/-- The store of a rig and that of each of its machines have a dataset if the profile is the full one. -/
structure Fits (profile : Profile) (r : Rig Store Machine) : Prop where
  store : r.store.Fits profile
  machines : ∀ m ∈ r.machines, m.store.Fits profile

variable {p} {profile : Profile} {r : Rig Store Machine}

theorem Fits.perform (h : r.Fits profile) (operation : Operation) : (r.perform p operation).2.Fits profile := by
  cases operation with
  | seed build bytes threads =>
    refine ⟨?_, h.machines⟩
    show (r.store.seed p build bytes).dataset.isSome = true ↔ _
    rw [Store.isSome_dataset_seed]
    exact h.store
  | create =>
    refine ⟨h.store, ?_⟩
    intro m hm
    rcases List.mem_append.mp hm with hold | hnew
    · exact h.machines m hold
    · rw [List.mem_singleton.mp hnew]
      exact h.store
  | ask machine request =>
    simp only [Rig.perform]
    cases hmachine : r.machines[machine]? with
    | none => exact h
    | some asked =>
      refine ⟨h.store, ?_⟩
      intro m hm
      rcases List.mem_or_eq_of_mem_set hm with hother | rfl
      · exact h.machines m hother
      · rw [Machine.store_answer]
        exact h.machines asked (List.mem_of_getElem? hmachine)
  | item index => exact h

theorem Fits.run (h : r.Fits profile) (operations : List Operation) : (r.run p operations).2.Fits profile := by
  induction operations generalizing r with
  | nil => exact h
  | cons operation rest ih => exact ih (h.perform operation)

end Rig

/-! ## The engine stays in range -/

/-- An address is that of a whole block of the scratchpad. -/
theorem address_inside (state : Digest) (round : UInt64) :
    (address state round).toNat % Block.size = 0 ∧
      (address state round).toNat ≤ scratchpadSize - Block.size := by
  have hslot := slot_lt state round
  rw [toNat_address]
  simp only [scratchpadSize, scratchpadBlocks, Block.size] at hslot ⊢
  omega

/-- **No access is out of range.** Whatever has been done with an engine after its store was allocated, on
    flat memory it was done without breaking off: each part that was read or written lies inside its string,
    and no sum or product of offsets wraps. The replies are those of the engine, and the cache, the dataset
    and every scratchpad have the sizes that they were allocated with. The same holds of an item of any
    number, of the address for any state and round, and of the parts of the engine that work on any bytes. -/
theorem no_access_is_out_of_range :
    (∀ (o : Options) (operations : List Operation),
      let after := Rig.run p operations ⟨.allocate o, []⟩
      let flat := Flat.rigOfVectors after.2
      Flat.run p operations ⟨.allocate o, []⟩ = .done (after.1, flat) ∧
      flat.store.HasSizes o.profile ∧
      (∀ m ∈ flat.machines, m.store.HasSizes o.profile ∧ m.scratchpad.size = scratchpadSize) ∧
      ∀ index, flat.store.item p index = .done (after.2.store.item p index) ∧
        Flat.derive p flat.store.cache index = .done (derive p after.2.store.cache index)) ∧
    (∀ state round,
      Flat.address state round = .done (address state round).toNat ∧
      (address state round).toNat % Block.size = 0 ∧
      (address state round).toNat ≤ scratchpadSize - Block.size) ∧
    (∀ buffer seed,
      Flat.fill p buffer seed = .done (Keystream.fillBytes p buffer seed) ∧
      (Keystream.fillBytes p buffer seed).size = buffer.size) ∧
    (∀ state block, Flat.cipherMix p state block = .done (cipherMix p state block)) := by
  refine ⟨?_, fun state round => ⟨Flat.address_eq state round, address_inside state round⟩,
    fun buffer seed => ⟨Flat.fill_eq p buffer seed, Keystream.size_fillBytes p buffer seed⟩,
    Flat.cipherMix_eq p⟩
  intro o operations after flat
  have hstart : Rig.Fits o.profile ⟨.allocate o, []⟩ :=
    ⟨Store.isSome_dataset_allocate o, fun m hm => absurd hm List.not_mem_nil⟩
  have hfits : after.2.Fits o.profile := hstart.run operations
  refine ⟨?_, hfits.store.hasSizes, ?_, fun index => ⟨Flat.Store.item_eq p _ index, Flat.derive_eq p _ index⟩⟩
  · rw [Flat.Store.allocate_eq]
    exact Flat.run_eq p operations ⟨.allocate o, []⟩
  · intro m hm
    obtain ⟨m', hm', rfl⟩ := List.mem_map.mp hm
    exact ⟨(hfits.machines m' hm').hasSizes, size_memoryBytes m'.scratchpad⟩

/-- An engine with the full profile, a machine that is made after a seeding, and the greatest index. -/
theorem full_engine_stays_in_range :
    let o := Options.standard.withProfile .full
    let operations : List Operation := [.seed .sequential ⟨#[1, 2, 3]⟩ 4, .create]
    let after := Rig.run .fixed operations ⟨.allocate o, []⟩
    let flat := Flat.rigOfVectors after.2
    let m := Flat.Machine.ofVectors (.new after.2.store)
    flat.store.dataset.map ByteArray.size = some datasetSize ∧
    m ∈ flat.machines ∧ m.scratchpad.size = scratchpadSize ∧
    ∃ item, flat.store.item .fixed 0xffffffffffffffff = .done item := by
  intro o operations after flat m
  obtain ⟨-, hsizes, hmachines, hitem⟩ := (no_access_is_out_of_range .fixed).1 o operations
  have hm : m ∈ flat.machines := List.mem_singleton.mpr rfl
  exact ⟨hsizes.dataset, hm, (hmachines m hm).2, _, (hitem _).1⟩

end NonceSweep.Engine
