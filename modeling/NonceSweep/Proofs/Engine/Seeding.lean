import NonceSweep.Engine.Backend
import NonceSweep.Proofs.Engine.Stream
import Mathlib.Data.List.FinRange

/-!
# The last seed decides the whole store

A store is allocated once and then seeded any number of times, each time with its own number of threads
and its own order in which the items of the dataset are written. What machines read from it afterwards is
what a fresh light store reads that was seeded once, with the last seed.

`Store.Follows` is the invariant behind this: it ties the input key, the cache and every single item of the
dataset to one seed. A seeding establishes it on any store at all, so nothing of an earlier seed is left.

## Main results

- `Store.seed_follows`: after a seeding the whole store follows the seed
- `Store.item_of_follows`: precomputed and derived items are the same
- `item_eq_derive_of_last_seed`: both together, over any number of seedings
-/

namespace NonceSweep.Engine

variable (p : Primitives)

/-! ## Writing the dataset -/

/-- An item that is in the order has been derived, any other is what it was. -/
theorem getElem_writeItems (cache : Vector Block cacheBlocks) (order : List (Fin datasetItems))
    (dataset : Vector Block datasetItems) (i : Fin datasetItems) :
    (writeItems p cache order dataset).get i =
      if i ∈ order then derive p cache (UInt64.ofNat i) else dataset.get i := by
  -- an item may be in the order twice; all its writes write the same, so the last one decides
  induction order generalizing dataset with
  | nil => rfl
  | cons first rest ih =>
    have hstep : writeItems p cache (first :: rest) dataset =
        writeItems p cache rest (writeItem p cache dataset first) := rfl
    rw [hstep, ih]
    by_cases hlater : i ∈ rest
    · rw [if_pos hlater, if_pos (List.mem_cons_of_mem first hlater)]
    · rw [if_neg hlater]
      by_cases hnow : first = i
      · subst hnow
        rw [if_pos List.mem_cons_self]
        exact Vector.getElem_set_self first.isLt
      · have hother : (first : Nat) ≠ (i : Nat) := fun h => hnow (Fin.ext h)
        have hnotin : i ∉ first :: rest := by
          intro hmem
          rcases List.mem_cons.mp hmem with heq | htail
          · exact hnow heq.symm
          · exact hlater htail
        rw [if_neg hnotin]
        exact Vector.getElem_set_ne first.isLt i.isLt hother

/-- The build writes every item, in whatever order. -/
def Build.WritesAll (build : Build) : Prop := ∀ i, i ∈ build.order

theorem Build.writesAll_sequential : Build.sequential.WritesAll := List.mem_finRange

/-! ## Stores that follow a seed -/

/-- The cache that a seed leads to. -/
def seededCache (bytes : ByteArray) : Vector Block cacheBlocks :=
  Keystream.fill p (Vector.replicate cacheBlocks .zero) (p.deriveKey Store.cachePurpose bytes)

namespace Store

/-- All that a store holds follows from one seed. -/
structure Follows (bytes : ByteArray) (s : Store) : Prop where
  inputKey : s.inputKey = p.deriveKey inputPurpose bytes
  cache : s.cache = seededCache p bytes
  dataset : ∀ dataset, s.dataset = some dataset → ∀ i : Fin datasetItems,
    dataset.get i = derive p (seededCache p bytes) (UInt64.ofNat i)

/-- A seeding makes any store follow the seed, whatever it held before. -/
theorem seed_follows {build : Build} (hall : build.WritesAll) (s : Store) (bytes : ByteArray) :
    (s.seed p build bytes).Follows p bytes := by
  -- the old cache is filled over, and the items are derived from the new one
  have hcache : (s.seed p build bytes).cache = seededCache p bytes :=
    Keystream.fill_eq_fill p _ _ _
  refine ⟨rfl, hcache, ?_⟩
  intro dataset hdataset i
  obtain ⟨before, -, hwritten⟩ := Option.map_eq_some_iff.mp hdataset
  rw [← hwritten, getElem_writeItems, if_pos (hall i)]
  exact congrArg (fun cache => derive p cache (UInt64.ofNat i)) hcache

/-- A dataset stays where there is one, and none appears. -/
theorem isSome_dataset_seed (build : Build) (s : Store) (bytes : ByteArray) :
    (s.seed p build bytes).dataset.isSome = s.dataset.isSome :=
  Option.isSome_map

theorem isSome_dataset_allocate (o : Options) :
    (allocate o).dataset.isSome = true ↔ o.profile = .full := by
  cases hprofile : o.profile <;> simp [allocate, hprofile]

/-- A precomputed item is the derived one. -/
theorem item_of_follows {s : Store} {bytes : ByteArray} (h : s.Follows p bytes) (index : UInt64) :
    s.item p index = derive p (seededCache p bytes) (itemSlot index) := by
  cases hdataset : s.dataset with
  | none =>
    simp only [item, hdataset]
    rw [h.cache]
  | some dataset =>
    simp only [item, hdataset]
    show dataset.get (itemPlace index) = _
    rw [h.dataset dataset hdataset (itemPlace index)]
    exact congrArg (derive p (seededCache p bytes)) UInt64.ofNat_toNat

theorem seedOf_of_follows {s : Store} {bytes : ByteArray} (h : s.Follows p bytes)
    (input : ByteArray) :
    s.seedOf p input = p.keyedHash (p.deriveKey inputPurpose bytes) input := by
  rw [seedOf, h.inputKey]

end Store

/-! ## Any number of seedings -/

/-- One seeding: with which bytes and threads, and in which order the items happen to be written. -/
structure Seeding where
  bytes : ByteArray
  threads : Nat
  build : Build
  /-- No item is left out. -/
  writesAll : build.WritesAll

/-- What the bundled engine makes of a store in one seeding. -/
def Seeding.apply (s : Store) (x : Seeding) : Store :=
  ((Backend.bundled p x.build).seed s x.bytes x.threads).2

namespace Store

/-- The store after a number of seedings, one after the other. -/
def seedAll (s : Store) (seedings : List Seeding) : Store := seedings.foldl (Seeding.apply p) s

theorem seedAll_concat (s : Store) (earlier : List Seeding) (last : Seeding) :
    s.seedAll p (earlier ++ [last]) = (s.seedAll p earlier).seed p last.build last.bytes := by
  rw [seedAll, List.foldl_append]
  rfl

/-- The last of a number of seedings decides the whole store. -/
theorem seedAll_follows (s : Store) (earlier : List Seeding) (last : Seeding) :
    (s.seedAll p (earlier ++ [last])).Follows p last.bytes := by
  rw [seedAll_concat]
  exact seed_follows p last.writesAll _ last.bytes

theorem isSome_dataset_seedAll (s : Store) (seedings : List Seeding) :
    (s.seedAll p seedings).dataset.isSome = s.dataset.isSome := by
  induction seedings generalizing s with
  | nil => rfl
  | cons first rest ih =>
    have hrest := ih (s.seed p first.build first.bytes)
    rw [isSome_dataset_seed] at hrest
    exact hrest

end Store

/-- **The dataset refines derivation.** After any seedings of a store, each item is derived from the cache
    that the last seed alone gives a light store, and each input has the seed that it has there. So any
    two stores whose last seeds agree, light or full, read the same, whatever they were seeded with before
    and in whatever orders their items were written. The dataset is there exactly with the full profile. -/
theorem item_eq_derive_of_last_seed (options light : Options) (earlier : List Seeding)
    (last alone : Seeding) (hlight : light.profile = .light) (hsame : alone.bytes = last.bytes) :
    let store := (Store.allocate options).seedAll p (earlier ++ [last])
    let fresh := (Store.allocate light).seedAll p [alone]
    (∀ index, store.item p index = derive p fresh.cache (index % UInt64.ofNat datasetItems)) ∧
    (∀ input, store.seedOf p input = fresh.seedOf p input) ∧
    (∀ (options' : Options) (earlier' : List Seeding) (last' : Seeding), last'.bytes = last.bytes →
      let store' := (Store.allocate options').seedAll p (earlier' ++ [last'])
      (∀ index, store'.item p index = store.item p index) ∧
      (∀ input, store'.seedOf p input = store.seedOf p input)) ∧
    fresh.dataset = none ∧
    (store.dataset.isSome = true ↔ options.profile = .full) := by
  intro store fresh
  -- that both follow the last seed is all that is used about the two stores
  have hstore : store.Follows p last.bytes := Store.seedAll_follows p _ earlier last
  have hfresh : fresh.Follows p last.bytes := hsame ▸ Store.seedAll_follows p _ [] alone
  refine ⟨?_, ?_, ?_, ?_, ?_⟩
  · intro index
    rw [hfresh.cache]
    exact Store.item_of_follows p hstore index
  · intro input
    rw [Store.seedOf_of_follows p hstore, Store.seedOf_of_follows p hfresh]
  · intro options' earlier' last' hlast store'
    have hstore' : store'.Follows p last.bytes :=
      hlast ▸ Store.seedAll_follows p _ earlier' last'
    constructor
    · intro index
      rw [Store.item_of_follows p hstore', Store.item_of_follows p hstore]
    · intro input
      rw [Store.seedOf_of_follows p hstore', Store.seedOf_of_follows p hstore]
  · -- a seeding does not make a light store a full one
    have hnone : fresh.dataset.isSome = (Store.allocate light).dataset.isSome :=
      Store.isSome_dataset_seedAll p _ [alone]
    have hempty : ¬ (Store.allocate light).dataset.isSome = true := by
      rw [Store.isSome_dataset_allocate, hlight]
      exact fun h => by cases h
    rw [← hnone, Option.not_isSome_iff_eq_none] at hempty
    exact hempty
  · rw [Store.isSome_dataset_seedAll p (Store.allocate options) (earlier ++ [last])]
    exact Store.isSome_dataset_allocate options

/-- One thread derives the items. -/
def Seeding.forwards (bytes : ByteArray) (threads : Nat) : Seeding :=
  ⟨bytes, threads, .sequential, Build.writesAll_sequential⟩

/-- Threads happen to write the last item first. -/
def Seeding.backwards (bytes : ByteArray) (threads : Nat) : Seeding :=
  ⟨bytes, threads, .parallel (List.finRange datasetItems).reverse,
    fun i => List.mem_reverse.mpr (List.mem_finRange i)⟩

/-- A full store that has held another dataset, and a light one that was seeded once. -/
theorem item_after_backwards_seeding :
    ((Store.allocate ⟨.full, false, false, false, false, .avx2⟩).seedAll .standard
      ([.forwards (Bytes.ofWord32 1) 0] ++ [.backwards (Bytes.ofWord32 2) 8])).item .standard 70000 =
      derive .standard
        ((Store.allocate .standard).seedAll .standard [.forwards (Bytes.ofWord32 2) 1]).cache
        (70000 % UInt64.ofNat datasetItems) :=
  (item_eq_derive_of_last_seed .standard ⟨.full, false, false, false, false, .avx2⟩ .standard
    [.forwards (Bytes.ofWord32 1) 0] (.backwards (Bytes.ofWord32 2) 8)
    (.forwards (Bytes.ofWord32 2) 1) rfl rfl).1 70000

end NonceSweep.Engine
