import NonceSweep.Engine.Machine
import NonceSweep.Proofs.Engine.Memory
import NonceSweep.Proofs.Engine.Stream
import Mathlib.Order.Bounds.Defs

/-!
# What the rounds leave in the scratchpad

A round reads a whole block and writes back half of it, at an address that depends on the state. Addresses
come up again in no order that could be foreseen, so what a round reads has to be said in terms of the
rounds before it: the upper half of a block is what the scratchpad was filled with, and the lower half is
the state that the last round at its address ended with.

## Layers

- **One round**: `getElem_padBefore_succ`, what a round does to each block
- **A frame**: `getElem_padBefore_of_untouched`, blocks that a stretch of rounds does not use
- **All rounds**: `lower_padBefore_of_last`, `upper_padBefore`, and the items that are read from the store

## Main result

- `scratchpad_keeps_last_writes`: all of this about the bytes of the scratchpad
-/

namespace NonceSweep.Engine

variable (p : Primitives) (store : Store) (pad : Scratchpad) (seed : Digest)

/-! ## The course of the rounds -/

/-- The scratchpad that round `r` finds: it was filled from the seed, and the rounds below `r` are done. -/
def padBefore (r : Nat) : Scratchpad :=
  (performRounds p store (Keystream.fill p pad seed) seed r).1

/-- The state that round `r` starts with. Round `r` ends with the one that round `r + 1` starts with. -/
def stateBefore (r : Nat) : Digest :=
  (performRounds p store (Keystream.fill p pad seed) seed r).2

/-- The block of round `r`. -/
def placeIn (r : Nat) : Fin scratchpadBlocks := place (stateBefore p store pad seed r) r

/-- Where the bytes of that block begin. -/
def addressIn (r : Nat) : Nat := (address (stateBefore p store pad seed r) (UInt64.ofNat r)).toNat

/-- What round `r` reads from the scratchpad. -/
def blockRead (r : Nat) : Block := (padBefore p store pad seed r)[placeIn p store pad seed r]

/-! ## Addresses -/

theorem toNat_address (state : Digest) (round : UInt64) :
    (address state round).toNat = (slot state round).toNat * Block.size := by
  have hslot : (slot state round).toNat < 1024 := slot_lt state round
  have hsize : (UInt64.ofNat Block.size).toNat = 64 := rfl
  -- the blocks are so few that their addresses do not wrap
  rw [address, UInt64.toNat_mul, hsize, Nat.mod_eq_of_lt (by omega)]
  rfl

theorem addressIn_eq (r : Nat) :
    addressIn p store pad seed r = (placeIn p store pad seed r).val * Block.size :=
  toNat_address _ _

theorem addressIn_eq_iff (r i : Nat) :
    addressIn p store pad seed r = i * Block.size ↔ (placeIn p store pad seed r).val = i := by
  rw [addressIn_eq]
  exact Nat.mul_left_inj (by decide)

/-! ## One round -/

/-- A round replaces the lower half of its own block by the state that it ends with. -/
theorem getElem_padBefore_succ (r : Nat) {i : Nat} (hi : i < scratchpadBlocks) :
    (padBefore p store pad seed (r + 1))[i] =
      if (placeIn p store pad seed r).val = i then
        ⟨stateBefore p store pad seed (r + 1), (padBefore p store pad seed r)[i].upper⟩
      else (padBefore p store pad seed r)[i] := by
  have hround : padBefore p store pad seed (r + 1) =
      (padBefore p store pad seed r).set (placeIn p store pad seed r)
        ⟨stateBefore p store pad seed (r + 1), (blockRead p store pad seed r).upper⟩ := rfl
  rw [hround, Vector.getElem_set]
  by_cases hplace : (placeIn p store pad seed r).val = i
  · subst hplace
    rw [if_pos rfl, if_pos rfl]
    rfl
  · rw [if_neg hplace, if_neg hplace]

/-- The state that a round ends with is what its mixer makes of the block that it reads. -/
theorem stateBefore_succ (r : Nat) :
    stateBefore p store pad seed (r + 1) =
      mix p r (stateBefore p store pad seed r)
        (if r % datasetInterval = 0 then
          (blockRead p store pad seed r).xor (store.item p (stateBefore p store pad seed r).lane2)
        else blockRead p store pad seed r) := rfl

/-! ## Any number of rounds -/

/-- No round writes to the upper half of a block. -/
theorem upper_padBefore (k : Nat) {i : Nat} (hi : i < scratchpadBlocks) :
    (padBefore p store pad seed k)[i].upper = (Keystream.fill p pad seed)[i].upper := by
  induction k with
  | zero => rfl
  | succ k ih =>
    rw [getElem_padBefore_succ p store pad seed k hi]
    split <;> exact ih

/-- A block that is not used from round `m` on is still what round `m` found. -/
theorem getElem_padBefore_of_untouched {m k : Nat} (hmk : m ≤ k) {i : Nat} (hi : i < scratchpadBlocks)
    (huntouched : ∀ r, m ≤ r → r < k → (placeIn p store pad seed r).val ≠ i) :
    (padBefore p store pad seed k)[i] = (padBefore p store pad seed m)[i] := by
  induction hmk with
  | refl => rfl
  | @step k hmk ih =>
    rw [getElem_padBefore_succ p store pad seed k hi, if_neg (huntouched k hmk (by omega))]
    exact ih fun r hmr hrk => huntouched r hmr (by omega)

/-- After the last round at a block, its lower half is the state that this round ended with. -/
theorem lower_padBefore_of_last {k r : Nat} {i : Nat} (hi : i < scratchpadBlocks)
    (hlast : IsGreatest {r | r < k ∧ (placeIn p store pad seed r).val = i} r) :
    (padBefore p store pad seed k)[i].lower = stateBefore p store pad seed (r + 1) := by
  obtain ⟨⟨hrk, hplace⟩, hgreatest⟩ := hlast
  -- the rounds behind the last one at this block leave it alone
  have hkept : (padBefore p store pad seed k)[i] = (padBefore p store pad seed (r + 1))[i] := by
    apply getElem_padBefore_of_untouched p store pad seed (by omega) hi
    intro r' hr' hr'k hr'i
    have hle : r' ≤ r := hgreatest ⟨hr'k, hr'i⟩
    omega
  rw [hkept, getElem_padBefore_succ p store pad seed r hi, if_pos hplace]

/-- A block that no round has used is what it was filled with. -/
theorem getElem_padBefore_of_none {k : Nat} {i : Nat} (hi : i < scratchpadBlocks)
    (hnone : ∀ r < k, (placeIn p store pad seed r).val ≠ i) :
    (padBefore p store pad seed k)[i] = (Keystream.fill p pad seed)[i] :=
  getElem_padBefore_of_untouched p store pad seed (Nat.zero_le k) hi fun r _ => hnone r

/-- What a round reads if another one has used the block: half of it is the state of the last such round. -/
theorem blockRead_of_last {k r : Nat}
    (hlast : IsGreatest {r | r < k ∧ (placeIn p store pad seed r).val = (placeIn p store pad seed k).val} r) :
    blockRead p store pad seed k =
      ⟨stateBefore p store pad seed (r + 1),
        (Keystream.fill p pad seed)[placeIn p store pad seed k].upper⟩ := by
  have hi : (placeIn p store pad seed k).val < scratchpadBlocks := (placeIn p store pad seed k).isLt
  have hlower := lower_padBefore_of_last p store pad seed hi hlast
  have hupper := upper_padBefore p store pad seed k hi
  calc blockRead p store pad seed k
      = ⟨(padBefore p store pad seed k)[(placeIn p store pad seed k).val].lower,
          (padBefore p store pad seed k)[(placeIn p store pad seed k).val].upper⟩ := rfl
    _ = _ := by rw [hlower, hupper]; rfl

/-- What a round reads if no other one has used the block. -/
theorem blockRead_of_none {k : Nat}
    (hnone : ∀ r < k, (placeIn p store pad seed r).val ≠ (placeIn p store pad seed k).val) :
    blockRead p store pad seed k = (Keystream.fill p pad seed)[placeIn p store pad seed k] :=
  getElem_padBefore_of_none p store pad seed (placeIn p store pad seed k).isLt hnone

/-! ## What is read from the store -/

variable {store} in
/-- Another store leads through the same rounds if it has the same items where an item is due. -/
theorem performRounds_eq_of_items {store' : Store} (k : Nat)
    (hitems : ∀ r < k, r % datasetInterval = 0 →
      store'.item p (stateBefore p store pad seed r).lane2 =
        store.item p (stateBefore p store pad seed r).lane2) :
    performRounds p store' (Keystream.fill p pad seed) seed k =
      performRounds p store (Keystream.fill p pad seed) seed k := by
  induction k with
  | zero => rfl
  | succ k ih =>
    have hbefore := ih fun r hr => hitems r (by omega)
    have hblock : roundBlock p store' k (padBefore p store pad seed k) (stateBefore p store pad seed k) =
        roundBlock p store k (padBefore p store pad seed k) (stateBefore p store pad seed k) := by
      unfold roundBlock
      by_cases hdue : k % datasetInterval = 0
      · rw [if_pos hdue, if_pos hdue, hitems k (by omega) hdue]
      · rw [if_neg hdue, if_neg hdue]
    calc performRounds p store' (Keystream.fill p pad seed) seed (k + 1)
        = performRound p store' k (padBefore p store pad seed k) (stateBefore p store pad seed k) := by
          simp only [performRounds, hbefore]
          rfl
      _ = performRound p store k (padBefore p store pad seed k) (stateBefore p store pad seed k) := by
          unfold performRound
          rw [hblock]
      _ = performRounds p store (Keystream.fill p pad seed) seed (k + 1) := rfl

/-- What work on a seed gives, in terms of its rounds. -/
theorem execute_eq : execute p store pad seed =
    (finalHash p (padBefore p store pad seed roundCount) (stateBefore p store pad seed roundCount),
      padBefore p store pad seed roundCount) := by
  -- the rounds are named first, so that they are never unrolled
  rcases hrounds : performRounds p store (Keystream.fill p pad seed) seed roundCount with ⟨pad', state⟩
  simp only [execute, padBefore, stateBefore, hrounds]

/-! ## The bytes of the scratchpad -/

theorem extract_upper_padBefore (k : Nat) {i : Nat} (hi : i < scratchpadBlocks) :
    (memoryBytes (padBefore p store pad seed k)).extract (i * Block.size + Digest.size)
        (i * Block.size + Block.size) =
      (memoryBytes (Keystream.fill p pad seed)).extract (i * Block.size + Digest.size)
        (i * Block.size + Block.size) := by
  rw [extract_upper _ hi, extract_upper _ hi, upper_padBefore p store pad seed k hi]

theorem extract_lower_padBefore_of_last {k r i : Nat} (hi : i < scratchpadBlocks)
    (hlast : IsGreatest {r | r < k ∧ addressIn p store pad seed r = i * Block.size} r) :
    (memoryBytes (padBefore p store pad seed k)).extract (i * Block.size) (i * Block.size + Digest.size) =
      (stateBefore p store pad seed (r + 1)).toBytes := by
  simp only [addressIn_eq_iff] at hlast
  rw [extract_lower _ hi, lower_padBefore_of_last p store pad seed hi hlast]

theorem extract_lower_padBefore_of_none {k i : Nat} (hi : i < scratchpadBlocks)
    (hnone : ∀ r < k, addressIn p store pad seed r ≠ i * Block.size) :
    (memoryBytes (padBefore p store pad seed k)).extract (i * Block.size) (i * Block.size + Digest.size) =
      (memoryBytes (Keystream.fill p pad seed)).extract (i * Block.size)
        (i * Block.size + Digest.size) := by
  simp only [ne_eq, addressIn_eq_iff] at hnone
  rw [extract_lower _ hi, extract_lower _ hi, getElem_padBefore_of_none p store pad seed hi hnone]

/-- A round reads the bytes at its address. -/
theorem toBytes_blockRead (k : Nat) :
    (blockRead p store pad seed k).toBytes =
      (memoryBytes (padBefore p store pad seed k)).extract (addressIn p store pad seed k)
        (addressIn p store pad seed k + Block.size) := by
  rw [addressIn_eq, extract_memoryBytes _ (placeIn p store pad seed k).isLt]
  rfl

theorem toBytes_blockRead_of_last {k r : Nat}
    (hlast : IsGreatest {r | r < k ∧ addressIn p store pad seed r = addressIn p store pad seed k} r) :
    (blockRead p store pad seed k).toBytes = (stateBefore p store pad seed (r + 1)).toBytes ++
      (memoryBytes (Keystream.fill p pad seed)).extract (addressIn p store pad seed k + Digest.size)
        (addressIn p store pad seed k + Block.size) := by
  rw [addressIn_eq p store pad seed k] at hlast ⊢
  simp only [addressIn_eq_iff] at hlast
  rw [extract_upper _ (placeIn p store pad seed k).isLt, blockRead_of_last p store pad seed hlast,
    Block.toBytes_eq]
  rfl

theorem toBytes_blockRead_of_none {k : Nat}
    (hnone : ∀ r < k, addressIn p store pad seed r ≠ addressIn p store pad seed k) :
    (blockRead p store pad seed k).toBytes =
      (memoryBytes (Keystream.fill p pad seed)).extract (addressIn p store pad seed k)
        (addressIn p store pad seed k + Block.size) := by
  rw [addressIn_eq p store pad seed k] at hnone ⊢
  simp only [ne_eq, addressIn_eq_iff] at hnone
  rw [extract_memoryBytes _ (placeIn p store pad seed k).isLt, blockRead_of_none p store pad seed hnone]
  rfl

variable {store} in
/-- Neither the store, but for the items that are due, nor the scratchpad as it was has a part in the result. -/
theorem execute_eq_of_items {store' : Store} (pad' : Scratchpad)
    (hitems : ∀ r < roundCount, r % datasetInterval = 0 →
      store'.item p (stateBefore p store pad seed r).lane2 =
        store.item p (stateBefore p store pad seed r).lane2) :
    execute p store' pad' seed = execute p store pad seed := by
  have hrounds := performRounds_eq_of_items p pad seed roundCount hitems
  unfold execute
  rw [Keystream.fill_eq_fill p pad' pad, hrounds]

/-- **The last writer.** After any number of rounds the scratchpad has its size; the upper half of each
    block is what it was filled with; and the lower half is the state that the last round at its address
    ended with, or what it was filled with if there was none. So what a round reads is known from the
    filled scratchpad and the last round before it at the same address. Nothing else than the items that
    are due in the rounds comes from the store, and nothing at all from the scratchpad as it was before. -/
theorem scratchpad_keeps_last_writes (p : Primitives) (store : Store) (pad : Scratchpad) (seed : Digest) :
    let filled := memoryBytes (Keystream.fill p pad seed)
    let found := fun k => memoryBytes (padBefore p store pad seed k)
    let state := stateBefore p store pad seed
    let start := addressIn p store pad seed
    let read := blockRead p store pad seed
    (∀ k, (found k).size = scratchpadSize ∧ ∀ i < scratchpadBlocks,
      let lower := i * Block.size
      let upper := i * Block.size + Digest.size
      let next := i * Block.size + Block.size
      (found k).extract upper next = filled.extract upper next ∧
      (∀ r, IsGreatest {r | r < k ∧ start r = lower} r →
        (found k).extract lower upper = (state (r + 1)).toBytes) ∧
      ((∀ r < k, start r ≠ lower) →
        (found k).extract lower upper = filled.extract lower upper)) ∧
    (∀ k,
      (read k).toBytes = (found k).extract (start k) (start k + Block.size) ∧
      state (k + 1) = mix p k (state k)
        (if k % datasetInterval = 0 then (read k).xor (store.item p (state k).lane2) else read k) ∧
      (∀ r, IsGreatest {r | r < k ∧ start r = start k} r →
        (read k).toBytes = (state (r + 1)).toBytes ++
          filled.extract (start k + Digest.size) (start k + Block.size)) ∧
      ((∀ r < k, start r ≠ start k) →
        (read k).toBytes = filled.extract (start k) (start k + Block.size))) ∧
    execute p store pad seed =
      (finalHash p (padBefore p store pad seed roundCount) (state roundCount),
        padBefore p store pad seed roundCount) ∧
    (∀ (store' : Store) (pad' : Scratchpad),
      (∀ r < roundCount, r % datasetInterval = 0 →
        store'.item p (state r).lane2 = store.item p (state r).lane2) →
      execute p store' pad' seed = execute p store pad seed) := by
  intro filled found state start read
  refine ⟨fun k => ⟨size_memoryBytes _, ?_⟩, fun k => ?_, execute_eq p store pad seed, ?_⟩
  · intro i hi
    refine ⟨extract_upper_padBefore p store pad seed k hi, ?_, ?_⟩
    · intro r hlast
      exact extract_lower_padBefore_of_last p store pad seed hi hlast
    · intro hnone
      exact extract_lower_padBefore_of_none p store pad seed hi hnone
  · refine ⟨toBytes_blockRead p store pad seed k, stateBefore_succ p store pad seed k, ?_, ?_⟩
    · intro r hlast
      exact toBytes_blockRead_of_last p store pad seed hlast
    · intro hnone
      exact toBytes_blockRead_of_none p store pad seed hnone
  · intro store' pad' hitems
    exact execute_eq_of_items p pad seed pad' hitems

/-- Primitives that answer the same whatever they are given. -/
def Primitives.fixed : Primitives :=
  { hash := fun _ => .zero
    keyedHash := fun _ _ => ⟨0, 0, 0, 1⟩
    keyedBlock := fun _ _ => .zero
    deriveKey := fun _ _ => .zero
    sha256 := fun _ => ⟨0, 0, 0, 2⟩
    cipherRound := fun _ _ => ⟨0, 0⟩ }

theorem addressIn_fixed_zero : addressIn .fixed store pad ⟨661, 0, 0, 0⟩ 0 = 661 * Block.size := by
  show (address ⟨661, 0, 0, 0⟩ 0).toNat = 661 * Block.size
  decide

theorem addressIn_fixed_one : addressIn .fixed store pad ⟨661, 0, 0, 0⟩ 1 = 661 * Block.size := by
  show (address ⟨0, 0, 0, 1⟩ 1).toNat = 661 * Block.size
  decide

theorem stateBefore_fixed_two : stateBefore .fixed store pad ⟨661, 0, 0, 0⟩ 2 = ⟨0, 0, 0, 2⟩ := rfl

/-- Rounds 0 and 1 meet at block 661. The state that round 1 ends with is the one that stays. -/
theorem second_of_two_rounds_stays :
    let store := Store.allocate .standard
    let pad : Scratchpad := Vector.replicate scratchpadBlocks .zero
    let seed : Digest := ⟨661, 0, 0, 0⟩
    addressIn .fixed store pad seed 0 = 661 * Block.size ∧
    IsGreatest {r | r < 2 ∧ addressIn .fixed store pad seed r = 661 * Block.size} 1 ∧
    (memoryBytes (padBefore .fixed store pad seed 2)).extract (661 * Block.size)
      (661 * Block.size + Digest.size) = Digest.toBytes ⟨0, 0, 0, 2⟩ := by
  intro store pad seed
  -- no content of the memories plays a part, so they need not be looked at
  clear_value store pad
  have hlast : IsGreatest {r | r < 2 ∧ addressIn .fixed store pad seed r = 661 * Block.size} 1 :=
    ⟨⟨by decide, addressIn_fixed_one store pad⟩, fun r hr => Nat.le_of_lt_succ hr.1⟩
  have hrounds := (scratchpad_keeps_last_writes .fixed store pad seed).1 2
  have hlower := (hrounds.2 661 (by decide)).2.1 1 hlast
  rw [stateBefore_fixed_two] at hlower
  exact ⟨addressIn_fixed_zero store pad, hlast, hlower⟩

end NonceSweep.Engine
