import NonceSweep.Proofs.Engine.LastWriter
import Mathlib.Data.FinEnum
import Mathlib.Data.Fintype.Prod
import Mathlib.Data.Int.ModEq
import Mathlib.Data.Nat.Bitwise

/-!
# Addresses tell rounds apart

The block of a round is named by the lowest bits of an exclusive or of four words: two lanes of the state, the
rotated number of the round, and a multiple of this number. Each part has its own effect. The factor of the
multiple is odd, so that numbers with different remainders still have different ones when they are multiplied;
and the rotation brings nothing into the lowest bits but the highest bits of the number, which are not set in
the numbers of rounds. So one state is sent to different blocks by different rounds. As to the first lane, the
other words only permute the values of its lowest bits, and every block is reached from as many of them as
every other.

## Layers

- **Parts of an address**: `toNat_slot`
- **Rounds**: `address_eq_iff_modEq`, `addressIn_ne`
- **States**: `address_withFirstBytes_eq_iff`, `card_firstBytes`

## Main result

- `addresses_separate_rounds`
-/

namespace NonceSweep.Engine

/-! ## Parts of an address -/

/-- The number of a block, from the lowest bits of each of the four words. -/
theorem toNat_slot (state : Digest) (round : UInt64) :
    (slot state round).toNat = state.lane0.toNat % scratchpadBlocks ^^^
      state.lane1.toNat % scratchpadBlocks ^^^ (rotateLeft round 13).toNat % scratchpadBlocks ^^^
      (round * spread).toNat % scratchpadBlocks := by
  have hblocks : scratchpadBlocks = 2 ^ 10 := rfl
  have hmask : (slot state round).toNat = (mixed state round).toNat % 2 ^ 10 := by
    rw [slot, UInt64.toNat_and]
    exact Nat.and_two_pow_sub_one_eq_mod _ 10
  rw [hmask, hblocks, mixed, UInt64.toNat_xor, UInt64.toNat_xor, UInt64.toNat_xor]
  simp only [Nat.xor_mod_two_pow]

theorem address_eq_iff {state state' : Digest} {round round' : UInt64} :
    address state round = address state' round' ↔ (slot state round).toNat = (slot state' round').toNat := by
  rw [← UInt64.toNat_inj, toNat_address, toNat_address]
  exact Nat.mul_left_inj (by decide)

/-! ## Rounds -/

/-- The lowest bits of a rotated number come from the highest ones of the number. -/
theorem rotateLeft_mod_of_lt {round : UInt64} (hround : round.toNat < 2 ^ 51) :
    (rotateLeft round 13).toNat % scratchpadBlocks = 0 := by
  have hback : round.toNat >>> 51 = 0 := by
    rw [Nat.shiftRight_eq_div_pow, Nat.div_eq_of_lt hround]
  have hrotated : (rotateLeft round 13).toNat = round.toNat <<< 13 % 2 ^ 64 ||| round.toNat >>> 51 := by
    rw [rotateLeft, UInt64.toNat_or, UInt64.toNat_shiftLeft, UInt64.toNat_shiftRight]
    rfl
  -- nothing comes around, and what goes up leaves the lowest 13 bits empty
  rw [hrotated, hback, Nat.or_zero, Nat.shiftLeft_eq, scratchpadBlocks]
  omega

theorem mul_spread_mod (round : UInt64) :
    (round * spread).toNat % scratchpadBlocks = round.toNat * spread.toNat % scratchpadBlocks := by
  rw [UInt64.toNat_mul]
  exact Nat.mod_mod_of_dvd _ (by decide)

/-- The factor is odd and the number of blocks a power of two. -/
theorem mul_spread_modEq_iff (m n : Nat) :
    m * spread.toNat ≡ n * spread.toNat [MOD scratchpadBlocks] ↔ m ≡ n [MOD scratchpadBlocks] := by
  constructor
  · exact Nat.ModEq.cancel_right_of_coprime (by decide)
  · intro h
    exact h.mul_right _

theorem address_eq_iff_modEq (state : Digest) {r₁ r₂ : UInt64} (h₁ : r₁.toNat < 2 ^ 51)
    (h₂ : r₂.toNat < 2 ^ 51) :
    address state r₁ = address state r₂ ↔ r₁.toNat ≡ r₂.toNat [MOD scratchpadBlocks] := by
  rw [address_eq_iff, toNat_slot, toNat_slot, rotateLeft_mod_of_lt h₁, rotateLeft_mod_of_lt h₂,
    Nat.xor_right_inj, mul_spread_mod, mul_spread_mod]
  exact mul_spread_modEq_iff _ _

/-- There are more blocks than rounds, so that no two rounds have the same number among the blocks. -/
theorem addressIn_ne (p : Primitives) (store : Store) (pad : Scratchpad) (seed : Digest) {r₁ r₂ : Nat}
    (h₁ : r₁ < roundCount) (h₂ : r₂ < roundCount) (hne : r₁ ≠ r₂)
    (hstate : stateBefore p store pad seed r₁ = stateBefore p store pad seed r₂) :
    addressIn p store pad seed r₁ ≠ addressIn p store pad seed r₂ := by
  have hnumber {r : Nat} (hr : r < roundCount) : (UInt64.ofNat r).toNat = r := by
    apply UInt64.toNat_ofNat_of_lt'
    exact Nat.lt_trans hr (by decide)
  have hsmall {r : Nat} (hr : r < roundCount) : (UInt64.ofNat r).toNat < 2 ^ 51 := by
    rw [hnumber hr]
    exact Nat.lt_trans hr (by decide)
  intro heq
  rw [addressIn, addressIn, hstate, UInt64.toNat_inj, address_eq_iff_modEq _ (hsmall h₁) (hsmall h₂),
    hnumber h₁, hnumber h₂] at heq
  have hblocks {r : Nat} (hr : r < roundCount) : r < scratchpadBlocks := Nat.lt_trans hr (by decide)
  exact hne (Nat.ModEq.eq_of_lt_of_lt heq (hblocks h₁) (hblocks h₂))

/-! ## States -/

/-- A state with other bytes in the first two places. -/
def withFirstBytes (state : Digest) (b₀ b₁ : UInt8) : Digest :=
  .ofBytes (⟨#[b₀, b₁]⟩ ++ state.toBytes.extract 2 Digest.size) 0

section FirstBytes

variable (state : Digest) (b₀ b₁ : UInt8)

theorem toBytes_withFirstBytes :
    (withFirstBytes state b₀ b₁).toBytes = ⟨#[b₀, b₁]⟩ ++ state.toBytes.extract 2 Digest.size := by
  have hread {bytes : ByteArray} (h : bytes.size = Digest.size) : (Digest.ofBytes bytes 0).toBytes = bytes := by
    rw [Digest.toBytes_ofBytes bytes 0 (by rw [h, Nat.zero_add]), Nat.zero_add, ← h, ByteArray.extract_zero_size]
  apply hread
  rw [ByteArray.size_append, ByteArray.size_extract, Digest.size_toBytes]
  rfl

theorem lane1_withFirstBytes : (withFirstBytes state b₀ b₁).lane1 = state.lane1 := by
  have hsecond : (withFirstBytes state b₀ b₁).toBytes.extract 8 (8 + 8) = state.toBytes.extract 8 (8 + 8) := by
    have htwo : (⟨#[b₀, b₁]⟩ : ByteArray).size = 2 := rfl
    have hnone : (⟨#[b₀, b₁]⟩ : ByteArray).extract 8 16 = ByteArray.empty := rfl
    simp [toBytes_withFirstBytes, ByteArray.extract_append, ByteArray.extract_extract, htwo, hnone, Digest.size]
  rw [← Digest.word64_toBytes_eight, ← Bytes.word64_extract, hsecond, Bytes.word64_extract,
    Digest.word64_toBytes_eight]

/-- Bytes behind the second are too high to have a part in the lowest bits. -/
theorem lane0_withFirstBytes_mod :
    (withFirstBytes state b₀ b₁).lane0.toNat % scratchpadBlocks =
      (b₀.toNat + b₁.toNat * 256) % scratchpadBlocks := by
  have htwo : (⟨#[b₀, b₁]⟩ : ByteArray).size = 2 := rfl
  have hfirst : Bytes.byteAt (withFirstBytes state b₀ b₁).toBytes 0 = b₀ := by
    rw [toBytes_withFirstBytes, Bytes.byteAt_append, if_pos (by rw [htwo]; decide)]
    rfl
  have hsecond : Bytes.byteAt (withFirstBytes state b₀ b₁).toBytes 1 = b₁ := by
    rw [toBytes_withFirstBytes, Bytes.byteAt_append, if_pos (by rw [htwo]; decide)]
    rfl
  -- four bytes of the lane are enough, and the last two of them are multiples of the number of blocks
  have hlow := Bytes.toNat_word32 (withFirstBytes state b₀ b₁).toBytes 0
  rw [← Bytes.toUInt32_word64, Digest.word64_toBytes_zero, UInt64.toNat_toUInt32, Nat.zero_add, hfirst,
    hsecond] at hlow
  rw [scratchpadBlocks]
  omega

/-- What the three words that the first bytes have no part in have in the lowest bits. -/
def withoutFirstLane (state : Digest) (round : UInt64) : Nat :=
  state.lane1.toNat % scratchpadBlocks ^^^ (rotateLeft round 13).toNat % scratchpadBlocks ^^^
    (round * spread).toNat % scratchpadBlocks

variable (round : UInt64)

theorem xor_withoutFirstLane_lt {i : Nat} (hi : i < scratchpadBlocks) :
    i ^^^ withoutFirstLane state round < scratchpadBlocks := by
  have hrest (n : Nat) : n % scratchpadBlocks < 2 ^ 10 := Nat.mod_lt n (by decide)
  have hothers : withoutFirstLane state round < 2 ^ 10 :=
    Nat.xor_lt_two_pow (Nat.xor_lt_two_pow (hrest _) (hrest _)) (hrest _)
  exact Nat.xor_lt_two_pow (n := 10) hi hothers

theorem toNat_slot_withFirstBytes :
    (slot (withFirstBytes state b₀ b₁) round).toNat =
      (b₀.toNat + b₁.toNat * 256) % scratchpadBlocks ^^^ withoutFirstLane state round := by
  rw [toNat_slot, lane0_withFirstBytes_mod, lane1_withFirstBytes, withoutFirstLane, Nat.xor_assoc,
    Nat.xor_assoc, ← Nat.xor_assoc (state.lane1.toNat % scratchpadBlocks)]

/-- To each block leads one first byte, and with it the second bytes that have one remainder by four. -/
theorem address_withFirstBytes_eq_iff {i : Nat} (hi : i < scratchpadBlocks) :
    (address (withFirstBytes state b₀ b₁) round).toNat = i * Block.size ↔
      b₀ = UInt8.ofNat ((i ^^^ withoutFirstLane state round) % 256) ∧
        b₁.toNat % 4 = (i ^^^ withoutFirstLane state round) / 256 := by
  have hb₀ := b₀.toNat_lt
  have hvalue := xor_withoutFirstLane_lt state round hi
  have hlow : (i ^^^ withoutFirstLane state round) % 256 < UInt8.size := Nat.mod_lt _ (by decide)
  have hback : i = i ^^^ withoutFirstLane state round ^^^ withoutFirstLane state round := by
    rw [Nat.xor_assoc, Nat.xor_self, Nat.xor_zero]
  rw [toNat_address, Nat.mul_left_inj (by decide), toNat_slot_withFirstBytes]
  -- the other words are taken off both sides, so that the first lane is compared with one number
  nth_rewrite 1 [hback]
  rw [Nat.xor_left_inj, ← UInt8.toNat_inj, UInt8.toNat_ofNat_of_lt' hlow]
  rw [scratchpadBlocks] at hvalue ⊢
  generalize i ^^^ withoutFirstLane state round = value at hvalue ⊢
  omega

end FirstBytes

/-- Each remainder by four is that of as many bytes as any other. -/
theorem card_mod_four : ∀ r < 4, (Finset.univ.filter fun b : UInt8 => b.toNat % 4 = r).card = 64 := by
  decide

/-- Of the pairs of bytes, as many lead to one block as to another. -/
theorem card_firstBytes (state : Digest) (round : UInt64) {i : Nat} (hi : i < scratchpadBlocks) :
    (Finset.univ.filter fun b : UInt8 × UInt8 =>
      (address (withFirstBytes state b.1 b.2) round).toNat = i * Block.size).card = 64 := by
  have hvalue : i ^^^ withoutFirstLane state round < 256 * 4 := xor_withoutFirstLane_lt state round hi
  have hproduct : (Finset.univ.filter fun b : UInt8 × UInt8 =>
      (address (withFirstBytes state b.1 b.2) round).toNat = i * Block.size) =
      {UInt8.ofNat ((i ^^^ withoutFirstLane state round) % 256)} ×ˢ
        Finset.univ.filter fun b : UInt8 => b.toNat % 4 = (i ^^^ withoutFirstLane state round) / 256 := by
    ext b
    simp only [Finset.mem_filter, Finset.mem_product, Finset.mem_singleton, Finset.mem_univ, true_and,
      address_withFirstBytes_eq_iff state b.1 b.2 round hi]
  rw [hproduct, Finset.card_product, Finset.card_singleton, Nat.one_mul]
  exact card_mod_four _ (Nat.div_lt_of_lt_mul hvalue)

/-! ## Main result -/

/-- **Addresses tell rounds apart and are dealt out evenly.** Below `2 ^ 51`, two rounds send a state to one
block exactly when their numbers are congruent modulo the number of blocks. Two rounds of one run of the
loop that are entered with the same state are therefore at different blocks. And whatever the round and the
other bytes of the state are, every block is reached from 64 of the values of the first two bytes. -/
theorem addresses_separate_rounds :
    (∀ (state : Digest) (r₁ r₂ : UInt64), r₁.toNat < 2 ^ 51 → r₂.toNat < 2 ^ 51 →
      (address state r₁ = address state r₂ ↔ r₁.toNat ≡ r₂.toNat [MOD scratchpadBlocks])) ∧
    (∀ (p : Primitives) (store : Store) (pad : Scratchpad) (seed : Digest) (r₁ r₂ : Nat),
      r₁ < roundCount → r₂ < roundCount → r₁ ≠ r₂ →
      stateBefore p store pad seed r₁ = stateBefore p store pad seed r₂ →
      addressIn p store pad seed r₁ ≠ addressIn p store pad seed r₂) ∧
    (∀ (state : Digest) (round : UInt64) (i : Nat), i < scratchpadBlocks →
      (Finset.univ.filter fun b : UInt8 × UInt8 =>
        (address (withFirstBytes state b.1 b.2) round).toNat = i * Block.size).card = 64) := by
  refine ⟨?_, ?_, ?_⟩
  · intro state r₁ r₂ h₁ h₂
    exact address_eq_iff_modEq state h₁ h₂
  · intro p store pad seed r₁ r₂ h₁ h₂ hne hstate
    exact addressIn_ne p store pad seed h₁ h₂ hne hstate
  · intro state round i hi
    exact card_firstBytes state round hi

/-- Round 0 uses the cipher here, which answers zero for both halves. -/
theorem stateBefore_fixed_one (store : Store) (pad : Scratchpad) :
    stateBefore .fixed store pad .zero 1 = stateBefore .fixed store pad .zero 0 := by
  have hstart : stateBefore .fixed store pad .zero 0 = .zero := rfl
  have hmix (block : Block) : mix .fixed 0 .zero block = .zero := rfl
  rw [stateBefore_succ, hstart, hmix]

/-- Round 5 shares its block with round 1029 and not with round 6; a state that round 0 leaves as it was is
taken elsewhere by round 1; and the last block is reached from 64 pairs of bytes in the last round of all. -/
theorem repeated_state_moves_on :
    let state : Digest := ⟨661, 0, 0, 0⟩
    let store := Store.allocate .standard
    let pad : Scratchpad := Vector.replicate scratchpadBlocks .zero
    let seed : Digest := .zero
    address state 5 = address state 1029 ∧ address state 5 ≠ address state 6 ∧
    stateBefore .fixed store pad seed 0 = stateBefore .fixed store pad seed 1 ∧
    addressIn .fixed store pad seed 0 ≠ addressIn .fixed store pad seed 1 ∧
    (Finset.univ.filter fun b : UInt8 × UInt8 =>
      (address (withFirstBytes state b.1 b.2) 0xffffffffffffffff).toNat = 1023 * Block.size).card = 64 := by
  intro state store pad seed
  clear_value store pad
  obtain ⟨hrounds, hloop, heven⟩ := addresses_separate_rounds
  have hstate := (stateBefore_fixed_one store pad).symm
  have hsame := (hrounds state 5 1029 (by decide) (by decide)).2 (by decide)
  have hother := mt (hrounds state 5 6 (by decide) (by decide)).1 (by decide)
  have hmoved := hloop .fixed store pad seed 0 1 (by decide) (by decide) (by decide) hstate
  exact ⟨hsame, hother, hstate, hmoved, heven state 0xffffffffffffffff 1023 (by decide)⟩

end NonceSweep.Engine
