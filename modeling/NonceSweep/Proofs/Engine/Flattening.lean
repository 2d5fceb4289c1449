import NonceSweep.Proofs.Engine.Flat
import NonceSweep.Proofs.Engine.LastWriter
import NonceSweep.Proofs.Engine.StreamBytes

/-!
# Flat memory agrees with blocks

A memory of blocks is laid out as bytes, and what the engine does with the blocks is done with the bytes, in
range and with the same result. There is one equation for each function of the engine on flat memory, with
the inputs laid out on its left side and the output on its right; each is proved from those of the functions
that it calls.

## Main results

- `Flat.fill_eq`: filling, of strings of any size
- `Flat.cipherMix_eq`, `Flat.address_eq`, `Flat.derive_eq`: mixers, addresses and items
- `Flat.Store.seed_eq`, `Flat.Store.item_eq`, `Flat.Machine.answer_eq`: stores and machines
-/

namespace NonceSweep.Engine

variable (p : Primitives)

namespace Flat

open Keystream (writtenOver streamBytes cellAfter)

/-- One cell further. -/
theorem fillQuarter_eq (buffer : ByteArray) (seed : Digest) {start quarter count : Nat}
    (hcount : start + quarter * Cell.size = count * Cell.size)
    (hinside : (count + 1) * Cell.size ≤ buffer.size) :
    fillQuarter p seed.front start quarter
        (writtenOver p buffer seed count, cellAfter p seed.front seed.back count) =
      .done (writtenOver p buffer seed (count + 1), cellAfter p seed.front seed.back (count + 1)) := by
  obtain ⟨old, rest, hold, hbefore, hafter⟩ := Keystream.exists_writtenOver_succ p buffer seed hinside
  have hsize : (streamBytes p seed.front seed.back count).size = count * Cell.size :=
    Keystream.size_streamBytes ..
  have hwrite (c : Cell) : overwrite (streamBytes p seed.front seed.back count ++ old ++ rest)
      (count * Cell.size) (count * Cell.size + Cell.size) c.toBytes =
      .done (streamBytes p seed.front seed.back count ++ c.toBytes ++ rest) :=
    overwrite_middle hsize.symm (by rw [hsize, hold]) (by rw [Cell.size_toBytes, hold])
  simp [fillQuarter, hcount, ← Keystream.cellAfter_succ, hbefore, hwrite, hafter]

@[simp] theorem fill_eq (buffer : ByteArray) (seed : Digest) :
    fill p buffer seed = .done (Keystream.fillBytes p buffer seed) := by
  have hkey : slice seed.toBytes 0 Cell.size = .done seed.front.toBytes := by
    rw [Digest.toBytes_eq_cells]
    exact slice_front (Cell.size_toBytes _).symm
  have hstart : slice seed.toBytes Cell.size seed.toBytes.size = .done seed.back.toBytes := by
    rw [Digest.toBytes_eq_cells]
    exact slice_back (Cell.size_toBytes _).symm
  -- each turn of the outer loop is four turns of the inner one
  have hblock (i : Nat) (hi : i < buffer.size / Block.size) :
      loop (fillQuarter p seed.front (i * Block.size)) 4
          (writtenOver p buffer seed (4 * i), cellAfter p seed.front seed.back (4 * i)) =
        .done (writtenOver p buffer seed (4 * (i + 1)), cellAfter p seed.front seed.back (4 * (i + 1))) := by
    apply loop_of_turns fun quarter =>
      (writtenOver p buffer seed (4 * i + quarter), cellAfter p seed.front seed.back (4 * i + quarter))
    intro quarter hquarter
    apply fillQuarter_eq
    · simp only [Block.size, Cell.size]
      omega
    · simp only [Block.size, Cell.size] at hi ⊢
      omega
  have hloop := loop_of_turns (fun i =>
    (writtenOver p buffer seed (4 * i), cellAfter p seed.front seed.back (4 * i))) hblock
  have hback : cellAfter p seed.front seed.back 0 = seed.back := rfl
  rw [Nat.mul_zero, Keystream.writtenOver_zero, hback] at hloop
  simp only [fill, hkey, hstart, cell_toBytes, hloop, done_bind, pure_eq_done,
    Keystream.fillBytes_eq_writtenOver]

/-! ## Mixers -/

/-- The half of the state, of the block and of the result that number `half` names. -/
theorem cipherHalf_eq {state : Digest} {block : Block} {half : Nat} (hhalf : half < 2)
    {before behind blockBefore blockBehind out rest old : ByteArray} {s first second : Cell}
    (hstate : state.toBytes = before ++ s.toBytes ++ behind) (hbefore : before.size = half * 16)
    (hblock : block.toBytes = blockBefore ++ (first.toBytes ++ second.toBytes) ++ blockBehind)
    (hblockBefore : blockBefore.size = half * 32)
    (hout : out.size = half * 16) (hold : old.size = Cell.size) :
    cipherHalf p state block half (out ++ old ++ rest) =
      .done (out ++ (p.cipherRound (p.cipherRound s first) second).toBytes ++ rest) := by
  have hs : slice state.toBytes (half * 16) (half * 16 + 16) = .done s.toBytes := by
    rw [hstate]
    exact slice_middle hbefore.symm (by rw [hbefore, Cell.size_toBytes, Cell.size])
  have hkeys : slice block.toBytes (half * 32) (half * 32 + 32) =
      .done (first.toBytes ++ second.toBytes) := by
    rw [hblock]
    exact slice_middle hblockBefore.symm (by simp [hblockBefore, Cell.size])
  have hfirst : slice (first.toBytes ++ second.toBytes) 0 16 = .done first.toBytes :=
    slice_front (Cell.size_toBytes _).symm
  have hsecond : slice (first.toBytes ++ second.toBytes) 16 (first.toBytes ++ second.toBytes).size =
      .done second.toBytes := slice_back (Cell.size_toBytes _).symm
  -- whatever cell is written, it goes between what is before the half and what is behind it
  have hwrite (c : Cell) : overwrite (out ++ old ++ rest) (half * 16) (half * 16 + 16) c.toBytes =
      .done (out ++ c.toBytes ++ rest) :=
    overwrite_middle hout.symm (by rw [hout, hold, Cell.size]) (by rw [hold, Cell.size_toBytes])
  have hword (n : Nat) (hn : n ≤ 64) : n < UInt64.size := Nat.lt_of_le_of_lt hn (by decide)
  simp only [cipherHalf, times_of_lt (hword (half * 16) (by omega)),
    plus_of_lt (hword (half * 16 + 16) (by omega)), times_of_lt (hword (half * 32) (by omega)),
    plus_of_lt (hword (half * 32 + 32) (by omega)), hs, hkeys, hfirst, hsecond, hwrite, cell_toBytes,
    done_bind]

@[simp] theorem cipherMix_eq (state : Digest) (block : Block) :
    cipherMix p state block = .done (Engine.cipherMix p state block) := by
  let front := p.cipherRound (p.cipherRound state.front block.lower.front) block.lower.back
  let back := p.cipherRound (p.cipherRound state.back block.upper.front) block.upper.back
  -- the halves of the state and of the block, with nothing before the first and nothing behind the second
  have hfront : state.toBytes = ByteArray.empty ++ state.front.toBytes ++ state.back.toBytes := by
    rw [Digest.toBytes_eq_cells, ByteArray.empty_append]
  have hback : state.toBytes = state.front.toBytes ++ state.back.toBytes ++ ByteArray.empty := by
    rw [Digest.toBytes_eq_cells, ByteArray.append_empty]
  have hlower : block.toBytes = ByteArray.empty ++
      (block.lower.front.toBytes ++ block.lower.back.toBytes) ++ block.upper.toBytes := by
    rw [Block.toBytes_eq, ← Digest.toBytes_eq_cells, ByteArray.empty_append]
  have hupper : block.toBytes = block.lower.toBytes ++
      (block.upper.front.toBytes ++ block.upper.back.toBytes) ++ ByteArray.empty := by
    rw [Block.toBytes_eq, ← Digest.toBytes_eq_cells, ByteArray.append_empty]
  have hzeros : (zeros Cell.size).size = Cell.size := size_zeros _
  have hfirst : cipherHalf p state block 0 (ByteArray.empty ++ zeros Cell.size ++ zeros Cell.size) =
      .done (ByteArray.empty ++ front.toBytes ++ zeros Cell.size) :=
    cipherHalf_eq p (by decide) hfront rfl hlower rfl rfl hzeros
  have hsecond : cipherHalf p state block 1 (front.toBytes ++ zeros Cell.size ++ ByteArray.empty) =
      .done (front.toBytes ++ back.toBytes ++ ByteArray.empty) :=
    cipherHalf_eq p (by decide) hback (Cell.size_toBytes _) hupper (Digest.size_toBytes _)
      (Cell.size_toBytes front) hzeros
  have hhalves : zeros Digest.size = zeros Cell.size ++ zeros Cell.size := zeros_add Cell.size Cell.size
  rw [ByteArray.empty_append, ByteArray.empty_append, ← hhalves] at hfirst
  rw [ByteArray.append_empty, ByteArray.append_empty] at hsecond
  have hread : exactly Digest.size Digest.ofBytes (front.toBytes ++ back.toBytes) =
      .done (Digest.ofCells front back) := by
    rw [← Digest.toBytes_ofCells, exactly_of_size _ (Digest.size_toBytes _), Digest.ofBytes_toBytes]
  simp only [cipherMix, loop, hfirst, hsecond, hread, done_bind]
  rfl

/-- The first byte of a state and the number of a round have a sum that is far from the greatest word. -/
theorem mix_eq {round : Nat} (hround : round < roundCount) (state : Digest) (block : Block) :
    mix p round state block = .done (Engine.mix p round state block) := by
  have hbyte : state.lane0.toUInt8.toNat + round < UInt64.size := by
    have hfirst := state.lane0.toUInt8.toNat_lt
    simp only [roundCount, UInt64.size] at hround ⊢
    omega
  simp only [mix, byte_toBytes_zero, plus_of_lt hbyte, done_bind, Engine.mix]
  have hmixer := Nat.mod_lt (state.lane0.toUInt8.toNat + round) (show 3 > 0 by decide)
  generalize (state.lane0.toUInt8.toNat + round) % 3 = mixer at hmixer
  obtain rfl | rfl | rfl : mixer = 0 ∨ mixer = 1 ∨ mixer = 2 := by omega
  · exact cipherMix_eq p state block
  · simp only [shaMix, Block.push_eq_append]
  · rfl

/-- The offset is that of a whole block of the scratchpad. -/
theorem address_eq (state : Digest) (round : UInt64) :
    address state round = .done (Engine.address state round).toNat := by
  -- the mask is taken of a word in the engine, and of a number here
  have hslot : (mixed state round).toNat &&& (scratchpadBlocks - 1) = (slot state round).toNat := by
    rw [slot, UInt64.toNat_and]
    rfl
  have hlt : (slot state round).toNat < scratchpadBlocks := slot_lt state round
  have hword : (slot state round).toNat * Block.size < UInt64.size := by
    simp only [scratchpadBlocks] at hlt
    simp only [Block.size, UInt64.size]
    omega
  have hmixed : address state round =
      times ((mixed state round).toNat &&& (scratchpadBlocks - 1)) Block.size := by
    simp [address, mixed]
  rw [hmixed, hslot, times_of_lt hword, toNat_address]

/-! ## Memories -/

section Memories

variable {n : Nat} (memory : Vector Block n) {i : Nat} (hi : i < n)

include hi in
theorem le_size_memoryBytes : i * Block.size + Block.size ≤ (memoryBytes memory).size := by
  rw [size_memoryBytes, ← Nat.succ_mul]
  exact Nat.mul_le_mul_right Block.size hi

theorem slice_memoryBytes :
    slice (memoryBytes memory) (i * Block.size) (i * Block.size + Block.size) =
      .done memory[i].toBytes := by
  rw [slice_of_le (Nat.le_add_right _ _) (le_size_memoryBytes memory hi), extract_memoryBytes memory hi]

/-- No memory has more blocks than the dataset has items, so that offsets are far from the greatest word. -/
theorem offset_lt (hn : n ≤ datasetItems) (hi : i < n) : i * Block.size + Block.size < UInt64.size := by
  simp only [datasetItems, Block.size, UInt64.size] at hn ⊢
  omega

theorem blockBytes_memoryBytes (hn : n ≤ datasetItems) :
    blockBytes (memoryBytes memory) i = .done memory[i].toBytes := by
  have hstop := offset_lt hn hi
  have hstart : i * Block.size < UInt64.size := Nat.lt_of_le_of_lt (Nat.le_add_right _ _) hstop
  simp [blockBytes, times_of_lt hstart, plus_of_lt hstop, slice_memoryBytes memory hi]

theorem overwrite_memoryBytes (block : Block) :
    overwrite (memoryBytes memory) (i * Block.size) (i * Block.size + Block.size) block.toBytes =
      .done (memoryBytes (memory.set i block)) := by
  have hbefore := size_bytesBefore memory hi
  rw [memoryBytes_eq_append memory hi, memoryBytes_set memory hi]
  exact overwrite_middle hbefore.symm (by rw [hbefore, Block.size_toBytes]) (by simp)

/-- The lower half of a block is replaced alone. -/
theorem overwrite_lower (lower : Digest) :
    overwrite (memoryBytes memory) (i * Block.size) (i * Block.size + Digest.size) lower.toBytes =
      .done (memoryBytes (memory.set i ⟨lower, memory[i].upper⟩)) := by
  have hbefore := size_bytesBefore memory hi
  -- the upper half counts as part of what is behind
  have hmiddle : overwrite
      (bytesBefore memory i ++ memory[i].lower.toBytes ++ (memory[i].upper.toBytes ++ bytesBehind memory i))
      (i * Block.size) (i * Block.size + Digest.size) lower.toBytes =
      .done (bytesBefore memory i ++ lower.toBytes ++ (memory[i].upper.toBytes ++ bytesBehind memory i)) :=
    overwrite_middle hbefore.symm (by rw [hbefore, Digest.size_toBytes]) (by simp)
  rw [memoryBytes_eq_append memory hi, memoryBytes_set memory hi, Block.toBytes_eq, Block.toBytes_eq]
  simpa only [ByteArray.append_assoc] using hmiddle

end Memories

theorem zeros_eq_memoryBytes (n : Nat) :
    zeros (n * Block.size) = memoryBytes (Vector.replicate n .zero) := by
  have hblock : zeros Block.size = Block.zero.toBytes := by decide
  rw [memoryBytes_eq_joined, Vector.toList_replicate]
  induction n with
  | zero => rfl
  | succ n ih =>
    rw [Nat.succ_mul, Nat.add_comm, zeros_add, ih, hblock]
    rfl

/-! ## Dataset items -/

theorem follow_eq (cache : Vector Block cacheBlocks) (state : Digest) :
    follow p (memoryBytes cache) state = .done (Engine.follow p cache 1 state) := by
  have hnumber : state.lane0.toNat &&& (cacheBlocks - 1) = (cachePlace state).val := by
    show _ = (state.lane0 &&& 0x3fff).toNat
    rw [UInt64.toNat_and]
    rfl
  have hblock := blockBytes_memoryBytes cache (cachePlace state).isLt (by decide)
  simp [follow, hnumber, hblock, Engine.follow]

theorem follow_succ (cache : Vector Block cacheBlocks) (count : Nat) (state : Digest) :
    Engine.follow p cache (count + 1) state =
      Engine.follow p cache 1 (Engine.follow p cache count state) := by
  -- the engine goes on from the state after the first block, so the state is general in the induction
  induction count generalizing state with
  | zero => rfl
  | succ count ih => exact ih _

@[simp] theorem derive_eq (cache : Vector Block cacheBlocks) (index : UInt64) :
    derive p (memoryBytes cache) index = .done (Engine.derive p cache index) := by
  have hloop : loop (fun _ => follow p (memoryBytes cache)) cacheReads (p.hash (Bytes.ofWord64 index)) =
      .done (Engine.follow p cache cacheReads (p.hash (Bytes.ofWord64 index))) := by
    apply loop_of_turns fun count => Engine.follow p cache count (p.hash (Bytes.ofWord64 index))
    intro count _
    rw [follow_eq, follow_succ p cache count]
  simp [derive, hloop, Engine.derive]

theorem writeItem_eq (cache : Vector Block cacheBlocks) (dataset : Vector Block datasetItems)
    (index : Fin datasetItems) :
    writeItem p (memoryBytes cache) (memoryBytes dataset) index =
      .done (memoryBytes (Engine.writeItem p cache dataset index)) := by
  -- the dataset is made of whole blocks, so no chunk is cut off
  have hchunk := Nat.min_eq_left (le_size_memoryBytes dataset index.isLt)
  simp only [writeItem, derive_eq, hchunk, overwrite_memoryBytes dataset index.isLt, done_bind,
    Engine.writeItem]

theorem writeItems_eq (cache : Vector Block cacheBlocks) (order : List (Fin datasetItems))
    (dataset : Vector Block datasetItems) :
    order.foldlM (writeItem p (memoryBytes cache)) (memoryBytes dataset) =
      .done (memoryBytes (writeItems p cache order dataset)) := by
  induction order generalizing dataset with
  | nil => rfl
  | cons first rest ih =>
    rw [List.foldlM_cons, writeItem_eq, done_bind, ih]
    rfl

/-! ## Stores -/

/-- A store with its memories laid out as bytes. -/
def Store.ofVectors (s : Engine.Store) : Store :=
  { options := s.options
    inputKey := s.inputKey
    cache := memoryBytes s.cache
    dataset := s.dataset.map memoryBytes }

namespace Store

theorem allocate_eq (o : Options) : allocate o = ofVectors (Engine.Store.allocate o) := by
  unfold allocate Engine.Store.allocate ofVectors
  rw [cacheSize, datasetSize, zeros_eq_memoryBytes, zeros_eq_memoryBytes]
  cases o.profile <;> rfl

@[simp] theorem seed_eq (s : Engine.Store) (build : Build) (bytes : ByteArray) :
    (ofVectors s).seed p build bytes = .done (ofVectors (s.seed p build bytes)) := by
  obtain ⟨options, inputKey, cache, dataset⟩ := s
  cases dataset with
  | none => simp [seed, ofVectors, Keystream.fillBytes_memoryBytes, Engine.Store.seed]
  | some dataset =>
    simp [seed, ofVectors, Keystream.fillBytes_memoryBytes, writeItems_eq, Engine.Store.seed]

@[simp] theorem item_eq (s : Engine.Store) (index : UInt64) :
    (ofVectors s).item p index = .done (s.item p index) := by
  have hslot : index % UInt64.ofNat datasetItems = itemSlot index := rfl
  obtain ⟨options, inputKey, cache, dataset⟩ := s
  cases dataset with
  | none => simp [item, ofVectors, hslot, Engine.Store.item]
  | some dataset =>
    have hblock := blockBytes_memoryBytes dataset (itemSlot_lt index) (Nat.le_refl _)
    simp [item, ofVectors, hslot, hblock, Engine.Store.item, itemPlace]

end Store

/-! ## Rounds -/

theorem address_of_place (state : Digest) (round : Nat) :
    address state (UInt64.ofNat round) = .done ((place state round).val * Block.size) := by
  rw [address_eq, toNat_address]
  rfl

theorem roundBlock_eq (store : Engine.Store) (round : Nat) (pad : Scratchpad) (state : Digest) :
    roundBlock p (.ofVectors store) round ((place state round).val * Block.size) (memoryBytes pad) state =
      .done (Engine.roundBlock p store round pad state) := by
  have hi : (place state round).val < scratchpadBlocks := (place state round).isLt
  have hstop := offset_lt (show scratchpadBlocks ≤ datasetItems by decide) hi
  simp only [roundBlock, plus_of_lt hstop, slice_memoryBytes pad hi, block_toBytes, done_bind,
    Engine.roundBlock]
  split
  · simp [Block.xor_toBytes]
  · rfl

theorem performRound_eq (store : Engine.Store) {round : Nat} (hround : round < roundCount)
    (pad : Scratchpad) (state : Digest) :
    performRound p (.ofVectors store) round (memoryBytes pad, state) =
      .done (memoryBytes (Engine.performRound p store round pad state).1,
        (Engine.performRound p store round pad state).2) := by
  have hi : (place state round).val < scratchpadBlocks := (place state round).isLt
  have hstop := offset_lt (show scratchpadBlocks ≤ datasetItems by decide) hi
  -- only the lower half of the block is written back
  have hlower : (place state round).val * Block.size + Digest.size < UInt64.size :=
    Nat.lt_trans (Nat.add_lt_add_left (by decide) _) hstop
  simp [performRound, address_of_place, roundBlock_eq, mix_eq p hround, plus_of_lt hlower,
    overwrite_lower pad hi, Engine.performRound]

theorem performRounds_eq (store : Engine.Store) (pad : Scratchpad) (seed : Digest) :
    loop (performRound p (.ofVectors store)) roundCount (memoryBytes pad, seed) =
      .done (memoryBytes (performRounds p store pad seed roundCount).1,
        (performRounds p store pad seed roundCount).2) := by
  apply loop_of_turns fun round =>
    (memoryBytes (performRounds p store pad seed round).1, (performRounds p store pad seed round).2)
  intro round hround
  rw [performRound_eq p store hround]
  rfl

theorem execute_eq (store : Engine.Store) (pad : Scratchpad) (seed : Digest) :
    execute p (.ofVectors store) (memoryBytes pad) seed =
      .done ((Engine.execute p store pad seed).1, memoryBytes (Engine.execute p store pad seed).2) := by
  -- the rounds are named first, so that they are never unrolled
  have hloop := performRounds_eq p store (Keystream.fill p pad seed) seed
  rcases hrounds : performRounds p store (Keystream.fill p pad seed) seed roundCount with ⟨pad', state⟩
  rw [hrounds] at hloop
  simp [execute, Keystream.fillBytes_memoryBytes, hloop, Engine.execute, hrounds, finalHash,
    Digest.push_eq_append]

/-! ## Machines -/

/-- A machine with its memories laid out as bytes. -/
def Machine.ofVectors (m : Engine.Machine) : Machine :=
  { store := .ofVectors m.store
    scratchpad := memoryBytes m.scratchpad
    held := m.held }

namespace Machine

theorem new_eq (store : Engine.Store) : new (.ofVectors store) = ofVectors (Engine.Machine.new store) := by
  unfold new Engine.Machine.new ofVectors
  rw [scratchpadSize, zeros_eq_memoryBytes]

@[simp] theorem work_eq (m : Engine.Machine) (seed : Digest) :
    (ofVectors m).work p seed = .done ((m.work p seed).1, ofVectors (m.work p seed).2) := by
  obtain ⟨store, pad, held⟩ := m
  have hexecute := execute_eq p store pad seed
  rcases hresult : Engine.execute p store pad seed with ⟨hash, pad'⟩
  rw [hresult] at hexecute
  simp [work, ofVectors, hexecute, Engine.Machine.work, hresult]

/-- What is held back is changed alike on both sides. -/
theorem hold_ofVectors (m : Engine.Machine) (held : Option Digest) :
    { ofVectors m with held } = ofVectors { m with held } := rfl

@[simp] theorem answer_eq (m : Engine.Machine) (request : Request) :
    (ofVectors m).answer p request = .done ((m.answer p request).1, ofVectors (m.answer p request).2) := by
  have hheld : (ofVectors m).held = m.held := rfl
  have hseedOf (input : ByteArray) : (ofVectors m).store.seedOf p input = m.store.seedOf p input := rfl
  cases request with
  | hash input =>
    simp only [answer, hseedOf, work_eq, done_bind, pure_eq_done, Engine.Machine.answer,
      Engine.Machine.hash]
  | prime input => rfl
  | advance input =>
    simp only [answer, hseedOf, hheld, hold_ofVectors, work_eq, done_bind, pure_eq_done,
      Engine.Machine.answer, Engine.Machine.advance]
  | drain =>
    cases hslot : m.held with
    | none => simp only [answer, hheld, hslot, pure_eq_done, Engine.Machine.answer, Engine.Machine.drain]
    | some seed =>
      simp only [answer, hheld, hslot, hold_ofVectors, work_eq, done_bind, pure_eq_done,
        Engine.Machine.answer, Engine.Machine.drain]
  | isHolding => rfl

end Machine

end Flat

end NonceSweep.Engine
