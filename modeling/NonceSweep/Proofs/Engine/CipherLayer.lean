import NonceSweep.Proofs.Engine.Flattening
import NonceSweep.Proofs.Primitive.CipherRound

/-!
# The cipher loses no state

Memories are filled, and one mixer in three works, by rounds of encryption alone. As a round under a fixed key
is a bijection of cells, so is everything that is made of such rounds: the way from one cell of the keystream
to the next, and the mixing of a block into a state. Different starting cells are never led to the same cell,
however far the stream goes, and no two states are mixed into one.

What is said about filled strings holds of each part by its number, whatever the string held and however long
it is. For this the stream is cut into parts of the size of a cell.

## Layers

- **Parts**: `part`, and the parts of digests and blocks
- **Filling**: `part_fillBytes`, `extract_fillBytes_behind`, `exists_extract_fillBytes_eq_append`,
  `part_fillBytes_ne`
- **Mixing**: `cipherMix_bijective`, `part_cipherMix`

## Main result

- `cipher_loses_no_state`: all of this about the bytes, on flat memory as well
-/

namespace NonceSweep.Engine

/-- Under every key, a round of encryption is a bijection of cells. -/
def Primitives.RoundsAreBijective (p : Primitives) : Prop :=
  ∀ key, Function.Bijective fun state => p.cipherRound state key

theorem Primitives.standard_roundsAreBijective : Primitives.standard.RoundsAreBijective :=
  CipherRound.encrypt_bijective

/-! ## Parts -/

/-- Part `i` of a byte string that is cut into parts of one size. -/
def part (size : Nat) (bytes : ByteArray) (i : Nat) : ByteArray :=
  bytes.extract (i * size) (i * size + size)

section Parts

variable {size : Nat} {a b c : ByteArray}

/-- The part that lies between two strings. -/
theorem part_middle {i : Nat} (ha : a.size = i * size) (hb : b.size = size) :
    part size (a ++ b ++ c) i = b := by
  rw [part, ← ha, ← hb, Bytes.extract_middle]

theorem part_first (ha : a.size = size) : part size (a ++ b) 0 = a := by
  rw [part, Nat.zero_mul, Nat.zero_add, ByteArray.extract_append_eq_left ha.symm]

theorem part_second (ha : a.size = size) (hb : b.size = size) : part size (a ++ b) 1 = b := by
  rw [← ByteArray.append_empty (b := a ++ b)]
  exact part_middle (by rw [ha, Nat.one_mul]) hb

end Parts

theorem part_digest (d : Digest) :
    part Cell.size d.toBytes 0 = d.front.toBytes ∧ part Cell.size d.toBytes 1 = d.back.toBytes := by
  rw [Digest.toBytes_eq_cells]
  exact ⟨part_first (Cell.size_toBytes _), part_second (Cell.size_toBytes _) (Cell.size_toBytes _)⟩

theorem part_block (b : Block) :
    part Digest.size b.toBytes 0 = b.lower.toBytes ∧ part Digest.size b.toBytes 1 = b.upper.toBytes := by
  rw [Block.toBytes_eq]
  exact ⟨part_first (Digest.size_toBytes _), part_second (Digest.size_toBytes _) (Digest.size_toBytes _)⟩

/-! ## Filling -/

variable {p : Primitives}

namespace Keystream

theorem expand_bijective (hp : p.RoundsAreBijective) (key : Cell) :
    Function.Bijective fun state => expand p state key :=
  (hp key).iterate 4

theorem cellAfter_injective (hp : p.RoundsAreBijective) (key : Cell) (count : Nat) :
    Function.Injective fun start => cellAfter p key start count :=
  (expand_bijective hp key).injective.iterate count

variable (key start : Cell)

/-- A stream goes on where a shorter one ends. -/
theorem exists_streamBytes_eq_append {m n : Nat} (hmn : m ≤ n) :
    ∃ rest, streamBytes p key start n = streamBytes p key start m ++ rest := by
  induction hmn with
  | refl => exact ⟨ByteArray.empty, ByteArray.append_empty.symm⟩
  | @step n hmn ih =>
    obtain ⟨rest, hrest⟩ := ih
    refine ⟨rest ++ (cellAfter p key start (n + 1)).toBytes, ?_⟩
    rw [streamBytes, hrest, ByteArray.append_assoc]

/-- How many bytes of a string are in whole blocks. -/
def wholeSize (buffer : ByteArray) : Nat := buffer.size - buffer.size % Block.size

/-- How many cells these bytes are. -/
def cellCount (buffer : ByteArray) : Nat := 4 * (buffer.size / Block.size)

variable (buffer : ByteArray)

theorem wholeSize_eq : wholeSize buffer = cellCount buffer * Cell.size := by
  simp only [wholeSize, cellCount, Cell.size, Block.size]
  omega

/-- The stream over the whole blocks, and behind them what was there. -/
theorem fillBytes_eq_append :
    fillBytes p buffer (.ofCells key start) =
      streamBytes p key start (cellCount buffer) ++ buffer.extract (wholeSize buffer) buffer.size := by
  rw [wholeSize_eq]
  exact fillBytes_eq_writtenOver p buffer (.ofCells key start)

theorem size_stream_of_cellCount :
    (streamBytes p key start (cellCount buffer)).size = wholeSize buffer := by
  rw [wholeSize_eq, size_streamBytes]

theorem extract_fillBytes_whole :
    (fillBytes p buffer (.ofCells key start)).extract 0 (wholeSize buffer) =
      streamBytes p key start (cellCount buffer) := by
  rw [fillBytes_eq_append, ByteArray.extract_append_eq_left (size_stream_of_cellCount key start buffer).symm]

/-- Bytes that are no whole block stay. -/
theorem extract_fillBytes_behind :
    (fillBytes p buffer (.ofCells key start)).extract (wholeSize buffer) buffer.size =
      buffer.extract (wholeSize buffer) buffer.size := by
  have hsize := size_fillBytes p buffer (.ofCells key start)
  rw [fillBytes_eq_append] at hsize ⊢
  rw [ByteArray.size_append, size_stream_of_cellCount] at hsize
  rw [ByteArray.extract_append_eq_right (size_stream_of_cellCount key start buffer).symm]
  rw [size_stream_of_cellCount, hsize]

theorem part_fillBytes {q : Nat} (hq : q * Cell.size < wholeSize buffer) :
    part Cell.size (fillBytes p buffer (.ofCells key start)) q = (cellAfter p key start (q + 1)).toBytes := by
  rw [wholeSize_eq, Nat.mul_lt_mul_right (by decide)] at hq
  obtain ⟨rest, hrest⟩ := exists_streamBytes_eq_append (p := p) key start (Nat.succ_le_of_lt hq)
  rw [fillBytes_eq_append, hrest, streamBytes, ByteArray.append_assoc (b := rest)]
  exact part_middle (size_streamBytes p key start q) (Cell.size_toBytes _)

/-- What is written to a shorter string is the beginning of what is written to a longer one. -/
theorem exists_extract_fillBytes_eq_append {shorter longer : ByteArray} (hsize : shorter.size ≤ longer.size) :
    ∃ rest, (fillBytes p longer (.ofCells key start)).extract 0 (wholeSize longer) =
      (fillBytes p shorter (.ofCells key start)).extract 0 (wholeSize shorter) ++ rest := by
  rw [extract_fillBytes_whole, extract_fillBytes_whole]
  apply exists_streamBytes_eq_append
  exact Nat.mul_le_mul_left 4 (Nat.div_le_div_right hsize)

/-- Two streams under one key never meet. -/
theorem part_fillBytes_ne (hp : p.RoundsAreBijective) {start start' : Cell} (hne : start ≠ start')
    {buffer buffer' : ByteArray} {q : Nat} (hq : q * Cell.size < wholeSize buffer)
    (hq' : q * Cell.size < wholeSize buffer') :
    part Cell.size (fillBytes p buffer (.ofCells key start)) q ≠
      part Cell.size (fillBytes p buffer' (.ofCells key start')) q := by
  rw [part_fillBytes key start buffer hq, part_fillBytes key start' buffer' hq']
  intro h
  exact hne (cellAfter_injective hp key (q + 1) (Cell.toBytes_injective h))

end Keystream

/-! ## Mixing -/

/-- What is made of one half of a state under the two keys in the same half of a block. -/
def mixHalf (p : Primitives) (keys : Digest) (state : Cell) : Cell :=
  p.cipherRound (p.cipherRound state keys.front) keys.back

theorem mixHalf_bijective (hp : p.RoundsAreBijective) (keys : Digest) : Function.Bijective (mixHalf p keys) :=
  (hp keys.back).comp (hp keys.front)

theorem cipherMix_bijective (hp : p.RoundsAreBijective) (block : Block) :
    Function.Bijective fun state => cipherMix p state block := by
  have hlower := mixHalf_bijective hp block.lower
  have hupper := mixHalf_bijective hp block.upper
  constructor
  · intro s t h
    -- a state is known by its halves, and they are mixed apart
    have hfront : s.front = t.front := hlower.injective (congrArg Digest.front h)
    have hback : s.back = t.back := hupper.injective (congrArg Digest.back h)
    show Digest.ofCells s.front s.back = Digest.ofCells t.front t.back
    rw [hfront, hback]
  · intro d
    obtain ⟨front, hfront⟩ := hlower.surjective d.front
    obtain ⟨back, hback⟩ := hupper.surjective d.back
    refine ⟨.ofCells front back, ?_⟩
    show Digest.ofCells (mixHalf p block.lower front) (mixHalf p block.upper back) = d
    rw [hfront, hback]
    rfl

/-- One half of what comes out, from the same half of the state and of the block. -/
theorem part_cipherMix {half : Nat} (hhalf : half < 2) (state : Digest) (block : Block) :
    part Cell.size (cipherMix p state block).toBytes half =
      (mixHalf p (.ofBytes (part Digest.size block.toBytes half) 0)
        (.ofBytes (part Cell.size state.toBytes half) 0)).toBytes := by
  obtain ⟨hfront, hback⟩ := part_digest state
  obtain ⟨hlower, hupper⟩ := part_block block
  obtain ⟨hfirst, hsecond⟩ := part_digest (cipherMix p state block)
  obtain rfl | rfl : half = 0 ∨ half = 1 := by omega
  · rw [hfirst, hfront, hlower, Digest.ofBytes_toBytes, Cell.ofBytes_toBytes]
    rfl
  · rw [hsecond, hback, hupper, Digest.ofBytes_toBytes, Cell.ofBytes_toBytes]
    rfl

/-! ## The cipher as a whole -/

/-- **The cipher loses no state.** The encryption round of AES is a bijection of cells under every key, and
    for any round that is one, so are four of them. Filling keeps the length of a string and the bytes behind
    its last whole block; part `q` of the whole blocks is what `q + 1` times four rounds make of the starting
    cell, whatever the string held. So a shorter string is filled with the beginning of what a longer one is
    filled with, and strings that are filled from different starting cells under one key differ in every
    part. Memories are filled as their bytes are, and on flat memory all of this is done without breaking
    off. Under every block the mixer is a bijection of states, and each half of what it makes depends on the
    same half of the state and of the block alone. -/
theorem cipher_loses_no_state :
    Primitives.standard.RoundsAreBijective ∧
    ∀ p : Primitives, p.RoundsAreBijective →
      let fourRounds (key : Cell) : Cell → Cell := (fun state => p.cipherRound state key)^[4]
      let fill (buffer : ByteArray) (key start : Cell) := Keystream.fillBytes p buffer (.ofCells key start)
      (∀ key, Function.Bijective (fourRounds key)) ∧
      (∀ buffer key start,
        Flat.fill p buffer (.ofCells key start) = .done (fill buffer key start) ∧
        (fill buffer key start).size = buffer.size ∧
        (fill buffer key start).extract (Keystream.wholeSize buffer) buffer.size =
          buffer.extract (Keystream.wholeSize buffer) buffer.size ∧
        ∀ q, q * Cell.size < Keystream.wholeSize buffer →
          part Cell.size (fill buffer key start) q = ((fourRounds key)^[q + 1] start).toBytes) ∧
      (∀ shorter longer key start, shorter.size ≤ longer.size →
        ∃ rest, (fill longer key start).extract 0 (Keystream.wholeSize longer) =
          (fill shorter key start).extract 0 (Keystream.wholeSize shorter) ++ rest) ∧
      (∀ buffer buffer' key start start', start ≠ start' →
        ∀ q, q * Cell.size < Keystream.wholeSize buffer → q * Cell.size < Keystream.wholeSize buffer' →
          part Cell.size (fill buffer key start) q ≠ part Cell.size (fill buffer' key start') q) ∧
      (∀ (n : Nat) (memory : Vector Block n) (key start : Cell),
        memoryBytes (Keystream.fill p memory (.ofCells key start)) = fill (memoryBytes memory) key start) ∧
      (∀ block, Function.Bijective fun state => cipherMix p state block) ∧
      (∀ state block, Flat.cipherMix p state block = .done (cipherMix p state block)) ∧
      (∀ half < 2, ∀ state state' block block',
        part Cell.size state.toBytes half = part Cell.size state'.toBytes half →
        part Digest.size block.toBytes half = part Digest.size block'.toBytes half →
        part Cell.size (cipherMix p state block).toBytes half =
          part Cell.size (cipherMix p state' block').toBytes half) := by
  refine ⟨Primitives.standard_roundsAreBijective, ?_⟩
  intro p hp fourRounds fill
  refine ⟨Keystream.expand_bijective hp, ?_, ?_, ?_, ?_, cipherMix_bijective hp, Flat.cipherMix_eq p, ?_⟩
  · intro buffer key start
    exact ⟨Flat.fill_eq p buffer _, Keystream.size_fillBytes p buffer _,
      Keystream.extract_fillBytes_behind key start buffer,
      fun q hq => Keystream.part_fillBytes key start buffer hq⟩
  · intro shorter longer key start hsize
    exact Keystream.exists_extract_fillBytes_eq_append key start hsize
  · intro buffer buffer' key start start' hne q hq hq'
    exact Keystream.part_fillBytes_ne key hp hne hq hq'
  · intro n memory key start
    exact (Keystream.fillBytes_memoryBytes p memory _).symm
  · intro half hhalf state state' block block' hstate hblock
    rw [part_cipherMix hhalf, part_cipherMix hhalf, hstate, hblock]

/-- The cipher of the standard engine over strings of 70 and of 130 bytes, with two starting cells that differ
    in one bit, and two states that do. -/
theorem two_streams_over_seventy_bytes :
    let p := Primitives.standard
    let shorter := Flat.zeros 70
    let longer : ByteArray := ⟨Array.replicate 130 0xff⟩
    let key : Cell := ⟨1, 2⟩
    let start : Cell := ⟨3, 4⟩
    let other : Cell := ⟨3, 5⟩
    let filled := Keystream.fillBytes p shorter (.ofCells key start)
    p.RoundsAreBijective ∧
    filled.extract 64 70 = Flat.zeros 6 ∧
    part Cell.size filled 1 = (((fun state => p.cipherRound state key)^[4])^[2] start).toBytes ∧
    (∃ rest, (Keystream.fillBytes p longer (.ofCells key start)).extract 0 128 = filled.extract 0 64 ++ rest) ∧
    part Cell.size filled 3 ≠ part Cell.size (Keystream.fillBytes p longer (.ofCells key other)) 3 ∧
    cipherMix p (.ofCells key start) .zero ≠ cipherMix p (.ofCells key other) .zero ∧
    part Cell.size (cipherMix p (.ofCells key start) .zero).toBytes 0 =
      part Cell.size (cipherMix p (.ofCells key other) .zero).toBytes 0 := by
  intro p shorter longer key start other filled
  obtain ⟨hp, hcipher⟩ := cipher_loses_no_state
  obtain ⟨-, hfill, hprefix, hdiffer, -, hbijective, -, hhalves⟩ := hcipher p hp
  have hne : start ≠ other := by decide
  have hshorter : shorter.size = 70 := Flat.size_zeros 70
  have hlonger : longer.size = 130 := Array.size_replicate
  have hwhole : Keystream.wholeSize shorter = 64 := by rw [Keystream.wholeSize, hshorter]; rfl
  have hwhole' : Keystream.wholeSize longer = 128 := by rw [Keystream.wholeSize, hlonger]; rfl
  have hzeros : shorter.extract 64 70 = Flat.zeros 6 := by decide
  obtain ⟨-, -, hbehind, hpart⟩ := hfill shorter key start
  have hbegin := hprefix shorter longer key start (by rw [hshorter, hlonger]; decide)
  have hthird := hdiffer shorter longer key start other hne 3
  have hstates : Digest.ofCells key start ≠ .ofCells key other := by decide
  rw [hwhole, hshorter] at hbehind
  rw [hwhole] at hpart hthird
  rw [hwhole, hwhole'] at hbegin
  rw [hwhole'] at hthird
  refine ⟨hp, hbehind.trans hzeros, hpart 1 (by decide), hbegin, hthird (by decide) (by decide), ?_, ?_⟩
  · exact fun h => hstates ((hbijective .zero).injective h)
  · exact hhalves 0 (by decide) _ _ _ _ (by decide) rfl

end NonceSweep.Engine
