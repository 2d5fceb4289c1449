import NonceSweep.Engine.Backend
import NonceSweep.Proofs.Layout
import NonceSweep.Proofs.Engine.OneSlot

/-!
# The engine on flat memory

The engine holds its memories as vectors of blocks, and a block is named by a number that is in range by its
type. Here it is once more as a machine runs it: memories are byte strings, a block is found by the offset
of its first byte, and every access is checked. A sum or a product that does not fit into a 64-bit word, a
part that does not lie inside its string, and a copy between parts of different sizes break off.

What has a fixed size by its type, such as a state or an item, is a value here too; it is written out as
bytes when a part of it is wanted.

## Layers

- **Checked operations**: `plus`, `times`, `slice`, `overwrite`, `exactly`
- **Filling and mixing**: `fill`, `cipherMix`, `address`
- **Memory and machines**: `Store`, `performRound`, `Machine`
-/

namespace NonceSweep.Engine.Flat

/-! ## Checked operations -/

/-- The sum of two words. -/
def plus (a b : Nat) : Attempt Nat := if a + b < UInt64.size then .done (a + b) else .panicked

/-- The product of two words. -/
def times (a b : Nat) : Attempt Nat := if a * b < UInt64.size then .done (a * b) else .panicked

/-- The bytes from `start` to before `stop`. -/
def slice (bytes : ByteArray) (start stop : Nat) : Attempt ByteArray :=
  if start ≤ stop ∧ stop ≤ bytes.size then .done (bytes.extract start stop) else .panicked

/-- Copies a string over the bytes from `start` to before `stop`, which have to be as many. -/
def overwrite (bytes : ByteArray) (start stop : Nat) (source : ByteArray) : Attempt ByteArray :=
  if start ≤ stop ∧ stop ≤ bytes.size ∧ stop - start = source.size then
    .done (bytes.extract 0 start ++ source ++ bytes.extract stop bytes.size)
  else .panicked

/-- Reads a value of a fixed size from a string that has to have this size. -/
def exactly {α : Type} (size : Nat) (read : ByteArray → Nat → α) (bytes : ByteArray) : Attempt α :=
  if bytes.size = size then .done (read bytes 0) else .panicked

def cell : ByteArray → Attempt Cell := exactly Cell.size Cell.ofBytes

def block : ByteArray → Attempt Block := exactly Block.size Block.ofBytes

/-- The byte at a position. -/
def byte (bytes : ByteArray) (i : Nat) : Attempt UInt8 :=
  if i < bytes.size then .done (Bytes.byteAt bytes i) else .panicked

/-- The word in the eight bytes of lane `i`. -/
def lane (bytes : ByteArray) (i : Nat) : Attempt UInt64 := do
  let start ← times i 8
  let stop ← plus start 8
  exactly 8 Bytes.word64 (← slice bytes start stop)

/-! ### When they succeed -/

@[simp] theorem done_bind {α β : Type} (a : α) (f : α → Attempt β) : (Attempt.done a >>= f) = f a := rfl

@[simp] theorem pure_eq_done {α : Type} (a : α) : (pure a : Attempt α) = .done a := rfl

theorem plus_of_lt {a b : Nat} (h : a + b < UInt64.size) : plus a b = .done (a + b) := if_pos h

theorem times_of_lt {a b : Nat} (h : a * b < UInt64.size) : times a b = .done (a * b) := if_pos h

theorem slice_of_le {bytes : ByteArray} {start stop : Nat} (hle : start ≤ stop)
    (hsize : stop ≤ bytes.size) : slice bytes start stop = .done (bytes.extract start stop) :=
  if_pos ⟨hle, hsize⟩

theorem exactly_of_size {α : Type} {size : Nat} (read : ByteArray → Nat → α) {bytes : ByteArray}
    (h : bytes.size = size) : exactly size read bytes = .done (read bytes 0) := if_pos h

theorem byte_of_lt {bytes : ByteArray} {i : Nat} (h : i < bytes.size) :
    byte bytes i = .done (Bytes.byteAt bytes i) := if_pos h

/-- The first one of two parts is taken out. -/
theorem slice_front {a b : ByteArray} {stop : Nat} (hstop : stop = a.size) :
    slice (a ++ b) 0 stop = .done a := by
  subst hstop
  rw [slice_of_le (Nat.zero_le _) (by simp), ByteArray.extract_append_eq_left rfl]

/-- The second one of two parts is taken out. -/
theorem slice_back {a b : ByteArray} {start : Nat} (hstart : start = a.size) :
    slice (a ++ b) start (a ++ b).size = .done b := by
  subst hstart
  rw [slice_of_le (by simp) (Nat.le_refl _),
    ByteArray.extract_append_eq_right rfl ByteArray.size_append]

/-- The middle one of three parts is taken out. -/
theorem slice_middle {a b c : ByteArray} {start stop : Nat} (hstart : start = a.size)
    (hstop : stop = a.size + b.size) : slice (a ++ b ++ c) start stop = .done b := by
  subst hstart hstop
  rw [slice_of_le (Nat.le_add_right _ _) (by simp), Bytes.extract_middle]

/-- The middle one of three parts is replaced. -/
theorem overwrite_middle {a b c source : ByteArray} {start stop : Nat} (hstart : start = a.size)
    (hstop : stop = a.size + b.size) (hsource : source.size = b.size) :
    overwrite (a ++ b ++ c) start stop source = .done (a ++ source ++ c) := by
  subst hstart hstop
  have hfront : (a ++ b ++ c).extract 0 a.size = a := by
    rw [ByteArray.append_assoc, ByteArray.extract_append_eq_left rfl]
  have hback : (a ++ b ++ c).extract (a.size + b.size) (a ++ b ++ c).size = c :=
    ByteArray.extract_append_eq_right ByteArray.size_append.symm ByteArray.size_append
  unfold overwrite
  rw [if_pos ⟨Nat.le_add_right _ _, by simp, by omega⟩, hfront, hback]

-- one byte too far, and one byte too few
example : slice ⟨#[1, 2, 3]⟩ 1 4 = .panicked := by rfl

example : overwrite ⟨#[1, 2, 3]⟩ 1 3 ⟨#[9]⟩ = .panicked := by rfl

@[simp] theorem cell_toBytes (c : Cell) : cell c.toBytes = .done c := by
  rw [cell, exactly_of_size _ (Cell.size_toBytes c), Cell.ofBytes_toBytes]

@[simp] theorem block_toBytes (b : Block) : block b.toBytes = .done b := by
  rw [block, exactly_of_size _ (Block.size_toBytes b), Block.ofBytes_toBytes]

theorem lane_of_le {bytes : ByteArray} {i : Nat} (hsize : i * 8 + 8 ≤ bytes.size)
    (hword : i * 8 + 8 < UInt64.size) : lane bytes i = .done (Bytes.word64 bytes (i * 8)) := by
  have hlength : (bytes.extract (i * 8) (i * 8 + 8)).size = 8 := by
    simp
    omega
  simp only [lane, times_of_lt (Nat.lt_of_le_of_lt (Nat.le_add_right _ 8) hword), plus_of_lt hword,
    slice_of_le (Nat.le_add_right _ 8) hsize, exactly_of_size _ hlength, done_bind, Bytes.word64_extract]

@[simp] theorem lane_toBytes (d : Digest) {i : Nat} (hi : i < 4) :
    lane d.toBytes i = .done (Bytes.word64 d.toBytes (i * 8)) := by
  have hsize : i * 8 + 8 ≤ d.toBytes.size := by
    simp [Digest.size]
    omega
  have hword : i * 8 + 8 < UInt64.size := by
    simp only [UInt64.size]
    omega
  exact lane_of_le hsize hword

@[simp] theorem byte_toBytes_zero (d : Digest) : byte d.toBytes 0 = .done d.lane0.toUInt8 := by
  rw [byte_of_lt (by simp [Digest.size]), Digest.byteAt_toBytes_zero]

/-! ### Loops -/

/-- Runs the body of a loop with the numbers below `count`, from zero on. -/
def loop {σ : Type} (body : Nat → σ → Attempt σ) : (count : Nat) → σ → Attempt σ
  | 0, s => .done s
  | count + 1, s => do
    let s ← loop body count s
    body count s

/-- A loop comes to its end if each of its turns leads from one state to the next. -/
theorem loop_of_turns {σ : Type} {body : Nat → σ → Attempt σ} {count : Nat} (state : Nat → σ)
    (hturn : ∀ i < count, body i (state i) = .done (state (i + 1))) :
    loop body count (state 0) = .done (state count) := by
  induction count with
  | zero => rfl
  | succ count ih =>
    have hbefore := ih fun i hi => hturn i (Nat.lt_succ_of_lt hi)
    simp only [loop, hbefore, done_bind]
    exact hturn count (Nat.lt_succ_self count)

/-- The bytes of the block with a number. -/
def blockBytes (memory : ByteArray) (number : Nat) : Attempt ByteArray := do
  let start ← times number Block.size
  let stop ← plus start Block.size
  slice memory start stop

/-- A string of zeros. -/
def zeros (size : Nat) : ByteArray := ⟨Array.replicate size 0⟩

theorem size_zeros (size : Nat) : (zeros size).size = size := Array.size_replicate

theorem zeros_add (m n : Nat) : zeros (m + n) = zeros m ++ zeros n := by
  apply ByteArray.ext
  simp [zeros, Array.replicate_append_replicate]

variable (p : Primitives)

/-! ## The keystream -/

/-- Goes on to the next cell of the stream and writes it to a quarter of the block at `start`. -/
def fillQuarter (key : Cell) (start quarter : Nat) :
    ByteArray × Cell → Attempt (ByteArray × Cell)
  | (buffer, state) => do
    let state := expand p state key
    let first := start + quarter * Cell.size
    let buffer ← overwrite buffer first (first + Cell.size) state.toBytes
    return (buffer, state)

/-- Fills the whole blocks of a byte string, four cells to a block. -/
def fill (buffer : ByteArray) (seed : Digest) : Attempt ByteArray := do
  -- the first half of the seed is the key, the second half the starting cell
  let key ← cell (← slice seed.toBytes 0 Cell.size)
  let state ← cell (← slice seed.toBytes Cell.size seed.toBytes.size)
  -- bytes behind the last whole block are left alone
  let blocks := buffer.size / Block.size
  let (buffer, _) ← loop (fun i => loop (fillQuarter p key (i * Block.size)) 4) blocks (buffer, state)
  return buffer

/-! ## Mixers -/

/-- Encrypts one half of the state under the keys in one half of the block. -/
def cipherHalf (state : Digest) (block : Block) (half : Nat) (out : ByteArray) : Attempt ByteArray := do
  let start ← times half 16
  let stop ← plus start 16
  let s ← cell (← slice state.toBytes start stop)
  let first ← times half 32
  let last ← plus first 32
  -- a half of the block holds two keys
  let keys ← slice block.toBytes first last
  let s := p.cipherRound s (← cell (← slice keys 0 16))
  let s := p.cipherRound s (← cell (← slice keys 16 keys.size))
  overwrite out start stop s.toBytes

def cipherMix (state : Digest) (block : Block) : Attempt Digest := do
  let out ← loop (cipherHalf p state block) 2 (zeros Digest.size)
  exactly Digest.size Digest.ofBytes out

/-- The mixer of a round, chosen by the first byte of the state and the number of the round. -/
def mix (round : Nat) (state : Digest) (block : Block) : Attempt Digest := do
  let first ← byte state.toBytes 0
  let number ← plus first.toNat round
  match number % 3 with
  | 0 => cipherMix p state block
  | 1 => .done (p.sha256 (state.toBytes ++ block.toBytes))
  | _ => .done (p.keyedHash state block.toBytes)

/-- Where the block of a round begins. Words wrap when they are mixed, offsets do not. -/
def address (state : Digest) (round : UInt64) : Attempt Nat := do
  let first ← lane state.toBytes 0
  let second ← lane state.toBytes 1
  let mixed := first ^^^ second ^^^ rotateLeft round 13 ^^^ round * spread
  -- the number of blocks is a power of two, so that this keeps what names a block
  times (mixed.toNat &&& (scratchpadBlocks - 1)) Block.size

/-! ## Dataset items -/

/-- Hashes the cache block that a state names under this state. -/
def follow (cache : ByteArray) (state : Digest) : Attempt Digest := do
  let number := (← lane state.toBytes 0).toNat &&& (cacheBlocks - 1)
  return p.keyedHash state (← blockBytes cache number)

/-- Derives an item of the dataset from the cache. -/
def derive (cache : ByteArray) (index : UInt64) : Attempt Block := do
  let name := Bytes.ofWord64 index
  let state ← loop (fun _ => follow p cache) cacheReads (p.hash name)
  return p.keyedBlock state name

/-- Derives one item and copies it over its chunk of the dataset. The last chunk is shorter if the dataset
    is not made of whole blocks. -/
def writeItem (cache dataset : ByteArray) (index : Fin datasetItems) : Attempt ByteArray := do
  let item ← derive p cache (UInt64.ofNat index)
  let start := index * Block.size
  overwrite dataset start (min (start + Block.size) dataset.size) item.toBytes

/-! ## Stores -/

structure Store where
  options : Options
  inputKey : Digest
  cache : ByteArray
  dataset : Option ByteArray

namespace Store

def allocate (o : Options) : Store :=
  { options := o
    inputKey := .zero
    cache := zeros cacheSize
    dataset :=
      match o.profile with
      | .light => none
      | .full => some (zeros datasetSize) }

/-- Writes over the whole memory. The dataset is taken out while its items are written, and put back. -/
def seed (s : Store) (build : Build) (bytes : ByteArray) : Attempt Store := do
  let cache ← fill p s.cache (p.deriveKey Engine.Store.cachePurpose bytes)
  let s := { s with inputKey := p.deriveKey Engine.Store.inputPurpose bytes, cache }
  match s.dataset with
  | none => return s
  | some dataset =>
    -- nothing reads the dataset as long as it is out of the store
    let s := { s with dataset := none }
    let dataset ← build.order.foldlM (writeItem p s.cache) dataset
    return { s with dataset := some dataset }

/-- Item `index` of the dataset, counted modulo its length. -/
def item (s : Store) (index : UInt64) : Attempt Block := do
  let index := index % UInt64.ofNat datasetItems
  match s.dataset with
  | some dataset => block (← blockBytes dataset index.toNat)
  | none => derive p s.cache index

def seedOf (s : Store) (input : ByteArray) : Digest := p.keyedHash s.inputKey input

end Store

/-! ## Rounds -/

/-- The block that a round reads, with a dataset item folded in byte by byte if it is due. -/
def roundBlock (store : Store) (round start : Nat) (pad : ByteArray) (state : Digest) : Attempt Block := do
  let stop ← plus start Block.size
  let found ← block (← slice pad start stop)
  if round % datasetInterval = 0 then
    let item ← store.item p (← lane state.toBytes 2)
    block (Bytes.xor found.toBytes item.toBytes)
  else return found

def performRound (store : Store) (round : Nat) : ByteArray × Digest → Attempt (ByteArray × Digest)
  | (pad, state) => do
    let start ← address state (UInt64.ofNat round)
    let next ← mix p round state (← roundBlock p store round start pad state)
    -- what is written back is half as long as what was read
    let stop ← plus start Digest.size
    let pad ← overwrite pad start stop next.toBytes
    return (pad, next)

/-- The hash for a seed, and the scratchpad that is left. -/
def execute (store : Store) (pad : ByteArray) (seed : Digest) : Attempt (Digest × ByteArray) := do
  let pad ← fill p pad seed
  let (pad, state) ← loop (performRound p store) roundCount (pad, seed)
  return (p.hash (p.sha256 (state.toBytes ++ (p.hash pad).toBytes)).toBytes, pad)

/-! ## Machines -/

structure Machine where
  store : Store
  scratchpad : ByteArray
  held : Option Digest

namespace Machine

def new (store : Store) : Machine := { store, scratchpad := zeros scratchpadSize, held := none }

def work (m : Machine) (seed : Digest) : Attempt (Digest × Machine) := do
  let (hash, scratchpad) ← execute p m.store m.scratchpad seed
  return (hash, { m with scratchpad })

/-- A machine answers a request. -/
def answer (m : Machine) : Request → Attempt (Answer × Machine)
  | .hash input => do
    let (hash, m) ← m.work p (m.store.seedOf p input)
    return (.digest hash, m)
  | .prime input => return (.taken, { m with held := some (m.store.seedOf p input) })
  | .advance input => do
    let next := m.store.seedOf p input
    let previous := m.held.getD next
    let (hash, m) ← { m with held := some next }.work p previous
    return (.digest hash, m)
  | .drain =>
    match m.held with
    | none => return (.drained none, m)
    | some seed => do
      let (hash, m) ← { m with held := none }.work p seed
      return (.drained (some hash), m)
  | .isHolding => return (.holding m.held.isSome, m)

end Machine

end NonceSweep.Engine.Flat
