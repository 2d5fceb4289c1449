import NonceSweep.Block

/-!
# BLAKE3

The tree hash with its three modes (plain, keyed, key derivation) and the first 64 bytes of its
extendable output.

## Structure

A message is cut into chunks of 1024 bytes, a chunk into blocks of 64 bytes. Each chunk is a chain of
compressions. Chunks are the leaves of a binary tree in which every left subtree is complete: it holds the
largest power of two of chunks that leaves at least one for the right. A `Node` is a compression that has
not been made yet, since the root is compressed with a flag of its own.
-/

namespace NonceSweep.Blake3

/-! ## The compression function -/

/-- The sixteen words of the compression state. -/
structure State where
  (v0 v1 v2 v3 v4 v5 v6 v7 v8 v9 v10 v11 v12 v13 v14 v15 : UInt32)

/-- Rotation towards the low end. -/
@[inline] def rotateRight (x n : UInt32) : UInt32 :=
  (x >>> n) ||| (x <<< (32 - n))

/-- Mixes two message words into one column or diagonal of the state, and hands it on. -/
@[inline] def quarter {α : Type} (a b c d x y : UInt32) (k : UInt32 → UInt32 → UInt32 → UInt32 → α) : α :=
  let a := a + b + x
  let d := rotateRight (d ^^^ a) 16
  let c := c + d
  let b := rotateRight (b ^^^ c) 12
  let a := a + b + y
  let d := rotateRight (d ^^^ a) 8
  let c := c + d
  let b := rotateRight (b ^^^ c) 7
  k a b c d

/-- Rounds of mixing, columns before diagonals. The message words are permuted between rounds. -/
def rounds : Nat →
    (v0 v1 v2 v3 v4 v5 v6 v7 v8 v9 v10 v11 v12 v13 v14 v15 : UInt32) →
    (m0 m1 m2 m3 m4 m5 m6 m7 m8 m9 m10 m11 m12 m13 m14 m15 : UInt32) → State
  | 0, v0, v1, v2, v3, v4, v5, v6, v7, v8, v9, v10, v11, v12, v13, v14, v15,
    _, _, _, _, _, _, _, _, _, _, _, _, _, _, _, _ =>
    ⟨v0, v1, v2, v3, v4, v5, v6, v7, v8, v9, v10, v11, v12, v13, v14, v15⟩
  | n + 1, v0, v1, v2, v3, v4, v5, v6, v7, v8, v9, v10, v11, v12, v13, v14, v15,
    m0, m1, m2, m3, m4, m5, m6, m7, m8, m9, m10, m11, m12, m13, m14, m15 =>
    -- columns
    quarter v0 v4 v8 v12 m0 m1 fun v0 v4 v8 v12 =>
    quarter v1 v5 v9 v13 m2 m3 fun v1 v5 v9 v13 =>
    quarter v2 v6 v10 v14 m4 m5 fun v2 v6 v10 v14 =>
    quarter v3 v7 v11 v15 m6 m7 fun v3 v7 v11 v15 =>
    -- diagonals
    quarter v0 v5 v10 v15 m8 m9 fun v0 v5 v10 v15 =>
    quarter v1 v6 v11 v12 m10 m11 fun v1 v6 v11 v12 =>
    quarter v2 v7 v8 v13 m12 m13 fun v2 v7 v8 v13 =>
    quarter v3 v4 v9 v14 m14 m15 fun v3 v4 v9 v14 =>
    rounds n v0 v1 v2 v3 v4 v5 v6 v7 v8 v9 v10 v11 v12 v13 v14 v15
      m2 m6 m3 m10 m7 m0 m4 m13 m1 m11 m12 m5 m9 m14 m15 m8

@[inline] def low (w : UInt64) : UInt32 := w.toUInt32

@[inline] def high (w : UInt64) : UInt32 := (w >>> 32).toUInt32

@[inline] def join (lo hi : UInt32) : UInt64 := lo.toUInt64 ||| (hi.toUInt64 <<< 32)

@[inline] def mixed (chain : Digest) (message : Block) (counter : UInt64) (length flags : UInt32) : State :=
  rounds 7
    (low chain.lane0) (high chain.lane0) (low chain.lane1) (high chain.lane1)
    (low chain.lane2) (high chain.lane2) (low chain.lane3) (high chain.lane3)
    0x6a09e667 0xbb67ae85 0x3c6ef372 0xa54ff53a (low counter) (high counter) length flags
    (low message.lower.lane0) (high message.lower.lane0)
    (low message.lower.lane1) (high message.lower.lane1)
    (low message.lower.lane2) (high message.lower.lane2)
    (low message.lower.lane3) (high message.lower.lane3)
    (low message.upper.lane0) (high message.upper.lane0)
    (low message.upper.lane1) (high message.upper.lane1)
    (low message.upper.lane2) (high message.upper.lane2)
    (low message.upper.lane3) (high message.upper.lane3)

/-- The first half of a compression: its chaining value. -/
def State.digest (s : State) : Digest :=
  ⟨join (s.v0 ^^^ s.v8) (s.v1 ^^^ s.v9), join (s.v2 ^^^ s.v10) (s.v3 ^^^ s.v11),
    join (s.v4 ^^^ s.v12) (s.v5 ^^^ s.v13), join (s.v6 ^^^ s.v14) (s.v7 ^^^ s.v15)⟩

/-- The second half of a compression, which feeds the chaining value that went in forward. -/
def State.extension (s : State) (chain : Digest) : Digest :=
  Digest.xor chain ⟨join s.v8 s.v9, join s.v10 s.v11, join s.v12 s.v13, join s.v14 s.v15⟩

/-- Compresses one block and keeps the chaining value. -/
def compress (chain : Digest) (message : Block) (counter : UInt64) (length flags : UInt32) : Digest :=
  (mixed chain message counter length flags).digest

/-! ## Flags and modes -/

namespace Flag
/-- The first block of a chunk. -/
def chunkStart : UInt32 := 1
/-- The last block of a chunk. -/
def chunkEnd : UInt32 := 2
/-- An inner node of the tree. -/
def parent : UInt32 := 4
/-- The node whose output is the result. -/
def root : UInt32 := 8
/-- Every compression of a keyed hash. -/
def keyedHash : UInt32 := 16
/-- Every compression over the context of a key derivation. -/
def deriveKeyContext : UInt32 := 32
/-- Every compression over the material of a key derivation. -/
def deriveKeyMaterial : UInt32 := 64
end Flag

/-- The chaining value that unkeyed chunks start from. -/
def initial : Digest :=
  ⟨0xbb67ae856a09e667, 0xa54ff53a3c6ef372, 0x9b05688c510e527f, 0x5be0cd191f83d9ab⟩

/-- What all compressions of one message share. -/
structure Mode where
  /-- Where every chunk's chain starts, and what parents chain from. -/
  key : Digest
  /-- Flags set on every compression. -/
  flags : UInt32

def Mode.plain : Mode := ⟨initial, 0⟩

def Mode.keyed (key : Digest) : Mode := ⟨key, Flag.keyedHash⟩

/-! ## The tree -/

/-- A compression that has not been made yet. -/
structure Node where
  chain : Digest
  message : Block
  counter : UInt64
  length : UInt32
  flags : UInt32

/-- What a node hands to its parent. -/
def Node.chainingValue (n : Node) : Digest :=
  compress n.chain n.message n.counter n.length n.flags

/-- The first 64 bytes that a node gives out as the root. -/
def Node.output (n : Node) : Block :=
  let s := mixed n.chain n.message 0 n.length (n.flags ||| Flag.root)
  ⟨s.digest, s.extension n.chain⟩

def chunkSize : Nat := 1024

/-- Chains `count` full blocks from position `i` on; `start` marks the first block of the chunk. -/
def absorb (mode : Mode) (data : ByteArray) (counter : UInt64) :
    (count i : Nat) → (start : UInt32) → Digest → Digest
  | 0, _, _, chain => chain
  | count + 1, i, start, chain =>
    absorb mode data counter count (i + Block.size) 0
      (compress chain (Block.ofBytes data i) counter 64 (mode.flags ||| start))

/-- Chunk `index` of the message. The last block, and only it, may be short; the empty message has
one empty block. -/
def chunk (mode : Mode) (data : ByteArray) (index : Nat) : Node :=
  let first := chunkSize * index
  let length := min chunkSize (data.size - first)
  let full := (length - 1) / Block.size
  let last := first + Block.size * full
  let start := if full = 0 then Flag.chunkStart else 0
  { chain := absorb mode data (UInt64.ofNat index) full first Flag.chunkStart mode.key
    message := Block.ofBytes data last
    counter := UInt64.ofNat index
    length := UInt32.ofNat (length - Block.size * full)
    flags := mode.flags ||| start ||| Flag.chunkEnd }

/-- Chunks of the left subtree: the largest power of two below `count`. -/
def leftChunks (count : Nat) : Nat := Nat.pow 2 (Nat.log2 (count - 1))

theorem leftChunks_pos (count : Nat) : 0 < leftChunks count :=
  Nat.two_pow_pos _

theorem leftChunks_lt {count : Nat} (h : 2 ≤ count) : leftChunks count < count := by
  have hlog : leftChunks count ≤ count - 1 := Nat.log2_self_le (by omega)
  omega

/-- The subtree over `count` chunks from chunk `first` on. -/
def subtree (mode : Mode) (data : ByteArray) (first count : Nat) : Node :=
  if count < 2 then chunk mode data first
  else
    let left := leftChunks count
    { chain := mode.key
      message :=
        ⟨(subtree mode data first left).chainingValue,
          (subtree mode data (first + left) (count - left)).chainingValue⟩
      counter := 0
      length := 64
      flags := mode.flags ||| Flag.parent }
termination_by count
decreasing_by
  · exact leftChunks_lt (by omega)
  · have := leftChunks_pos count
    omega

def root (mode : Mode) (data : ByteArray) : Node :=
  subtree mode data 0 ((data.size + chunkSize - 1) / chunkSize)

/-! ## The functions -/

def hash (data : ByteArray) : Digest :=
  (root .plain data).output.lower

/-- The hash of a message under a key. -/
def keyedHash (key : Digest) (data : ByteArray) : Digest :=
  (root (.keyed key) data).output.lower

/-- The first 64 bytes of the keyed, extendable output. -/
def keyedOutput (key : Digest) (data : ByteArray) : Block :=
  (root (.keyed key) data).output

/-- A key for one purpose, named by `context`, from key material. -/
def deriveKey (context : String) (material : ByteArray) : Digest :=
  let contextKey := (root ⟨initial, Flag.deriveKeyContext⟩ context.toUTF8).output.lower
  (root ⟨contextKey, Flag.deriveKeyMaterial⟩ material).output.lower

end NonceSweep.Blake3
