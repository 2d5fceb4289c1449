import NonceSweep.Block

/-!
# SHA-256

Merkle–Damgård hashing over blocks of 64 bytes, read as big-endian words. The message is followed by the
bit `1`, zeros, and its length in bits.
-/

namespace NonceSweep.Sha256

/-- The eight chaining words. -/
structure Chain where
  (a b c d e f g h : UInt32)

def initial : Chain :=
  ⟨0x6a09e667, 0xbb67ae85, 0x3c6ef372, 0xa54ff53a, 0x510e527f, 0x9b05688c, 0x1f83d9ab, 0x5be0cd19⟩

def roundConstants : List UInt32 :=
  [0x428a2f98, 0x71374491, 0xb5c0fbcf, 0xe9b5dba5, 0x3956c25b, 0x59f111f1, 0x923f82a4, 0xab1c5ed5,
   0xd807aa98, 0x12835b01, 0x243185be, 0x550c7dc3, 0x72be5d74, 0x80deb1fe, 0x9bdc06a7, 0xc19bf174,
   0xe49b69c1, 0xefbe4786, 0x0fc19dc6, 0x240ca1cc, 0x2de92c6f, 0x4a7484aa, 0x5cb0a9dc, 0x76f988da,
   0x983e5152, 0xa831c66d, 0xb00327c8, 0xbf597fc7, 0xc6e00bf3, 0xd5a79147, 0x06ca6351, 0x14292967,
   0x27b70a85, 0x2e1b2138, 0x4d2c6dfc, 0x53380d13, 0x650a7354, 0x766a0abb, 0x81c2c92e, 0x92722c85,
   0xa2bfe8a1, 0xa81a664b, 0xc24b8b70, 0xc76c51a3, 0xd192e819, 0xd6990624, 0xf40e3585, 0x106aa070,
   0x19a4c116, 0x1e376c08, 0x2748774c, 0x34b0bcb5, 0x391c0cb3, 0x4ed8aa4a, 0x5b9cca4f, 0x682e6ff3,
   0x748f82ee, 0x78a5636f, 0x84c87814, 0x8cc70208, 0x90befffa, 0xa4506ceb, 0xbef9a3f7, 0xc67178f2]

/-- Rotation towards the low end. -/
@[inline] def rotateRight (x n : UInt32) : UInt32 :=
  (x >>> n) ||| (x <<< (32 - n))

/-- One round per constant. `w0` to `w15` are the next sixteen words of the message schedule. -/
def rounds : List UInt32 → (a b c d e f g h : UInt32) →
    (w0 w1 w2 w3 w4 w5 w6 w7 w8 w9 w10 w11 w12 w13 w14 w15 : UInt32) → Chain
  | [], a, b, c, d, e, f, g, h, _, _, _, _, _, _, _, _, _, _, _, _, _, _, _, _ =>
    ⟨a, b, c, d, e, f, g, h⟩
  | k :: ks, a, b, c, d, e, f, g, h,
    w0, w1, w2, w3, w4, w5, w6, w7, w8, w9, w10, w11, w12, w13, w14, w15 =>
    let choice := (e &&& f) ^^^ (~~~e &&& g)
    let majority := (a &&& b) ^^^ (a &&& c) ^^^ (b &&& c)
    let sigma1 := rotateRight e 6 ^^^ rotateRight e 11 ^^^ rotateRight e 25
    let sigma0 := rotateRight a 2 ^^^ rotateRight a 13 ^^^ rotateRight a 22
    let t := h + sigma1 + choice + k + w0
    let early := rotateRight w1 7 ^^^ rotateRight w1 18 ^^^ (w1 >>> 3)
    let late := rotateRight w14 17 ^^^ rotateRight w14 19 ^^^ (w14 >>> 10)
    rounds ks (t + sigma0 + majority) a b c (d + t) e f g
      w1 w2 w3 w4 w5 w6 w7 w8 w9 w10 w11 w12 w13 w14 w15 (w0 + early + w9 + late)

/-- The four bytes from position `i` on as a word, high byte first. -/
@[inline] def bigEndian (data : ByteArray) (i : Nat) : UInt32 :=
  ((Bytes.byteAt data i).toUInt32 <<< 24) ||| ((Bytes.byteAt data (i + 1)).toUInt32 <<< 16) |||
    ((Bytes.byteAt data (i + 2)).toUInt32 <<< 8) ||| (Bytes.byteAt data (i + 3)).toUInt32

/-- Folds the block at position `i` into the chain. -/
def compress (s : Chain) (data : ByteArray) (i : Nat) : Chain :=
  let t := rounds roundConstants s.a s.b s.c s.d s.e s.f s.g s.h
    (bigEndian data i) (bigEndian data (i + 4)) (bigEndian data (i + 8)) (bigEndian data (i + 12))
    (bigEndian data (i + 16)) (bigEndian data (i + 20)) (bigEndian data (i + 24)) (bigEndian data (i + 28))
    (bigEndian data (i + 32)) (bigEndian data (i + 36)) (bigEndian data (i + 40)) (bigEndian data (i + 44))
    (bigEndian data (i + 48)) (bigEndian data (i + 52)) (bigEndian data (i + 56)) (bigEndian data (i + 60))
  ⟨s.a + t.a, s.b + t.b, s.c + t.c, s.d + t.d, s.e + t.e, s.f + t.f, s.g + t.g, s.h + t.h⟩

/-- Folds `count` blocks from position `i` on. -/
def absorb (data : ByteArray) : (count i : Nat) → Chain → Chain
  | 0, _, s => s
  | count + 1, i, s => absorb data count (i + Block.size) (compress s data i)

/-- Number of zero bytes between the bit `1` and the length, so that whole blocks result. -/
def padding (length : Nat) : Nat :=
  (Block.size - (length + 9) % Block.size) % Block.size

/-- Appends the eight bytes of a word, high byte first. -/
def pushBigEndian (bytes : ByteArray) (w : UInt64) : ByteArray :=
  let shifts : List UInt64 := [56, 48, 40, 32, 24, 16, 8, 0]
  shifts.foldl (fun acc shift => acc.push (w >>> shift).toUInt8) bytes

def padded (data : ByteArray) : ByteArray :=
  let zeros := (List.replicate (padding data.size) (0 : UInt8)).foldl ByteArray.push (data.push 0x80)
  pushBigEndian zeros (UInt64.ofNat (8 * data.size))

/-- A word with its bytes in the opposite order. -/
@[inline] def reversed (w : UInt32) : UInt32 :=
  let middle : UInt32 := 0xff00
  (w <<< 24) ||| ((w &&& middle) <<< 8) ||| ((w >>> 8) &&& middle) ||| (w >>> 24)

/-- The lane that holds two big-endian words. -/
@[inline] def lane (first second : UInt32) : UInt64 :=
  (reversed first).toUInt64 ||| ((reversed second).toUInt64 <<< 32)

def hash (data : ByteArray) : Digest :=
  let message := padded data
  let s := absorb message (message.size / Block.size) 0 initial
  ⟨lane s.a s.b, lane s.c s.d, lane s.e s.f, lane s.g s.h⟩

end NonceSweep.Sha256
