import NonceSweep.Block

/-!
# How words, digests and blocks lie in byte strings

A byte string is known by its size and by the byte at each position. Words, cells, digests and blocks are
written as byte strings of a fixed size, one part behind the other, and reading gives back what was
written. So a part of a longer string can be taken out, replaced or merged without looking at its bytes.

## Contents

- `Bytes.byteAt_append`, `Bytes.byteAt_extract`, `Bytes.byteAt_set`: single bytes, and `Bytes.ext_byteAt`
- `Bytes.word64_ofWord64`, `Bytes.ofWord64_word64`: words are read back, and written back
- `Bytes.xor`: the byte-wise exclusive or, which lane-wise exclusive or amounts to
- `Cell`, `Digest`, `Block`: their bytes as those of their parts
-/

namespace NonceSweep

namespace Bytes

/-! ## Single bytes -/

theorem byteAt_set (bytes : ByteArray) (i : Nat) (b : UInt8) (h : i < bytes.size) (j : Nat) :
    byteAt (bytes.set i b h) j = if i = j then b else byteAt bytes j := by
  unfold byteAt
  by_cases hj : j < bytes.size
  · rw [dif_pos (by simpa using hj), dif_pos hj]
    simp only [ByteArray.getElem_eq_getElem_data, ByteArray.data_set]
    exact Array.getElem_set ..
  · -- behind the end every byte reads as zero, written or not
    have hne : ¬ i = j := by omega
    rw [dif_neg (by simpa using hj), dif_neg hj, if_neg hne]

theorem byteAt_append (a b : ByteArray) (i : Nat) :
    byteAt (a ++ b) i = if i < a.size then byteAt a i else byteAt b (i - a.size) := by
  unfold byteAt
  by_cases hleft : i < a.size
  · rw [if_pos hleft, dif_pos hleft, dif_pos (by simp; omega), ByteArray.getElem_append_left hleft]
  · rw [if_neg hleft]
    by_cases hright : i - a.size < b.size
    · rw [dif_pos hright, dif_pos (by simp; omega), ByteArray.getElem_append_right (by omega)]
    · rw [dif_neg hright, dif_neg (by simp; omega)]

theorem byteAt_extract (bytes : ByteArray) (start stop i : Nat) :
    byteAt (bytes.extract start stop) i =
      if start + i < stop then byteAt bytes (start + i) else 0 := by
  unfold byteAt
  by_cases hinside : start + i < stop
  · rw [if_pos hinside]
    by_cases hi : start + i < bytes.size
    · rw [dif_pos hi, dif_pos (by simp; omega), ByteArray.getElem_extract]
    · rw [dif_neg hi, dif_neg (by simp; omega)]
  · rw [if_neg hinside, dif_neg (by simp; omega)]

/-- A byte string is known by its length and its bytes. -/
theorem ext_byteAt {a b : ByteArray} (hsize : a.size = b.size)
    (h : ∀ j, j < a.size → byteAt a j = byteAt b j) : a = b := by
  apply ByteArray.ext
  apply Array.ext
  · exact hsize
  · intro j hja hjb
    have hbyte := h j hja
    unfold byteAt at hbyte
    rw [dif_pos (show j < a.size from hja), dif_pos (show j < b.size from hjb)] at hbyte
    exact hbyte

/-- The middle one of three parts is found where it begins. -/
theorem extract_middle (a b c : ByteArray) :
    (a ++ b ++ c).extract a.size (a.size + b.size) = b := by
  apply ext_byteAt
  · simp
  · intro j hj
    have hj : j < b.size := by simpa using hj
    rw [byteAt_extract, if_pos (by omega), byteAt_append, if_pos (by simp; omega), byteAt_append,
      if_neg (by omega), Nat.add_sub_cancel_left]

@[simp] theorem emptyWithCapacity_append (capacity : Nat) (bytes : ByteArray) :
    ByteArray.emptyWithCapacity capacity ++ bytes = bytes :=
  ByteArray.empty_append

/-! ## Words -/

@[simp] theorem size_ofWord32 (w : UInt32) : (ofWord32 w).size = 4 := rfl

@[simp] theorem size_ofWord64 (w : UInt64) : (ofWord64 w).size = 8 := rfl

theorem push32_eq_append (bytes : ByteArray) (w : UInt32) :
    push32 bytes w = bytes ++ ofWord32 w := by
  apply ByteArray.ext
  apply Array.ext'
  simp only [push32, ByteArray.data_push, Array.toList_push, ByteArray.data_append,
    Array.toList_append, List.append_assoc]
  rfl

theorem push64_eq_append (bytes : ByteArray) (w : UInt64) :
    push64 bytes w = bytes ++ ofWord64 w := by
  simp only [push64, ofWord64, push32_eq_append, ByteArray.append_assoc]
  rfl

theorem ofWord64_eq_append (w : UInt64) :
    ofWord64 w = ofWord32 w.toUInt32 ++ ofWord32 (w >>> 32).toUInt32 := rfl

/-- A word is put together again from its four bytes. -/
theorem word32_of_bytes (bytes : ByteArray) (i : Nat) (w : UInt32)
    (h₀ : byteAt bytes i = w.toUInt8) (h₁ : byteAt bytes (i + 1) = (w >>> 8).toUInt8)
    (h₂ : byteAt bytes (i + 2) = (w >>> 16).toUInt8)
    (h₃ : byteAt bytes (i + 3) = (w >>> 24).toUInt8) : word32 bytes i = w := by
  unfold word32
  rw [h₀, h₁, h₂, h₃]
  -- as a number, a word is its four bytes as digits to the base 256
  apply UInt32.toNat_inj.mp
  have hw := w.toNat_lt
  simp only [UInt32.toNat_add, UInt32.toNat_shiftLeft, UInt8.toNat_toUInt32,
    UInt32.toNat_toUInt8, UInt32.toNat_shiftRight, Nat.shiftLeft_eq, Nat.shiftRight_eq_div_pow,
    UInt32.reduceToNat, Nat.reduceMod, Nat.reducePow]
  omega

/-- The number that four bytes stand for. -/
theorem toNat_word32 (bytes : ByteArray) (i : Nat) :
    (word32 bytes i).toNat = (byteAt bytes i).toNat + (byteAt bytes (i + 1)).toNat * 256 +
      (byteAt bytes (i + 2)).toNat * 65536 + (byteAt bytes (i + 3)).toNat * 16777216 := by
  have h₀ := (byteAt bytes i).toNat_lt
  have h₁ := (byteAt bytes (i + 1)).toNat_lt
  have h₂ := (byteAt bytes (i + 2)).toNat_lt
  have h₃ := (byteAt bytes (i + 3)).toNat_lt
  unfold word32
  simp only [UInt32.toNat_add, UInt32.toNat_shiftLeft, UInt8.toNat_toUInt32, Nat.shiftLeft_eq,
    UInt32.reduceToNat, Nat.reduceMod, Nat.reducePow]
  omega

theorem ofWord32_word32 (bytes : ByteArray) (i : Nat) (h : i + 4 ≤ bytes.size) :
    ofWord32 (word32 bytes i) = bytes.extract i (i + 4) := by
  have hvalue := toNat_word32 bytes i
  have h₀ := (byteAt bytes i).toNat_lt
  have h₁ := (byteAt bytes (i + 1)).toNat_lt
  have h₂ := (byteAt bytes (i + 2)).toNat_lt
  have h₃ := (byteAt bytes (i + 3)).toNat_lt
  -- byte by byte: each is a digit to the base 256 of the number that the four stand for
  have hbytes : ofWord32 (word32 bytes i) = List.toByteArray
      [byteAt bytes i, byteAt bytes (i + 1), byteAt bytes (i + 2), byteAt bytes (i + 3)] := by
    apply ByteArray.ext
    apply Array.ext'
    show [(word32 bytes i).toUInt8, (word32 bytes i >>> 8).toUInt8, (word32 bytes i >>> 16).toUInt8,
      (word32 bytes i >>> 24).toUInt8] = _
    simp only [List.data_toByteArray, List.cons.injEq, and_true, ← UInt8.toNat_inj,
      UInt32.toNat_toUInt8, UInt32.toNat_shiftRight, Nat.shiftRight_eq_div_pow, hvalue,
      UInt32.reduceToNat, Nat.reduceMod, Nat.reducePow]
    omega
  rw [hbytes]
  apply ext_byteAt
  · simp
    omega
  · intro j hj
    have hj : j < 4 := by simpa using hj
    rw [byteAt_extract, if_pos (by omega)]
    match j, hj with
    | 0, _ => rfl
    | 1, _ => rfl
    | 2, _ => rfl
    | 3, _ => rfl

/-- The lower half of a long word. -/
theorem toUInt32_word64 (bytes : ByteArray) (i : Nat) :
    (word64 bytes i).toUInt32 = word32 bytes i := by
  apply UInt32.toNat_inj.mp
  have hlow := (word32 bytes i).toNat_lt
  unfold word64
  simp only [UInt64.toNat_add, UInt64.toNat_shiftLeft, UInt32.toNat_toUInt64,
    UInt64.toNat_toUInt32, Nat.shiftLeft_eq, UInt64.reduceToNat, Nat.reduceMod, Nat.reducePow]
  omega

/-- The upper half of a long word. -/
theorem toUInt32_word64_shiftRight (bytes : ByteArray) (i : Nat) :
    (word64 bytes i >>> 32).toUInt32 = word32 bytes (i + 4) := by
  apply UInt32.toNat_inj.mp
  have hlow := (word32 bytes i).toNat_lt
  have hhigh := (word32 bytes (i + 4)).toNat_lt
  unfold word64
  simp only [UInt64.toNat_add, UInt64.toNat_shiftLeft, UInt32.toNat_toUInt64,
    UInt64.toNat_toUInt32, UInt64.toNat_shiftRight, Nat.shiftLeft_eq, Nat.shiftRight_eq_div_pow,
    UInt64.reduceToNat, Nat.reduceMod, Nat.reducePow]
  omega

theorem word64_ofWord64 (w : UInt64) : word64 (ofWord64 w) 0 = w := by
  have hlow : word32 (ofWord64 w) 0 = w.toUInt32 := word32_of_bytes _ _ _ rfl rfl rfl rfl
  have hhigh : word32 (ofWord64 w) (0 + 4) = (w >>> 32).toUInt32 :=
    word32_of_bytes _ _ _ rfl rfl rfl rfl
  apply UInt64.toNat_inj.mp
  have hw := w.toNat_lt
  unfold word64
  rw [hlow, hhigh]
  simp only [UInt64.toNat_add, UInt64.toNat_shiftLeft, UInt32.toNat_toUInt64,
    UInt64.toNat_toUInt32, UInt64.toNat_shiftRight, Nat.shiftLeft_eq, Nat.shiftRight_eq_div_pow,
    UInt64.reduceToNat, Nat.reduceMod, Nat.reducePow]
  omega

theorem ofWord64_word64 (bytes : ByteArray) (i : Nat) (h : i + 8 ≤ bytes.size) :
    ofWord64 (word64 bytes i) = bytes.extract i (i + 8) := by
  rw [ofWord64_eq_append, toUInt32_word64, toUInt32_word64_shiftRight,
    ofWord32_word32 bytes i (by omega), ofWord32_word32 bytes (i + 4) (by omega)]
  simp

theorem word32_extract (bytes : ByteArray) (i : Nat) :
    word32 (bytes.extract i (i + 4)) 0 = word32 bytes i := by
  have hbyte (k : Nat) (hk : k < 4) : byteAt (bytes.extract i (i + 4)) k = byteAt bytes (i + k) := by
    rw [byteAt_extract, if_pos (by omega)]
  simp only [word32, Nat.zero_add, hbyte _ (by decide : 0 < 4), hbyte _ (by decide : 1 < 4),
    hbyte _ (by decide : 2 < 4), hbyte _ (by decide : 3 < 4), Nat.add_zero]

theorem word64_extract (bytes : ByteArray) (i : Nat) :
    word64 (bytes.extract i (i + 8)) 0 = word64 bytes i := by
  have hbyte (k : Nat) (hk : k < 8) : byteAt (bytes.extract i (i + 8)) k = byteAt bytes (i + k) := by
    rw [byteAt_extract, if_pos (by omega)]
  simp only [word64, word32, Nat.zero_add, hbyte _ (by decide : 0 < 8), hbyte _ (by decide : 1 < 8),
    hbyte _ (by decide : 2 < 8), hbyte _ (by decide : 3 < 8), hbyte _ (by decide : 4 < 8),
    hbyte _ (by decide : 4 + 1 < 8), hbyte _ (by decide : 4 + 2 < 8),
    hbyte _ (by decide : 4 + 3 < 8), Nat.add_zero, Nat.add_assoc]

/-- A word is found where the bytes before it end. -/
theorem word64_middle (a b : ByteArray) (w : UInt64) : word64 (a ++ ofWord64 w ++ b) a.size = w := by
  have hmiddle := extract_middle a (ofWord64 w) b
  rw [size_ofWord64] at hmiddle
  rw [← word64_extract, hmiddle, word64_ofWord64]

/-! ## Exclusive or -/

/-- Byte-wise exclusive or of two strings, as far as both reach. -/
def xor (a b : ByteArray) : ByteArray := ⟨Array.zipWith (· ^^^ ·) a.data b.data⟩

theorem xor_append {a a' : ByteArray} (b b' : ByteArray) (h : a.size = a'.size) :
    xor (a ++ b) (a' ++ b') = xor a a' ++ xor b b' := by
  apply ByteArray.ext
  simp only [xor, ByteArray.data_append]
  exact Array.zipWith_append h

@[simp] theorem xor_ofWord32 (v w : UInt32) :
    xor (ofWord32 v) (ofWord32 w) = ofWord32 (v ^^^ w) := by
  apply ByteArray.ext
  show Array.zipWith _ #[_, _, _, _] #[_, _, _, _] = #[_, _, _, _]
  simp [UInt32.shiftRight_xor]

@[simp] theorem xor_ofWord64 (v w : UInt64) :
    xor (ofWord64 v) (ofWord64 w) = ofWord64 (v ^^^ w) := by
  have hsize : (ofWord32 v.toUInt32).size = (ofWord32 w.toUInt32).size := rfl
  rw [ofWord64_eq_append v, ofWord64_eq_append w, xor_append _ _ hsize]
  simp [ofWord64_eq_append, UInt64.shiftRight_xor]

end Bytes

open Bytes (ofWord64)

/-! ## Cells -/

namespace Cell

theorem toBytes_eq (c : Cell) : c.toBytes = ofWord64 c.lane0 ++ ofWord64 c.lane1 := by
  simp only [toBytes, push, Bytes.push64_eq_append, Bytes.emptyWithCapacity_append]

theorem push_eq_append (bytes : ByteArray) (c : Cell) : push bytes c = bytes ++ c.toBytes := by
  simp only [push, toBytes_eq, Bytes.push64_eq_append, ByteArray.append_assoc]

@[simp] theorem size_toBytes (c : Cell) : c.toBytes.size = size := by
  simp [toBytes_eq, size]

theorem toBytes_ofBytes (bytes : ByteArray) (i : Nat) (h : i + size ≤ bytes.size) :
    (ofBytes bytes i).toBytes = bytes.extract i (i + size) := by
  simp only [size] at h ⊢
  simp [toBytes_eq, ofBytes, Bytes.ofWord64_word64 bytes i (by omega),
    Bytes.ofWord64_word64 bytes (i + 8) (by omega)]

@[simp] theorem ofBytes_toBytes (c : Cell) : ofBytes c.toBytes 0 = c := by
  have hfirst := Bytes.word64_middle ByteArray.empty (ofWord64 c.lane1) c.lane0
  have hsecond := Bytes.word64_middle (ofWord64 c.lane0) ByteArray.empty c.lane1
  simp only [ByteArray.empty_append, ByteArray.append_empty, ByteArray.size_empty,
    Bytes.size_ofWord64] at hfirst hsecond
  simp [ofBytes, toBytes_eq, hfirst, hsecond]

theorem toBytes_injective {c c' : Cell} (h : c.toBytes = c'.toBytes) : c = c' := by
  rw [← ofBytes_toBytes c, h, ofBytes_toBytes]

end Cell

/-! ## Digests -/

namespace Digest

theorem toBytes_eq_cells (d : Digest) : d.toBytes = d.front.toBytes ++ d.back.toBytes := by
  simp only [toBytes, push, Cell.push_eq_append, Bytes.emptyWithCapacity_append]

theorem toBytes_ofCells (front back : Cell) : (ofCells front back).toBytes = front.toBytes ++ back.toBytes :=
  toBytes_eq_cells (ofCells front back)

theorem toBytes_eq (d : Digest) :
    d.toBytes = ofWord64 d.lane0 ++ ofWord64 d.lane1 ++ ofWord64 d.lane2 ++ ofWord64 d.lane3 := by
  rw [toBytes_eq_cells, Cell.toBytes_eq, Cell.toBytes_eq, ← ByteArray.append_assoc]
  rfl

theorem push_eq_append (bytes : ByteArray) (d : Digest) : push bytes d = bytes ++ d.toBytes := by
  simp only [push, toBytes_eq_cells, Cell.push_eq_append, ByteArray.append_assoc]

@[simp] theorem size_toBytes (d : Digest) : d.toBytes.size = size := by
  simp [toBytes_eq, size]

theorem toBytes_ofBytes (bytes : ByteArray) (i : Nat) (h : i + size ≤ bytes.size) :
    (ofBytes bytes i).toBytes = bytes.extract i (i + size) := by
  simp only [size] at h ⊢
  simp [toBytes_eq, ofBytes, Bytes.ofWord64_word64 bytes i (by omega),
    Bytes.ofWord64_word64 bytes (i + 8) (by omega), Bytes.ofWord64_word64 bytes (i + 16) (by omega),
    Bytes.ofWord64_word64 bytes (i + 24) (by omega), Nat.add_assoc]

@[simp] theorem word64_toBytes_zero (d : Digest) : Bytes.word64 d.toBytes 0 = d.lane0 := by
  have hfirst := Bytes.word64_middle ByteArray.empty
    (ofWord64 d.lane1 ++ ofWord64 d.lane2 ++ ofWord64 d.lane3) d.lane0
  simpa [toBytes_eq, ByteArray.append_assoc] using hfirst

@[simp] theorem word64_toBytes_eight (d : Digest) : Bytes.word64 d.toBytes 8 = d.lane1 := by
  have hsecond := Bytes.word64_middle (ofWord64 d.lane0) (ofWord64 d.lane2 ++ ofWord64 d.lane3) d.lane1
  simpa [toBytes_eq, ByteArray.append_assoc] using hsecond

@[simp] theorem word64_toBytes_sixteen (d : Digest) : Bytes.word64 d.toBytes 16 = d.lane2 := by
  have hthird := Bytes.word64_middle (ofWord64 d.lane0 ++ ofWord64 d.lane1) (ofWord64 d.lane3) d.lane2
  simpa [toBytes_eq, ByteArray.append_assoc] using hthird

@[simp] theorem word64_toBytes_twentyFour (d : Digest) : Bytes.word64 d.toBytes 24 = d.lane3 := by
  have hlast := Bytes.word64_middle (ofWord64 d.lane0 ++ ofWord64 d.lane1 ++ ofWord64 d.lane2)
    ByteArray.empty d.lane3
  simpa [toBytes_eq, ByteArray.append_assoc] using hlast

@[simp] theorem ofBytes_toBytes (d : Digest) : ofBytes d.toBytes 0 = d := by
  simp [ofBytes]

theorem toBytes_injective {d d' : Digest} (h : d.toBytes = d'.toBytes) : d = d' := by
  rw [← ofBytes_toBytes d, h, ofBytes_toBytes]

theorem byteAt_toBytes_zero (d : Digest) : Bytes.byteAt d.toBytes 0 = d.lane0.toUInt8 := by
  have hfirst : Bytes.byteAt (ofWord64 d.lane0) 0 = d.lane0.toUInt32.toUInt8 := rfl
  simp only [toBytes_eq, ByteArray.append_assoc]
  rw [Bytes.byteAt_append, if_pos (by simp), hfirst, UInt64.toUInt8_toUInt32]

theorem xor_toBytes (a b : Digest) : Bytes.xor a.toBytes b.toBytes = (a.xor b).toBytes := by
  simp only [toBytes_eq, Digest.xor]
  rw [Bytes.xor_append _ _ (by simp), Bytes.xor_append _ _ (by simp), Bytes.xor_append _ _ (by simp)]
  simp

end Digest

/-! ## Blocks -/

namespace Block

theorem toBytes_eq (b : Block) : b.toBytes = b.lower.toBytes ++ b.upper.toBytes := by
  simp only [toBytes, push, Digest.push_eq_append, Bytes.emptyWithCapacity_append]

theorem push_eq_append (bytes : ByteArray) (b : Block) : push bytes b = bytes ++ b.toBytes := by
  simp only [push, toBytes_eq, Digest.push_eq_append, ByteArray.append_assoc]

@[simp] theorem size_toBytes (b : Block) : b.toBytes.size = size := by
  simp [toBytes_eq, size, Digest.size]

theorem toBytes_ofBytes (bytes : ByteArray) (i : Nat) (h : i + size ≤ bytes.size) :
    (ofBytes bytes i).toBytes = bytes.extract i (i + size) := by
  simp only [size] at h ⊢
  simp [toBytes_eq, ofBytes, Digest.toBytes_ofBytes bytes i (by simp [Digest.size]; omega),
    Digest.toBytes_ofBytes bytes (i + 32) (by simp [Digest.size]; omega), Digest.size, Nat.add_assoc]

theorem toBytes_injective {b b' : Block} (h : b.toBytes = b'.toBytes) : b = b' := by
  obtain ⟨lower, upper⟩ := b
  obtain ⟨lower', upper'⟩ := b'
  rw [toBytes_eq, toBytes_eq] at h
  obtain rfl : lower = lower' := Digest.toBytes_injective (ByteArray.append_inj_left h (by simp))
  obtain rfl : upper = upper' := Digest.toBytes_injective ((ByteArray.append_right_inj _).mp h)
  rfl

@[simp] theorem ofBytes_toBytes (b : Block) : ofBytes b.toBytes 0 = b := by
  apply toBytes_injective
  rw [toBytes_ofBytes _ 0 (by simp), Nat.zero_add, ← size_toBytes b, ByteArray.extract_zero_size]

theorem xor_toBytes (a b : Block) : Bytes.xor a.toBytes b.toBytes = (a.xor b).toBytes := by
  simp only [toBytes_eq, Block.xor]
  rw [Bytes.xor_append _ _ (by simp), Digest.xor_toBytes, Digest.xor_toBytes]

end Block

end NonceSweep
