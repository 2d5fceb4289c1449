import NonceSweep.Primitive.CipherRound
import Mathlib.Data.FinEnum
import Mathlib.Data.Finite.Prod

/-!
# A round of encryption loses nothing

Under a fixed round key, every cell comes out of a round exactly once. Each part of the round is looked at by
itself: no byte is substituted for two others, shifting the rows only moves bytes, and the key is added by
exclusive or. What takes an argument is the mixing of columns.

A column is four bytes, and as a map on them the matrix is `2(1 + r) + r + r² + r³`, where `r` is rotation by
one row and 2 is doubling in GF(2⁸). Doubling is additive, so squaring the map squares each of its terms: it
becomes `4(1 + r²) + 1`, and once more `16(1 + r⁴) + 1`. As `r⁴` is no rotation at all, a column that is mixed
four times is the column itself.

## Layers

- **Bytes**: `substituted_injective`, `doubled_xor`
- **Columns**: `ofRows` and what each operation does to the rows; `mixColumn_four_times`, `mixColumn_injective`
- **Cells**: `encrypt_bijective`
-/

namespace NonceSweep.CipherRound

/-! ## Bytes -/

/-- The byte that is substituted for a byte. -/
def substituted (b : UInt8) : UInt8 := Bytes.byteAt substitution b.toNat

/-- The number whose bits are set at the bytes of a list. -/
def marks : List UInt8 → Nat
  | [] => 0
  | b :: rest => 1 <<< b.toNat ||| marks rest

theorem testBit_marks {bytes : List UInt8} {b : UInt8} :
    (marks bytes).testBit b.toNat = true ↔ b ∈ bytes := by
  induction bytes with
  | nil => simp [marks]
  | cons first rest ih =>
    have hfirst : (1 <<< first.toNat).testBit b.toNat = true ↔ b = first := by
      rw [Nat.one_shiftLeft, Nat.testBit_two_pow, decide_eq_true_iff, UInt8.toNat_inj, eq_comm]
    rw [marks, Nat.testBit_or, Bool.or_eq_true, hfirst, ih, List.mem_cons]

theorem marks_substitution : marks substitution.data.toList = 2 ^ 256 - 1 := by decide +kernel

theorem size_substitution : substitution.size = UInt8.size := by decide +kernel

/-- The table has as many entries as there are bytes, and each byte is one of them. -/
theorem substituted_injective : Function.Injective substituted := by
  -- on finitely many bytes it is enough that each is met, and that is one bit of a number for each
  refine Finite.injective_iff_surjective.mpr ?_
  intro b
  have hmarked : (marks substitution.data.toList).testBit b.toNat = true := by
    rw [marks_substitution, Nat.testBit_two_pow_sub_one, decide_eq_true_iff]
    exact b.toNat_lt
  obtain ⟨i, hi, hentry⟩ := List.mem_iff_getElem.mp (testBit_marks.mp hmarked)
  have hbyte : i < UInt8.size := by rwa [← size_substitution]
  refine ⟨UInt8.ofNat i, ?_⟩
  have hinside : i < substitution.size := hi
  rw [substituted, UInt8.toNat_ofNat_of_lt' hbyte, Bytes.byteAt, dif_pos hinside]
  exact hentry

/-- Twice a byte in GF(2⁸). -/
def doubled (b : UInt8) : UInt8 := (b <<< 1) ^^^ ((b >>> 7) * 0x1b)

theorem highest_cases (b : UInt8) : b >>> 7 = 0 ∨ b >>> 7 = 1 := by
  have hb := b.toNat_lt
  simp only [← UInt8.toNat_inj, UInt8.toNat_shiftRight, Nat.shiftRight_eq_div_pow, UInt8.reduceToNat,
    Nat.reduceMod, Nat.reducePow]
  omega

theorem doubled_xor (a b : UInt8) : doubled (a ^^^ b) = doubled a ^^^ doubled b := by
  have hreduce : ((a >>> 7) ^^^ (b >>> 7)) * (0x1b : UInt8) =
      (a >>> 7) * (0x1b : UInt8) ^^^ (b >>> 7) * (0x1b : UInt8) := by
    -- the polynomial is taken in or left out, and taken in twice it is gone
    rcases highest_cases a with ha | ha <;> rcases highest_cases b with hb | hb <;> rw [ha, hb] <;> rfl
  rw [doubled, UInt8.shiftLeft_xor, UInt8.shiftRight_xor, hreduce, doubled, doubled]
  ac_rfl

theorem xor_cancel (x y : UInt8) : x ^^^ (x ^^^ y) = y := by
  rw [← UInt8.xor_assoc, UInt8.xor_self, UInt8.zero_xor]

/-! ## Columns -/

/-- The column with the given rows. -/
def ofRows (a b c d : UInt8) : UInt32 :=
  a.toUInt32 ||| (b.toUInt32 <<< 8) ||| (c.toUInt32 <<< 16) ||| (d.toUInt32 <<< 24)

theorem toBitVec_ofRows (a b c d : UInt8) :
    (ofRows a b c d).toBitVec = (d.toBitVec ++ c.toBitVec ++ b.toBitVec ++ a.toBitVec : BitVec 32) := by
  apply BitVec.eq_of_getLsbD_eq
  intro i hi
  have hpast (x : BitVec 8) (j : Nat) (hj : 8 ≤ j) : x.getLsbD j = false := BitVec.getLsbD_of_ge x j hj
  simp [ofRows]
  grind

theorem toNat_ofRows (a b c d : UInt8) :
    (ofRows a b c d).toNat = a.toNat + b.toNat * 256 + c.toNat * 65536 + d.toNat * 16777216 := by
  have ha := a.toNat_lt
  have hb := b.toNat_lt
  have hc := c.toNat_lt
  rw [← UInt32.toNat_toBitVec, toBitVec_ofRows]
  simp only [BitVec.toNat_append, UInt8.toNat_toBitVec]
  rw [← Nat.shiftLeft_add_eq_or_of_lt hc, ← Nat.shiftLeft_add_eq_or_of_lt hb,
    ← Nat.shiftLeft_add_eq_or_of_lt ha]
  simp only [Nat.shiftLeft_eq]
  omega

theorem ofRows_inj {a b c d a' b' c' d' : UInt8} :
    ofRows a b c d = ofRows a' b' c' d' ↔ a = a' ∧ b = b' ∧ c = c' ∧ d = d' := by
  have ha := a.toNat_lt
  have hb := b.toNat_lt
  have hc := c.toNat_lt
  have ha' := a'.toNat_lt
  have hb' := b'.toNat_lt
  have hc' := c'.toNat_lt
  simp only [← UInt32.toNat_inj, ← UInt8.toNat_inj, toNat_ofRows]
  omega

/-- A column has the rows that are read from it. -/
theorem ofRows_rows (x : UInt32) :
    ofRows x.toUInt8 (x >>> 8).toUInt8 (x >>> 16).toUInt8 (x >>> 24).toUInt8 = x := by
  have hx := x.toNat_lt
  simp only [← UInt32.toNat_inj, toNat_ofRows, UInt32.toNat_toUInt8, UInt32.toNat_shiftRight,
    Nat.shiftRight_eq_div_pow, UInt32.reduceToNat, Nat.reduceMod, Nat.reducePow]
  omega

/-- What works on each bit by itself works on each row by itself. -/
theorem toBitVec_ofRows_bitwise (f : ∀ {w : Nat}, BitVec w → BitVec w → BitVec w)
    (happend : ∀ {v w : Nat} {x y : BitVec v} {s t : BitVec w}, f (x ++ s) (y ++ t) = f x y ++ f s t)
    (a b c d a' b' c' d' : UInt8) :
    f (ofRows a b c d).toBitVec (ofRows a' b' c' d').toBitVec =
      (f d.toBitVec d'.toBitVec ++ f c.toBitVec c'.toBitVec ++ f b.toBitVec b'.toBitVec ++
        f a.toBitVec a'.toBitVec : BitVec 32) := by
  -- 32 bits are known here as three rows and one more
  have hrows {x y : BitVec (8 + 8 + 8)} {s t : BitVec 8} :
      f (w := 32) (x ++ s) (y ++ t) = f x y ++ f s t := happend
  rw [toBitVec_ofRows, toBitVec_ofRows, hrows, happend, happend]

theorem ofRows_xor (a b c d a' b' c' d' : UInt8) :
    ofRows a b c d ^^^ ofRows a' b' c' d' = ofRows (a ^^^ a') (b ^^^ b') (c ^^^ c') (d ^^^ d') := by
  rw [← UInt32.toBitVec_inj, UInt32.toBitVec_xor, toBitVec_ofRows (a ^^^ a')]
  exact toBitVec_ofRows_bitwise (· ^^^ ·) BitVec.xor_append a b c d a' b' c' d'

theorem ofRows_and (a b c d a' b' c' d' : UInt8) :
    ofRows a b c d &&& ofRows a' b' c' d' = ofRows (a &&& a') (b &&& b') (c &&& c') (d &&& d') := by
  rw [← UInt32.toBitVec_inj, UInt32.toBitVec_and, toBitVec_ofRows (a &&& a')]
  exact toBitVec_ofRows_bitwise (· &&& ·) BitVec.and_append a b c d a' b' c' d'

/-! ### Rotation -/

/-- What is shifted out at the low end comes in at the high end. -/
theorem toNat_rotateRight (x n : UInt32) (hpos : 0 < n.toNat) (hn : n.toNat < 32) :
    (rotateRight x n).toNat =
      x.toNat % 2 ^ n.toNat * 2 ^ (32 - n.toNat) + x.toNat / 2 ^ n.toNat := by
  have hx := x.toNat_lt
  have hback : (32 - n).toNat = 32 - n.toNat :=
    UInt32.toNat_sub_of_le 32 n (UInt32.le_iff_toNat_le.mpr (Nat.le_of_lt hn))
  have hwidth : 2 ^ 32 = 2 ^ n.toNat * 2 ^ (32 - n.toNat) := by
    rw [← Nat.pow_add, Nat.add_sub_cancel' (Nat.le_of_lt hn)]
  have hhigh : x.toNat <<< (32 - n.toNat) % 2 ^ 32 = (x.toNat % 2 ^ n.toNat) <<< (32 - n.toNat) := by
    rw [Nat.shiftLeft_eq, Nat.shiftLeft_eq, hwidth, Nat.mul_mod_mul_right]
  have hlow : x.toNat >>> n.toNat < 2 ^ (32 - n.toNat) := by
    rwa [Nat.shiftRight_eq_div_pow, Nat.div_lt_iff_lt_mul (Nat.two_pow_pos _), Nat.mul_comm, ← hwidth]
  -- the two parts have no bit in common, so that they are joined by adding them
  rw [rotateRight, UInt32.toNat_or, UInt32.toNat_shiftRight, UInt32.toNat_shiftLeft, hback,
    Nat.mod_eq_of_lt hn, Nat.mod_eq_of_lt (by omega : 32 - n.toNat < 32), hhigh, Nat.or_comm,
    ← Nat.shiftLeft_add_eq_or_of_lt hlow, Nat.shiftLeft_eq, Nat.shiftRight_eq_div_pow]

section Rows

variable (a b c d : UInt8)

theorem rotateRight_ofRows :
    rotateRight (ofRows a b c d) 8 = ofRows b c d a ∧
      rotateRight (ofRows a b c d) 16 = ofRows c d a b ∧
      rotateRight (ofRows a b c d) 24 = ofRows d a b c := by
  have ha := a.toNat_lt
  have hb := b.toNat_lt
  have hc := c.toNat_lt
  have hd := d.toNat_lt
  simp only [← UInt32.toNat_inj, toNat_ofRows,
    toNat_rotateRight _ 8 (by decide) (by decide), toNat_rotateRight _ 16 (by decide) (by decide),
    toNat_rotateRight _ 24 (by decide) (by decide), UInt32.reduceToNat, Nat.reduceSub, Nat.reducePow]
  omega

/-! ### Doubling -/

/-- Without their highest bits, no row is shifted into the next. -/
theorem shifted_ofRows :
    (ofRows a b c d &&& 0x7f7f7f7f) <<< 1 = ofRows (a <<< 1) (b <<< 1) (c <<< 1) (d <<< 1) := by
  have hmask : (0x7f7f7f7f : UInt32) = ofRows 0x7f 0x7f 0x7f 0x7f := by decide
  have hrow (x : UInt8) : (x &&& 0x7f).toNat = x.toNat % 128 := by
    rw [UInt8.toNat_and]
    exact Nat.and_two_pow_sub_one_eq_mod x.toNat 7
  rw [hmask, ofRows_and]
  simp only [← UInt32.toNat_inj, UInt32.toNat_shiftLeft, toNat_ofRows, hrow, UInt8.toNat_shiftLeft,
    Nat.shiftLeft_eq, UInt32.reduceToNat, UInt8.reduceToNat, Nat.reduceMod, Nat.reducePow]
  omega

/-- The highest bits of the rows. -/
theorem highest_ofRows :
    (ofRows a b c d >>> 7) &&& (0x01010101 : UInt32) = ofRows (a >>> 7) (b >>> 7) (c >>> 7) (d >>> 7) := by
  have ha := a.toNat_lt
  have hb := b.toNat_lt
  have hc := c.toNat_lt
  have hd := d.toNat_lt
  have hmask : (0x01010101 : UInt32) = ofRows 1 1 1 1 := by decide
  -- each row takes in the lower bits of the next one, and the mask takes them off
  have hshift : ofRows a b c d >>> 7 = ofRows ((a >>> 7) + (b <<< 1)) ((b >>> 7) + (c <<< 1))
      ((c >>> 7) + (d <<< 1)) (d >>> 7) := by
    simp only [← UInt32.toNat_inj, UInt32.toNat_shiftRight, toNat_ofRows, UInt8.toNat_add,
      UInt8.toNat_shiftLeft, UInt8.toNat_shiftRight, Nat.shiftLeft_eq, Nat.shiftRight_eq_div_pow,
      UInt32.reduceToNat, UInt8.reduceToNat, Nat.reduceMod, Nat.reducePow]
    omega
  have hrow (x y : UInt8) : ((x >>> 7) + (y <<< 1)) &&& (1 : UInt8) = x >>> 7 := by
    have hx := x.toNat_lt
    rw [← UInt8.toNat_inj, UInt8.toNat_and]
    refine (Nat.and_two_pow_sub_one_eq_mod _ 1).trans ?_
    simp only [UInt8.toNat_add, UInt8.toNat_shiftLeft, UInt8.toNat_shiftRight, Nat.shiftLeft_eq,
      Nat.shiftRight_eq_div_pow, UInt8.reduceToNat, Nat.reduceMod, Nat.reducePow]
    omega
  have hlast (x : UInt8) : (x >>> 7) &&& (1 : UInt8) = x >>> 7 := by
    rcases highest_cases x with hx | hx <;> rw [hx] <;> rfl
  rw [hshift, hmask, ofRows_and, hrow, hrow, hrow, hlast]

/-- One factor reduces all rows, since none of the products is larger than a byte. -/
theorem reduced_ofRows :
    ofRows (a >>> 7) (b >>> 7) (c >>> 7) (d >>> 7) * (0x1b : UInt32) =
      ofRows ((a >>> 7) * 0x1b) ((b >>> 7) * 0x1b) ((c >>> 7) * 0x1b) ((d >>> 7) * 0x1b) := by
  have hrow (x : UInt8) : ((x >>> 7) * (0x1b : UInt8)).toNat = (x >>> 7).toNat * 27 := by
    rcases highest_cases x with hx | hx <;> rw [hx] <;> rfl
  have hbit (x : UInt8) : (x >>> 7).toNat < 2 := by
    rcases highest_cases x with hx | hx <;> rw [hx] <;> decide
  have ha := hbit a
  have hb := hbit b
  have hc := hbit c
  have hd := hbit d
  simp only [← UInt32.toNat_inj, UInt32.toNat_mul, toNat_ofRows, hrow, UInt32.reduceToNat, Nat.reducePow]
  omega

theorem double_ofRows :
    double (ofRows a b c d) = ofRows (doubled a) (doubled b) (doubled c) (doubled d) := by
  rw [double, shifted_ofRows, highest_ofRows, reduced_ofRows, ofRows_xor]
  simp only [doubled]

/-! ### Mixing -/

theorem mixColumn_ofRows :
    mixColumn (ofRows a b c d) =
      ofRows (doubled (a ^^^ b) ^^^ b ^^^ c ^^^ d) (doubled (b ^^^ c) ^^^ c ^^^ d ^^^ a)
        (doubled (c ^^^ d) ^^^ d ^^^ a ^^^ b) (doubled (d ^^^ a) ^^^ a ^^^ b ^^^ c) := by
  obtain ⟨hone, htwo, hthree⟩ := rotateRight_ofRows a b c d
  simp only [mixColumn, hone, htwo, hthree, ofRows_xor, double_ofRows]

/-- Twice the matrix: a row and the one after the next are four times their sum apart from what they were. -/
theorem mixColumn_mixColumn_ofRows :
    mixColumn (mixColumn (ofRows a b c d)) =
      ofRows (doubled (doubled (a ^^^ c)) ^^^ a) (doubled (doubled (b ^^^ d)) ^^^ b)
        (doubled (doubled (c ^^^ a)) ^^^ c) (doubled (doubled (d ^^^ b)) ^^^ d) := by
  have hswap (x y z : UInt8) : x ^^^ (y ^^^ z) = y ^^^ (x ^^^ z) := by
    rw [← UInt8.xor_assoc, UInt8.xor_comm x, UInt8.xor_assoc]
  simp only [mixColumn_ofRows, doubled_xor, UInt8.xor_assoc, UInt8.xor_comm, hswap, xor_cancel,
    UInt8.xor_self, UInt8.zero_xor]

end Rows

/-- The matrix is undone by three more of it. -/
theorem mixColumn_four_times (x : UInt32) : mixColumn (mixColumn (mixColumn (mixColumn x))) = x := by
  -- mixed twice, a row and the one after the next have the sum that they had before
  have hrow (x z : UInt8) : doubled (doubled ((doubled (doubled (x ^^^ z)) ^^^ x) ^^^
      (doubled (doubled (z ^^^ x)) ^^^ z))) ^^^ (doubled (doubled (x ^^^ z)) ^^^ x) = x := by
    have hsum : (doubled (doubled (x ^^^ z)) ^^^ x) ^^^ (doubled (doubled (z ^^^ x)) ^^^ z) = x ^^^ z := by
      rw [UInt8.xor_comm z x, UInt8.xor_comm _ x, UInt8.xor_assoc, xor_cancel]
    rw [hsum, xor_cancel]
  rw [← ofRows_rows x, mixColumn_mixColumn_ofRows, mixColumn_mixColumn_ofRows, ofRows_inj]
  exact ⟨hrow _ _, hrow _ _, hrow _ _, hrow _ _⟩

theorem mixColumn_injective : Function.Injective mixColumn := by
  intro x y h
  rw [← mixColumn_four_times x, h, mixColumn_four_times]

/-- A column that is made in a round tells the four bytes that it is made of. -/
theorem column_inj {a b c d a' b' c' d' : UInt32} :
    column a b c d = column a' b' c' d' ↔
      a.toUInt8 = a'.toUInt8 ∧ (b >>> 8).toUInt8 = (b' >>> 8).toUInt8 ∧
        (c >>> 16).toUInt8 = (c' >>> 16).toUInt8 ∧ (d >>> 24).toUInt8 = (d' >>> 24).toUInt8 := by
  have hcolumn (a b c d : UInt32) : column a b c d = mixColumn (ofRows (substituted a.toUInt8)
      (substituted (b >>> 8).toUInt8) (substituted (c >>> 16).toUInt8) (substituted (d >>> 24).toUInt8)) := rfl
  rw [hcolumn, hcolumn, mixColumn_injective.eq_iff, ofRows_inj, substituted_injective.eq_iff,
    substituted_injective.eq_iff, substituted_injective.eq_iff, substituted_injective.eq_iff]

theorem eq_of_rows {x y : UInt32} (h₀ : x.toUInt8 = y.toUInt8) (h₁ : (x >>> 8).toUInt8 = (y >>> 8).toUInt8)
    (h₂ : (x >>> 16).toUInt8 = (y >>> 16).toUInt8) (h₃ : (x >>> 24).toUInt8 = (y >>> 24).toUInt8) : x = y := by
  rw [← ofRows_rows x, h₀, h₁, h₂, h₃, ofRows_rows]

/-! ## Cells -/

theorem toNat_join (lo hi : UInt32) : (join lo hi).toNat = hi.toNat * 2 ^ 32 + lo.toNat := by
  have hhigh : hi.toNat <<< 32 % 2 ^ 64 = hi.toNat <<< 32 := by
    have hhi := hi.toNat_lt
    rw [Nat.shiftLeft_eq]
    omega
  rw [join, UInt64.toNat_or, UInt64.toNat_shiftLeft, UInt32.toNat_toUInt64, UInt32.toNat_toUInt64]
  refine (congrArg (lo.toNat ||| ·) hhigh).trans ?_
  rw [Nat.or_comm, ← Nat.shiftLeft_add_eq_or_of_lt lo.toNat_lt, Nat.shiftLeft_eq]

theorem join_inj {lo hi lo' hi' : UInt32} : join lo hi = join lo' hi' ↔ lo = lo' ∧ hi = hi' := by
  have hlo := lo.toNat_lt
  have hlo' := lo'.toNat_lt
  simp only [← UInt64.toNat_inj, ← UInt32.toNat_inj, toNat_join]
  omega

theorem join_halves (w : UInt64) : join w.toUInt32 (w >>> 32).toUInt32 = w := by
  have hw := w.toNat_lt
  simp only [← UInt64.toNat_inj, toNat_join, UInt64.toNat_toUInt32, UInt64.toNat_shiftRight,
    Nat.shiftRight_eq_div_pow, UInt64.reduceToNat, Nat.reduceMod, Nat.reducePow]
  omega

theorem encrypt_injective (key : Cell) : Function.Injective fun state => encrypt state key := by
  rintro ⟨s₀, s₁⟩ ⟨t₀, t₁⟩ h
  simp only [encrypt, Cell.mk.injEq, UInt64.xor_left_inj, join_inj, column_inj] at h
  -- the rows of a column of the state are in four different columns of what comes out
  obtain ⟨⟨⟨h₀₀, h₁₁, h₂₂, h₃₃⟩, h₁₀, h₂₁, h₃₂, h₀₃⟩, ⟨h₂₀, h₃₁, h₀₂, h₁₃⟩, h₃₀, h₀₁, h₁₂, h₂₃⟩ := h
  have hfirst := eq_of_rows h₀₀ h₀₁ h₀₂ h₀₃
  have hsecond := eq_of_rows h₁₀ h₁₁ h₁₂ h₁₃
  have hthird := eq_of_rows h₂₀ h₂₁ h₂₂ h₂₃
  have hfourth := eq_of_rows h₃₀ h₃₁ h₃₂ h₃₃
  have hlane₀ : s₀ = t₀ := by
    rw [← join_halves s₀, hfirst, hsecond, join_halves]
  have hlane₁ : s₁ = t₁ := by
    rw [← join_halves s₁, hthird, hfourth, join_halves]
  rw [hlane₀, hlane₁]

instance : Finite Cell := by
  refine Finite.of_injective (fun c => (c.lane0, c.lane1)) ?_
  rintro ⟨c₀, c₁⟩ ⟨d₀, d₁⟩ h
  obtain ⟨rfl, rfl⟩ : c₀ = d₀ ∧ c₁ = d₁ := Prod.mk.inj h
  rfl

/-- Under every key, a round leads from different cells to different cells, and to each cell from some. -/
theorem encrypt_bijective (key : Cell) : Function.Bijective fun state => encrypt state key :=
  Finite.injective_iff_bijective.mp (encrypt_injective key)

end NonceSweep.CipherRound
