import NonceSweep.Outcome.Duration
import Mathlib

/-!
# Elapsed seconds are finite

A number of seconds is computed with doubles: two words become doubles, one of them is divided by a constant,
and the results are added. All of it stays far below infinity and is nowhere negative. This is followed through
rounding, packing and unpacking by a bound on the exponent.

## Main results

- `Modest`: values that are zero or positive, with an exponent that is bounded
- `toNat_toBits_inSeconds`: the bits of a number of seconds are those of a finite double without a sign
-/

namespace NonceSweep.Decimal

open Float.Model
open Float.Model.UnpackedFloat

/-- Values that are zero or positive, with an exponent up to a bound. -/
def Modest (greatest : Int) : UnpackedFloat → Prop
  | .zero .positive => True
  | .finite .positive _ exponent _ => exponent ≤ greatest
  | _ => False

/-- Such values with a mantissa that fits a double. -/
def Fitting (greatest : Int) : UnpackedFloat → Prop
  | .zero .positive => True
  | .finite .positive mantissa exponent _ => exponent ≤ greatest ∧ mantissa < 2 ^ 53
  | _ => False

theorem Modest.mono {greatest greatest' : Int} {u : UnpackedFloat} (h : Modest greatest u)
    (hle : greatest ≤ greatest') : Modest greatest' u := by
  match u, h with
  | .zero .positive, _ => trivial
  | .finite .positive _ _ _, h => exact Int.le_trans h hle

theorem Fitting.mono {greatest greatest' : Int} {u : UnpackedFloat} (h : Fitting greatest u)
    (hle : greatest ≤ greatest') : Fitting greatest' u := by
  match u, h with
  | .zero .positive, _ => trivial
  | .finite .positive _ _ _, h => exact ⟨Int.le_trans h.1 hle, h.2⟩

/-! ## Rounding -/

/-- The exponent that a double has whose leading bit is at a certain place. -/
def target (top : Int) : Int := max (top - 53) (-1074)

theorem lt_two_pow_log2 (m : Nat) : m < 2 ^ (m.log2 + 1) := Nat.lt_log2_self

theorem log2_lt_of_lt {m k : Nat} (hk : 0 < k) (h : m < 2 ^ k) : m.log2 < k := by
  by_cases hm : m = 0
  · subst hm
    simpa using hk
  · exact (Nat.log2_lt hm).mpr h

theorem mantissa_shift (m : Nat) (accuracy : Accuracy) (count : Nat) :
    (ExtendedMantissa.ofMantissaAndAccuracy m accuracy >>> count).mantissa = m / 2 ^ count := by
  show (count.repeat ExtendedMantissa.shiftRightOne
    (ExtendedMantissa.ofMantissaAndAccuracy m accuracy)).mantissa = m / 2 ^ count
  induction count with
  | zero =>
    rw [Nat.pow_zero, Nat.div_one]
    cases accuracy with
    | exact => rfl
    | inexact order => cases order <;> rfl
  | succ count ih =>
    show (count.repeat ExtendedMantissa.shiftRightOne
      (ExtendedMantissa.ofMantissaAndAccuracy m accuracy)).mantissa / 2 = m / 2 ^ (count + 1)
    rw [ih, Nat.div_div_eq_div_mul, Nat.pow_succ]

theorem roundedMantissa_le (em : ExtendedMantissa) : em.roundedMantissa ≤ em.mantissa + 1 := by
  obtain ⟨mantissa, roundBit, stickyBit⟩ := em
  cases roundBit <;> cases stickyBit <;>
    simp only [ExtendedMantissa.roundedMantissa, ExtendedMantissa.accuracy, Accuracy.roundToNearestEven] <;>
    omega

theorem modest_of_exponent {m : Nat} {e greatest : Int} (he : e ≤ greatest) :
    Modest greatest (if h : m = 0 then .zero .positive else .finite .positive m e (Nat.pos_of_ne_zero h)) := by
  by_cases hm : m = 0
  · rw [dif_pos hm]
    trivial
  · rw [dif_neg hm]
    exact he

/-- Rounding makes the exponent greater by one at most, if the mantissa overflows. -/
theorem modest_roundWithAccuracy (m : Nat) (e : Int) (accuracy : Accuracy) :
    Modest (max e (target (m.log2 + 1 + e)) + 1)
      (roundWithAccuracy .binary64 .positive m e accuracy) := by
  let first := target (m.log2 + 1 + e)
  let shift := (first - e).toNat
  let rounded :=
    (ExtendedMantissa.ofMantissaAndAccuracy m accuracy >>> shift).roundedMantissa
  have hrounded : rounded ≤ m / 2 ^ shift + 1 := by
    rw [← mantissa_shift m accuracy shift]
    exact roundedMantissa_le _
  have hlog : target (rounded.log2 + 1 + (e + shift)) ≤ max e first + 1 := by
    by_cases hshift : first ≤ e
    · -- nothing is shifted out
      have hzero : shift = 0 := by omega
      rw [hzero, Nat.pow_zero, Nat.div_one] at hrounded
      have hsmall : rounded < 2 ^ (m.log2 + 2) := by
        have := lt_two_pow_log2 m
        rw [Nat.pow_succ]
        omega
      have := log2_lt_of_lt (by omega) hsmall
      simp only [target, first] at hshift ⊢
      omega
    · -- what is left fits the mantissa
      have hpow : m < 2 ^ 53 * 2 ^ shift := by
        rw [← Nat.pow_add]
        refine Nat.lt_of_lt_of_le (lt_two_pow_log2 m) (Nat.pow_le_pow_right (by decide) ?_)
        simp only [target, first, shift] at hshift ⊢
        omega
      have hsmall : rounded < 2 ^ 54 := by
        have := Nat.div_lt_of_lt_mul (Nat.mul_comm _ _ ▸ hpow)
        omega
      have := log2_lt_of_lt (by decide) hsmall
      simp only [target, first, shift] at hshift ⊢
      omega
  have hlast : e + shift + ((target (rounded.log2 + 1 + (e + shift)) - (e + shift)).toNat : Int) ≤
      max e first + 1 := by
    omega
  exact modest_of_exponent hlast

theorem modest_round (m : Nat) (e : Int) :
    Modest (target (m.log2 + 1 + e) + 1) (round .binary64 .positive m e) := by
  let first := target (m.log2 + 1 + e)
  let shift := (e - first).toNat
  have hlog : (m <<< shift).log2 < m.log2 + 1 + shift := by
    apply log2_lt_of_lt (by omega)
    rw [Nat.shiftLeft_eq, Nat.pow_add]
    exact Nat.mul_lt_mul_of_pos_right (lt_two_pow_log2 m) (Nat.pow_pos (by decide))
  have hround := modest_roundWithAccuracy (m <<< shift) (e - shift) .exact
  refine Modest.mono (u := round .binary64 .positive m e) hround ?_
  simp only [target, first, shift] at hlog ⊢
  omega

/-! ## Packing -/

/-- The bits of a positive double, as a number. -/
theorem toNat_packComponents (exponent : BitVec 11) (mantissa : BitVec 52) :
    (packComponents .binary64 .positive exponent mantissa).toNat =
      exponent.toNat * 2 ^ 52 + mantissa.toNat := by
  show ((0#1 ++ exponent) ++ mantissa).toNat = _
  rw [BitVec.toNat_append, BitVec.toNat_append, ← Nat.shiftLeft_add_eq_or_of_lt mantissa.isLt,
    Nat.shiftLeft_eq]
  simp

/-- What is unpacked from the bits of a finite positive double. -/
theorem fitting_unpack (exponent : BitVec 11) (mantissa : BitVec 52) (hfinite : exponent.toNat ≤ 2046) :
    Fitting (max (exponent.toNat - 1075) (-1074))
      (unpack .binary64 (packComponents .binary64 .positive exponent mantissa)) := by
  have hones : exponent ≠ -1#_ := by
    rintro rfl
    exact absurd hfinite (by decide)
  have hbias : (Format.binary64.exponentBias : Int) + Format.binary64.mantissaBitsWithoutImplicit = 1075 := rfl
  have hmantissa := mantissa.isLt
  unfold Float.Model.UnpackedFloat.unpack
  simp only [unpackMantissa_packComponents, unpackExponent_packComponents, unpackSign_packComponents,
    if_neg hones]
  by_cases hzero : exponent = 0#_
  · rw [if_pos hzero]
    subst hzero
    by_cases hnothing : mantissa = 0#_
    · rw [dif_pos hnothing]
      trivial
    · rw [dif_neg hnothing]
      refine ⟨?_, by omega⟩
      simp only [hbias]
      simp
  · rw [if_neg hzero]
    refine ⟨?_, ?_⟩
    · simp only [hbias]
      omega
    · have hfull := (1#1 ++ mantissa).isLt
      omega

theorem exists_pack {greatest : Int} {u : UnpackedFloat} (h : Modest greatest u) (hgreatest : greatest ≤ 971) :
    ∃ (exponent : BitVec 11) (mantissa : BitVec 52),
      pack .binary64 u = packComponents .binary64 .positive exponent mantissa ∧
        (exponent.toNat : Int) ≤ max 0 (greatest + 1075) := by
  match u, h with
  | .zero .positive, _ => exact ⟨0, 0, rfl, by simp⟩
  | .finite .positive m e hm, h =>
    have hle : e ≤ greatest := h
    have hbiased : e + Format.binary64.exponentBias + Format.binary64.mantissaBitsWithoutImplicit = e + 1075 := by
      show e + 1023 + 52 = e + 1075
      omega
    unfold Float.Model.UnpackedFloat.pack
    simp only [hbiased]
    rw [if_neg (by show ¬ 2048 ≤ (e + 1075).toNat + 1; omega)]
    split
    · refine ⟨_, _, rfl, ?_⟩
      have := Nat.mod_le (e + 1075).toNat (2 ^ 11)
      rw [BitVec.toNat_ofNat]
      omega
    · exact ⟨_, _, rfl, by simp⟩

/-- What is packed and unpacked fits, and its exponent is no greater. -/
theorem fitting_unpack_pack {greatest : Int} {u : UnpackedFloat} (h : Modest greatest u)
    (hleast : -1074 ≤ greatest) (hgreatest : greatest ≤ 971) :
    Fitting greatest (Float.Model.pack u).unpack := by
  obtain ⟨exponent, mantissa, hpack, hexponent⟩ := exists_pack h hgreatest
  have hfits := fitting_unpack exponent mantissa (by omega)
  show Fitting greatest (unpack .binary64 (pack .binary64 u))
  rw [hpack]
  exact hfits.mono (by omega)

/-- The bits of what is packed are those of a finite double without a sign. -/
theorem toNat_toBits_pack {greatest : Int} {u : UnpackedFloat} (h : Modest greatest u)
    (hgreatest : greatest ≤ 971) : (Float.Model.pack u).toBits.toNat < 2047 * 2 ^ 52 := by
  obtain ⟨exponent, mantissa, hpack, hexponent⟩ := exists_pack h hgreatest
  show (pack .binary64 u).toNat < _
  rw [hpack, toNat_packComponents]
  have := mantissa.isLt
  omega

/-! ## Arithmetic -/

theorem modest_normalize (n : Nat) (e : Int) :
    Modest (target (n.log2 + 1 + e) + 1) (normalize .binary64 (n : Int) e .positive) := by
  show Modest _ (match compare (n : Int) 0 with
    | .lt => round .binary64 .negative (-(n : Int)).toNat e
    | .eq => .zero .positive
    | .gt => round .binary64 .positive (n : Int).toNat e)
  split
  · rename_i hlt
    have := Int.compare_eq_lt.mp hlt
    omega
  · trivial
  · exact modest_round n e

/-- A word becomes a double of moderate size. -/
theorem modest_ofNat {n : Nat} (hn : n < 2 ^ 64) : Modest 12 (ofNat .binary64 n) := by
  have hlog := log2_lt_of_lt (by decide) hn
  refine (modest_normalize n 0).mono ?_
  simp only [target]
  omega

/-- A quotient by a double has at most as many bits before the point as the difference of the exponents allows. -/
theorem modest_div {greatest : Int} {u : UnpackedFloat} (h : Fitting greatest u) {m : Nat} {e : Int}
    (hm : 0 < m) : Modest (max (greatest - e) (-1074) + 1) (div .binary64 u (.finite .positive m e hm)) := by
  match u, h with
  | .zero .positive, _ => trivial
  | .finite .positive m' e' hm', h =>
    obtain ⟨hle, hsmall⟩ := h
    let top := totalExponent m' e' - totalExponent m e
    let first := min (e' - e) (Format.binary64.targetExponent top)
    let shift := (e' - e - first).toNat
    have hquotient : (m' <<< shift / m).log2 < 53 + shift := by
      apply log2_lt_of_lt (by omega)
      refine Nat.lt_of_le_of_lt (Nat.div_le_self _ _) ?_
      rw [Nat.shiftLeft_eq, Nat.pow_add]
      exact Nat.mul_lt_mul_of_pos_right hsmall (Nat.pow_pos (by decide))
    have hround := modest_roundWithAccuracy (m' <<< shift / m) first (accuracyOfFraction (m' <<< shift % m) m)
    show Modest _ (roundWithAccuracy .binary64 .positive (m' <<< shift / m) first
      (accuracyOfFraction (m' <<< shift % m) m))
    refine hround.mono ?_
    have hfirst : first ≤ e' - e := Int.min_le_left _ _
    simp only [target]
    omega

/-- A sum has at most one bit more than what is added. -/
theorem modest_add {greatest : Int} {u u' : UnpackedFloat} (h : Fitting greatest u)
    (h' : Fitting greatest u') (hleast : -1074 ≤ greatest) : Modest (greatest + 2) (add .binary64 u u') := by
  match u, u', h, h' with
  | .zero .positive, .zero .positive, _, _ => trivial
  | .zero .positive, .finite .positive m e hm, _, h =>
    show e ≤ greatest + 2
    have := h.1
    omega
  | .finite .positive m e hm, .zero .positive, h, _ =>
    show e ≤ greatest + 2
    have := h.1
    omega
  | .finite .positive m e hm, .finite .positive m' e' hm', h, h' =>
    obtain ⟨hle, hsmall⟩ := h
    obtain ⟨hle', hsmall'⟩ := h'
    let least := min e e'
    let sum := m <<< (e - least).toNat + m' <<< (e' - least).toNat
    have hscaled {k : Nat} {x : Int} (hx : x ≤ greatest) (hk : k < 2 ^ 53) (hleast : least ≤ x) :
        k <<< (x - least).toNat < 2 ^ (53 + (greatest - least).toNat) := by
      rw [Nat.shiftLeft_eq, Nat.pow_add]
      exact Nat.mul_lt_mul_of_lt_of_le hk (Nat.pow_le_pow_right (by decide) (by omega)) (Nat.pow_pos (by decide))
    have hsum : sum < 2 ^ (54 + (greatest - least).toNat) := by
      have hfirst := hscaled hle hsmall (Int.min_le_left _ _)
      have hsecond := hscaled hle' hsmall' (Int.min_le_right _ _)
      rw [show 54 + (greatest - least).toNat = 53 + (greatest - least).toNat + 1 by omega, Nat.pow_succ]
      omega
    have hlog := log2_lt_of_lt (by omega) hsum
    have hround := modest_normalize sum least
    rw [Int.natCast_add] at hround
    refine hround.mono ?_
    simp only [target]
    omega

/-! ## Elapsed seconds -/

/-- The constant that nanoseconds are divided by. -/
theorem unpack_nanosPerSecond : (1000000000.0 : Float).toModel.unpack =
    .finite .positive 8388608000000000 (-23) (by decide) := by rfl

/-- Elapsed seconds are a finite double without a sign. -/
theorem toNat_toBits_inSeconds (d : Duration) : d.inSeconds.toBits.toNat < 2047 * 2 ^ 52 := by
  let whole := Float.Model.pack (ofNat .binary64 d.seconds.toNat)
  let nanos := Float.Model.pack (ofNat .binary64 d.nanos.toNat)
  let rest := Float.Model.pack (div .binary64 nanos.unpack (1000000000.0 : Float).toModel.unpack)
  have hwhole : Fitting 12 whole.unpack :=
    fitting_unpack_pack (modest_ofNat d.seconds.toNat_lt) (by decide) (by decide)
  have hnanos : Fitting 12 nanos.unpack :=
    fitting_unpack_pack (modest_ofNat (Nat.lt_trans d.nanos.toNat_lt (by decide))) (by decide) (by decide)
  -- only exponents are compared here, so the bound on the quotient is a rough one, yet far below infinity
  have hrest : Fitting 36 rest.unpack := by
    refine fitting_unpack_pack ?_ (by decide) (by decide)
    rw [unpack_nanosPerSecond]
    exact modest_div hnanos (by decide)
  have hsum : Modest 38 (add .binary64 whole.unpack rest.unpack) :=
    modest_add (hwhole.mono (by decide)) hrest (by decide)
  exact toNat_toBits_pack hsum (by decide)

/-- The value of a finite double without a sign. -/
theorem ofBits?_of_finite {bits : UInt64} (h : bits.toNat < 2047 * 2 ^ 52) :
    Binary.ofBits? bits =
      if bits.toNat / 2 ^ 52 = 0 then
        if bits.toNat % 2 ^ 52 = 0 then none else some ⟨bits.toNat % 2 ^ 52, -1074, false⟩
      else
        some ⟨2 ^ 52 + bits.toNat % 2 ^ 52, (bits.toNat / 2 ^ 52 : Nat) - 1075,
          bits.toNat % 2 ^ 52 = 0 ∧ 1 < bits.toNat / 2 ^ 52⟩ := by
  have hbiased : (bits.toNat >>> Binary.storedBits) % 2048 = bits.toNat / 2 ^ 52 := by
    show (bits.toNat >>> 52) % 2048 = bits.toNat / 2 ^ 52
    rw [Nat.shiftRight_eq_div_pow]
    omega
  have hpow : Nat.pow 2 Binary.storedBits = 2 ^ 52 := rfl
  unfold Binary.ofBits?
  simp only [hbiased, hpow]
  rw [if_neg (by omega)]

/-- The bits of a finite double without a sign are known from its value. -/
theorem toNat_eq_of_ofBits?_eq {x y : UInt64} (hx : x.toNat < 2047 * 2 ^ 52) (hy : y.toNat < 2047 * 2 ^ 52)
    (h : Binary.ofBits? x = Binary.ofBits? y) : x.toNat = y.toNat := by
  rw [ofBits?_of_finite hx, ofBits?_of_finite hy] at h
  have hsplit := Nat.div_add_mod x.toNat (2 ^ 52)
  have hsplit' := Nat.div_add_mod y.toNat (2 ^ 52)
  -- zero, the values of the least exponent and the others cannot be taken for one another
  split_ifs at h <;> simp only [Option.some.injEq, Binary.mk.injEq] at h <;> omega

/-- Two lengths of time that have the same value as doubles are the same double. -/
theorem inSeconds_eq_iff (d d' : Duration) :
    Binary.ofBits? d.inSeconds.toBits = Binary.ofBits? d'.inSeconds.toBits ↔ d.inSeconds = d'.inSeconds := by
  constructor
  · intro h
    have hbits : d.inSeconds.toBits = d'.inSeconds.toBits :=
      UInt64.toNat_inj.mp (toNat_eq_of_ofBits?_eq (toNat_toBits_inSeconds d) (toNat_toBits_inSeconds d') h)
    exact Float.toBits_inj.mp hbits
  · intro h
    rw [h]

end NonceSweep.Decimal
