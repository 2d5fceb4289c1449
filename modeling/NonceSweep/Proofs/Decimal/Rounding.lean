import NonceSweep.Decimal.Shortest
import Mathlib.Algebra.Order.Field.Power
import Mathlib.Data.Rat.Cast.Order
import Mathlib.Tactic.FieldSimp
import Mathlib.Tactic.Linarith
import Mathlib.Tactic.Positivity
import Mathlib.Tactic.Ring

/-!
# Which double a number rounds to

The numbers that round to a double form an interval around it, with its ends if the mantissa is even. The
decimal that is chosen for a double lies in its interval, and the intervals of different doubles have no number
in common: two neighbours meet in one end, and one of them has an odd mantissa. So the double is known from
its decimal.

## Main results

- `Binary.Rounds`: the numbers that round to a double
- `rounds_shortest`: the shortest decimal rounds to its double
- `Binary.Canonical.eq_of_rounds`: no number rounds to two doubles
- `Binary.ReadAs.unique`: a number is read as one double
-/

namespace NonceSweep.Decimal

/-- The number that a coefficient and an exponent stand for. -/
def Scientific.value (s : Scientific) : ℚ := s.coefficient * 10 ^ s.exponent

namespace Binary

/-- The size of a quarter of the gap. -/
def quarter (b : Binary) : ℚ := 2 ^ b.quarterExponent

theorem quarter_pos (b : Binary) : 0 < b.quarter := by
  unfold quarter
  positivity

/-- The numbers that round to a double. -/
def Rounds (b : Binary) (q : ℚ) : Prop :=
  if b.closed then b.lowerEnd * b.quarter ≤ q ∧ q ≤ b.upperEnd * b.quarter
  else b.lowerEnd * b.quarter < q ∧ q < b.upperEnd * b.quarter

theorem Rounds.bounds {b : Binary} {q : ℚ} (h : b.Rounds q) :
    b.lowerEnd * b.quarter ≤ q ∧ q ≤ b.upperEnd * b.quarter := by
  unfold Rounds at h
  split at h
  · exact h
  · exact ⟨h.1.le, h.2.le⟩

theorem Rounds.inside {b : Binary} {q : ℚ} (h : b.Rounds q) (hopen : ¬ b.closed) :
    b.lowerEnd * b.quarter < q ∧ q < b.upperEnd * b.quarter := by
  rwa [Rounds, if_neg hopen] at h

end Binary

/-! ## The decimal that is chosen -/

/-- A power with an exponent of either sign is a quotient of powers without one. -/
theorem pow_toNat_eq (x : ℚ) (hx : x ≠ 0) (e : Int) : x ^ e.toNat = x ^ e * x ^ (-e).toNat := by
  rw [← zpow_natCast x e.toNat, ← zpow_natCast x (-e).toNat, ← zpow_add₀ hx]
  congr 1
  omega

/-- Both scales are the true ones times one positive number, so they can be compared. -/
theorem exists_scale (b : Binary) (exponent : Int) : ∃ k : ℚ, 0 < k ∧
    (gridScale b exponent : ℚ) = 10 ^ exponent * k ∧ (quarterScale b exponent : ℚ) = b.quarter * k := by
  refine ⟨10 ^ (-exponent).toNat * 2 ^ (-b.quarterExponent).toNat, by positivity, ?_, ?_⟩
  · have hten := pow_toNat_eq 10 (by norm_num) exponent
    simp only [gridScale, Nat.pow_eq, Nat.cast_mul, Nat.cast_pow, Nat.cast_ofNat]
    rw [hten]
    ring
  · have htwo := pow_toNat_eq 2 (by norm_num) b.quarterExponent
    simp only [quarterScale, Binary.quarter, Nat.pow_eq, Nat.cast_mul, Nat.cast_pow, Nat.cast_ofNat]
    rw [htwo]
    ring

theorem readsBack_iff (b : Binary) (exponent : Int) (coefficient : Nat) :
    readsBack b exponent coefficient = true ↔ b.Rounds (coefficient * 10 ^ exponent) := by
  obtain ⟨k, hk, hgrid, hquarter⟩ := exists_scale b exponent
  have hpoint : ((coefficient * gridScale b exponent : Nat) : ℚ) = coefficient * 10 ^ exponent * k := by
    rw [Nat.cast_mul, hgrid, mul_assoc]
  have hend (quarters : Nat) :
      ((quarters * quarterScale b exponent : Nat) : ℚ) = quarters * b.quarter * k := by
    rw [Nat.cast_mul, hquarter, mul_assoc]
  unfold readsBack Binary.Rounds
  split
  · rw [Bool.and_eq_true, decide_eq_true_iff, decide_eq_true_iff, ← Nat.cast_le (α := ℚ),
      ← Nat.cast_le (α := ℚ), hpoint, hend, hend, mul_le_mul_iff_left₀ hk, mul_le_mul_iff_left₀ hk]
  · rw [Bool.and_eq_true, decide_eq_true_iff, decide_eq_true_iff, ← Nat.cast_lt (α := ℚ),
      ← Nat.cast_lt (α := ℚ), hpoint, hend, hend, mul_lt_mul_iff_left₀ hk, mul_lt_mul_iff_left₀ hk]

theorem rounds_of_onGrid? {b : Binary} {exponent : Int} {s : Scientific}
    (h : onGrid? b exponent = some s) : b.Rounds s.value := by
  have hread (coefficient : Nat) (h : readsBack b exponent coefficient = true) :
      b.Rounds (Scientific.value ⟨coefficient, exponent⟩) := (readsBack_iff b exponent coefficient).mp h
  unfold onGrid? at h
  simp only at h
  split at h
  · cases h
    split <;> apply hread <;> assumption
  · cases h
    apply hread
    assumption
  · cases h
    apply hread
    assumption
  · cases h

/-- The exact value of a double as a decimal. -/
theorem value_exact (b : Binary) :
    Scientific.value ⟨b.mantissa * Nat.pow 2 b.exponent.toNat * Nat.pow 5 (-b.exponent).toNat,
      min b.exponent 0⟩ = b.quarters * b.quarter := by
  have hquarter : (b.quarters : ℚ) * b.quarter = b.mantissa * 2 ^ b.exponent := by
    rw [Binary.quarters, Binary.quarter, Binary.quarterExponent, zpow_sub₀ (by norm_num)]
    push_cast
    ring
  have htwo := pow_toNat_eq 2 (by norm_num) b.exponent
  have hmin : min b.exponent 0 = -((-b.exponent).toNat : Int) := by omega
  rw [hquarter, Scientific.value, hmin, zpow_neg, zpow_natCast]
  simp only [Nat.pow_eq, Nat.cast_mul, Nat.cast_pow, Nat.cast_ofNat]
  rw [htwo, show (10 : ℚ) = 2 * 5 by norm_num, mul_pow]
  field_simp

/-- What is chosen for a double lies in its interval: a point of a grid is chosen only if it does, and the
    exact value does anyway. -/
theorem rounds_shortest {b : Binary} (hb : 0 < b.mantissa) : b.Rounds (shortest b).value := by
  unfold shortest
  simp only
  cases hcoarsest : (List.range sufficientDigits).findSome?
      fun (more : Nat) => onGrid? b (leadingExponent b - more) with
  | some s =>
    obtain ⟨more, -, hgrid⟩ := List.exists_of_findSome?_eq_some hcoarsest
    exact rounds_of_onGrid? hgrid
  | none =>
    have hlow : b.lowerEnd < b.quarters := by
      unfold Binary.lowerEnd Binary.quarters
      split <;> omega
    have hhigh : b.quarters < b.upperEnd := by
      unfold Binary.upperEnd
      omega
    have hlow' : (b.lowerEnd : ℚ) * b.quarter < b.quarters * b.quarter :=
      mul_lt_mul_of_pos_right (Nat.cast_lt.mpr hlow) b.quarter_pos
    have hhigh' : (b.quarters : ℚ) * b.quarter < b.upperEnd * b.quarter :=
      mul_lt_mul_of_pos_right (Nat.cast_lt.mpr hhigh) b.quarter_pos
    rw [Option.getD_none, value_exact]
    unfold Binary.Rounds
    split
    · exact ⟨hlow'.le, hhigh'.le⟩
    · exact ⟨hlow', hhigh'⟩

/-! ## Intervals of different doubles -/

namespace Binary

/-- Values as they are stored: the mantissa has 53 bits unless the exponent is the least one, and the gap
    below is narrow behind a power of two. -/
structure Canonical (b : Binary) : Prop where
  pos : 0 < b.mantissa
  small : b.mantissa < 2 ^ 53
  least : -1074 ≤ b.exponent
  full : -1074 < b.exponent → 2 ^ 52 ≤ b.mantissa
  narrow : b.narrowBelow = true ↔ b.mantissa = 2 ^ 52 ∧ -1074 < b.exponent

theorem canonical_of_ofBits? {bits : UInt64} {b : Binary} (h : ofBits? bits = some b) : b.Canonical := by
  have hfraction : bits.toNat % Nat.pow 2 storedBits < 2 ^ 52 := Nat.mod_lt _ (by decide)
  have hpow : Nat.pow 2 storedBits = 2 ^ 52 := rfl
  unfold ofBits? at h
  simp only at h
  generalize (bits.toNat >>> storedBits) % 2048 = biased at h
  generalize bits.toNat % Nat.pow 2 storedBits = fraction at h hfraction
  rw [hpow] at h
  split at h
  · cases h
  · split at h
    · split at h
      · cases h
      · cases h
        constructor <;> simp <;> omega
    · cases h
      constructor <;> simp <;> omega

namespace Canonical

variable {b b' : Binary}

theorem ext (h : b.Canonical) (h' : b'.Canonical) (hmantissa : b.mantissa = b'.mantissa)
    (hexponent : b.exponent = b'.exponent) : b = b' := by
  have hnarrow : b.narrowBelow = b'.narrowBelow := by
    rw [Bool.eq_iff_iff, h.narrow, h'.narrow, hmantissa, hexponent]
  obtain ⟨mantissa, exponent, narrowBelow⟩ := b
  obtain ⟨mantissa', exponent', narrowBelow'⟩ := b'
  simp only at hmantissa hexponent hnarrow
  rw [hmantissa, hexponent, hnarrow]

theorem lowerEnd_pos (h : b.Canonical) : 0 < b.lowerEnd := by
  have hpos := h.pos
  unfold lowerEnd quarters
  split <;> omega

/-- Every number that rounds to a double is positive. -/
theorem pos_of_rounds (h : b.Canonical) {q : ℚ} (hq : b.Rounds q) : 0 < q := by
  have hlow : (0 : ℚ) < b.lowerEnd * b.quarter :=
    mul_pos (Nat.cast_pos.mpr h.lowerEnd_pos) b.quarter_pos
  exact hlow.trans_le hq.bounds.1

/-- The intervals of two doubles with `2 ^ k` times the exponent of the first lie one behind the other. If they
    meet, then one of the mantissas is odd. -/
theorem ends_le (h : b.Canonical) (h' : b'.Canonical) {k : Nat} (hk : b'.exponent = b.exponent + k)
    (hless : k = 0 → b.mantissa < b'.mantissa) :
    b.upperEnd ≤ b'.lowerEnd * 2 ^ k ∧
      (b.upperEnd = b'.lowerEnd * 2 ^ k → ¬ (b.closed ∧ b'.closed)) := by
  have hsmall := h.small
  have hleast := h.least
  have hnarrow := h'.narrow
  have hodd : b.closed ∧ b'.closed ↔ b.mantissa % 2 = 0 ∧ b'.mantissa % 2 = 0 := by
    simp only [closed, decide_eq_true_iff]
  rw [hodd]
  unfold upperEnd lowerEnd quarters
  rcases Nat.eq_zero_or_pos k with rfl | hpos
  · -- neighbours on one scale: a narrow gap belongs to the least mantissa, which is not the greater one
    have hlt := hless rfl
    have hwide : ¬ b'.narrowBelow = true := by
      intro habsurd
      obtain ⟨hmantissa, hexponent⟩ := hnarrow.mp habsurd
      have hfull := h.full (by omega)
      omega
    rw [if_neg hwide]
    omega
  · -- the mantissa of the greater scale is full, and doubling it is enough
    have hfull := h'.full (by omega)
    have hdouble : 2 ≤ 2 ^ k := Nat.le_self_pow (by omega) 2
    have hscale (n : Nat) : n * 2 ≤ n * 2 ^ k := Nat.mul_le_mul_left n hdouble
    by_cases hn : b'.narrowBelow = true
    · rw [if_pos hn]
      have := hscale (4 * b'.mantissa - 1)
      omega
    · have hmore : b'.mantissa ≠ 2 ^ 52 := fun heq => hn (hnarrow.mpr ⟨heq, by omega⟩)
      rw [if_neg hn]
      have := hscale (4 * b'.mantissa - 2)
      omega

/-- A number that rounds to two doubles cannot be in order with them. -/
theorem not_rounds (h : b.Canonical) (h' : b'.Canonical) {k : Nat} (hk : b'.exponent = b.exponent + k)
    (hless : k = 0 → b.mantissa < b'.mantissa) {q : ℚ} (hq : b.Rounds q) : ¬ b'.Rounds q := by
  intro hq'
  obtain ⟨hle, hmeet⟩ := h.ends_le h' hk hless
  have hquarter : b'.quarter = 2 ^ k * b.quarter := by
    rw [quarter, quarter, quarterExponent, quarterExponent, hk, ← zpow_natCast, ← zpow_add₀ (by norm_num)]
    congr 1
    omega
  have hcast : (b.upperEnd : ℚ) ≤ b'.lowerEnd * 2 ^ k := by exact_mod_cast hle
  have hends : b.upperEnd * b.quarter ≤ b'.lowerEnd * b'.quarter := by
    rw [hquarter, ← mul_assoc]
    exact mul_le_mul_of_nonneg_right hcast b.quarter_pos.le
  -- the number is squeezed in between, so the two ends are one and belong to both intervals
  have heq : b.upperEnd * b.quarter = b'.lowerEnd * b'.quarter :=
    le_antisymm hends (hq'.bounds.1.trans hq.bounds.2)
  have hnat : b.upperEnd = b'.lowerEnd * 2 ^ k := by
    rw [hquarter, ← mul_assoc] at heq
    exact_mod_cast mul_right_cancel₀ b.quarter_pos.ne' heq
  apply hmeet hnat
  constructor
  · by_contra hopen
    exact lt_irrefl q (((hq.inside hopen).2.trans_eq heq).trans_le hq'.bounds.1)
  · by_contra hopen
    exact lt_irrefl q ((hq.bounds.2.trans_eq heq).trans_lt (hq'.inside hopen).1)

/-- **No number rounds to two doubles.** -/
theorem eq_of_rounds (h : b.Canonical) (h' : b'.Canonical) {q : ℚ} (hq : b.Rounds q)
    (hq' : b'.Rounds q) : b = b' := by
  rcases lt_trichotomy b.exponent b'.exponent with hlt | heq | hgt
  · have hk : b'.exponent = b.exponent + (b'.exponent - b.exponent).toNat := by omega
    exact absurd hq' (h.not_rounds h' hk (by omega) hq)
  · rcases lt_trichotomy b.mantissa b'.mantissa with hless | hsame | hmore
    · exact absurd hq' (h.not_rounds h' (k := 0) (by omega) (fun _ => hless) hq)
    · exact h.ext h' hsame heq
    · exact absurd hq (h'.not_rounds h (k := 0) (by omega) (fun _ => hmore) hq')
  · have hk : b.exponent = b'.exponent + (b.exponent - b'.exponent).toNat := by omega
    exact absurd hq (h'.not_rounds h hk (by omega) hq')

end Canonical

/-- The numbers that are read as the double with certain bits: those that round to it, and zero if it is no
    positive double. -/
def ReadAs (q : ℚ) (bits : UInt64) : Prop :=
  match ofBits? bits with
  | some b => b.Rounds q
  | none => q = 0

theorem ReadAs.unique {q : ℚ} {bits bits' : UInt64} (h : ReadAs q bits) (h' : ReadAs q bits') :
    ofBits? bits = ofBits? bits' := by
  unfold ReadAs at h h'
  cases hb : ofBits? bits with
  | some b =>
    have hcanonical := canonical_of_ofBits? hb
    rw [hb] at h
    cases hb' : ofBits? bits' with
    | some b' =>
      rw [hb'] at h'
      rw [hcanonical.eq_of_rounds (canonical_of_ofBits? hb') h h']
    | none =>
      rw [hb'] at h'
      exact absurd h' (hcanonical.pos_of_rounds h).ne'
  | none =>
    rw [hb] at h
    cases hb' : ofBits? bits' with
    | some b' =>
      rw [hb'] at h'
      exact absurd h ((canonical_of_ofBits? hb').pos_of_rounds h').ne'
    | none => rfl

end Binary

end NonceSweep.Decimal
