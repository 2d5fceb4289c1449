import NonceSweep.Decimal.Binary

/-!
# The shortest decimal of a double

Of the decimals that read back to a given double, the one with the fewest digits; of several such, the
nearest; of two equally near, the even one.

For each number of digits there is a grid of decimals. If any point of the grid lies in the interval that
rounds to the double, then so does one of the double's two neighbours on the grid. So the search looks at
two points per grid, from the coarsest grid on.
-/

namespace NonceSweep.Decimal

/-- The number `coefficient * 10 ^ exponent`. -/
structure Scientific where
  coefficient : Nat
  exponent : Int
deriving DecidableEq, Repr

/-- The factor by which a coefficient at `10 ^ exponent` is multiplied before it is compared with a count
of quarters. -/
def gridScale (b : Binary) (exponent : Int) : Nat :=
  Nat.pow 10 exponent.toNat * Nat.pow 2 (-b.quarterExponent).toNat

/-- The factor by which a count of quarters is multiplied before it is compared with a coefficient at
`10 ^ exponent`. -/
def quarterScale (b : Binary) (exponent : Int) : Nat :=
  Nat.pow 2 b.quarterExponent.toNat * Nat.pow 10 (-exponent).toNat

/-- Whether `coefficient * 10 ^ exponent` rounds to the double. -/
def readsBack (b : Binary) (exponent : Int) (coefficient : Nat) : Bool :=
  let point := coefficient * gridScale b exponent
  let low := b.lowerEnd * quarterScale b exponent
  let high := b.upperEnd * quarterScale b exponent
  if b.closed then low ≤ point && point ≤ high else low < point && point < high

/-- The neighbour of the double on the grid `10 ^ exponent` that reads back, and the nearer of two. -/
def onGrid? (b : Binary) (exponent : Int) : Option Scientific :=
  let value := b.quarters * quarterScale b exponent
  let unit := gridScale b exponent
  let below := value / unit
  let twiceOver := 2 * (value % unit)
  let belowIsNearer := twiceOver < unit || (twiceOver == unit && below % 2 == 0)
  match readsBack b exponent below, readsBack b exponent (below + 1) with
  | true, true => some ⟨if belowIsNearer then below else below + 1, exponent⟩
  | true, false => some ⟨below, exponent⟩
  | false, true => some ⟨below + 1, exponent⟩
  | false, false => none

/-- Places behind the point that suffice to show a digit other than zero of every double. -/
def sufficientPlaces : Nat := 400

/-- The exponent of ten of the leading digit. -/
def leadingExponent (b : Binary) : Int :=
  let shifted := b.quarters * quarterScale b (-(sufficientPlaces : Int)) / gridScale b (-(sufficientPlaces : Int))
  ((Nat.toDigits 10 shifted).length : Int) - 1 - sufficientPlaces

/-- Digits that identify every double. -/
def sufficientDigits : Nat := 17

/-- The decimal with the fewest digits that reads back to the double. -/
def shortest (b : Binary) : Scientific :=
  let leading := leadingExponent b
  let coarsest := (List.range sufficientDigits).findSome? fun (more : Nat) => onGrid? b (leading - more)
  coarsest.getD
    ⟨b.mantissa * Nat.pow 2 b.exponent.toNat * Nat.pow 5 (-b.exponent).toNat, min b.exponent 0⟩

end NonceSweep.Decimal
