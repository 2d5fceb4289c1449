import NonceSweep.Decimal.Shortest

/-!
# Writing decimals

Two ways of writing a double. `Layout.render` writes the fewest digits that identify it, positionally as
long as the exponent of the leading digit stays within the limits of the layout, and with an explicit
signed exponent beyond them. `fixed` writes a given number of places, rounded from the exact value.
-/

namespace NonceSweep.Decimal

/-- How far positional notation goes: the least and the greatest exponent of a leading digit that is
written without an exponent. -/
structure Layout where
  leastPlain : Int
  greatestPlain : Int

namespace Layout

/-- The digits of a coefficient without the zeros at their end. -/
def significant (coefficient : Nat) : List Char :=
  ((Nat.toDigits 10 coefficient).reverse.dropWhile (· == '0')).reverse

/-- Digits with a point, the first digit having the exponent `leading`. A digit stands on either side of
the point. -/
def plain (digits : List Char) (leading : Int) : List Char :=
  if leading < 0 then
    ['0', '.'] ++ List.replicate (-leading - 1).toNat '0' ++ digits
  else
    let whole := leading.toNat + 1
    let padded := digits ++ List.replicate (whole + 1 - digits.length) '0'
    padded.take whole ++ '.' :: padded.drop whole

/-- Digits with an exponent, whose sign is always written. -/
def withExponent (digits : List Char) (leading : Int) : List Char :=
  let mantissa :=
    match digits with
    | first :: second :: rest => first :: '.' :: second :: rest
    | short => short
  mantissa ++ 'e' :: (if leading < 0 then '-' else '+') :: Nat.toDigits 10 leading.natAbs

def write (l : Layout) (s : Scientific) : List Char :=
  let leading := s.exponent + (Nat.toDigits 10 s.coefficient).length - 1
  let digits := significant s.coefficient
  if l.leastPlain ≤ leading ∧ leading ≤ l.greatestPlain then plain digits leading
  else withExponent digits leading

/-- Writes a double that is not negative. -/
def render (l : Layout) (x : Float) : List Char :=
  match Binary.ofBits? x.toBits with
  | some b => l.write (shortest b)
  | none => ['0', '.', '0']

end Layout

/-! ## A given number of places -/

/-- The whole number nearest to `numerator / denominator`; of two, the even one. -/
def roundedQuotient (numerator denominator : Nat) : Nat :=
  let below := numerator / denominator
  let twiceOver := 2 * (numerator % denominator)
  if twiceOver < denominator ∨ (twiceOver = denominator ∧ below % 2 = 0) then below else below + 1

/-- Writes a double that is not negative with `places` places. -/
def fixed (places : Nat) (x : Float) : List Char :=
  let units :=
    match Binary.ofBits? x.toBits with
    | some b =>
      roundedQuotient (b.mantissa * Nat.pow 2 b.exponent.toNat * Nat.pow 10 places)
        (Nat.pow 2 (-b.exponent).toNat)
    | none => 0
  let digits := Nat.toDigits 10 units
  let padded := List.replicate (places + 1 - digits.length) '0' ++ digits
  padded.take (padded.length - places) ++ '.' :: padded.drop (padded.length - places)

/-! ## Examples -/

example : Layout.plain ['6'] 1 = ['6', '0', '.', '0'] := by decide

example : Layout.plain ['1', '2', '5'] (-3) = ['0', '.', '0', '0', '1', '2', '5'] := by decide

example : Layout.withExponent ['5', '7'] (-6) = ['5', '.', '7', 'e', '-', '6'] := by decide

-- halves go to the even neighbour
example : roundedQuotient 5 2 = 2 ∧ roundedQuotient 7 2 = 4 := by decide

end NonceSweep.Decimal
