/-!
# Binary floating-point values

A finite positive double is `mantissa * 2 ^ exponent`. The reals that round to it form an interval around
it; with the gap between neighbours cut into four quarters, its ends lie two quarters above and two below.
Just above a power of two the gap below is only half as wide, and the lower end is one quarter away.
-/

namespace NonceSweep.Decimal

/-- A finite positive value `mantissa * 2 ^ exponent`, and whether the gap below it is the narrow one. -/
structure Binary where
  mantissa : Nat
  exponent : Int
  narrowBelow : Bool
deriving DecidableEq, Repr

namespace Binary

def storedBits : Nat := 52

/-- Reads the 64 bits of a double. Zero, infinities and what is no number give nothing; the sign is
left out. -/
def ofBits? (bits : UInt64) : Option Binary :=
  let biased : Nat := (bits.toNat >>> storedBits) % 2048
  let fraction : Nat := bits.toNat % Nat.pow 2 storedBits
  if biased = 2047 then none
  else if biased = 0 then
    if fraction = 0 then none else some ⟨fraction, -1074, false⟩
  else some ⟨Nat.pow 2 storedBits + fraction, (biased : Int) - 1075, fraction = 0 ∧ 1 < biased⟩

/-- The value in quarters of the gap. -/
def quarters (b : Binary) : Nat := 4 * b.mantissa

/-- The lower end of the interval, in quarters of the gap. -/
def lowerEnd (b : Binary) : Nat := b.quarters - if b.narrowBelow then 1 else 2

/-- The upper end of the interval, in quarters of the gap. -/
def upperEnd (b : Binary) : Nat := b.quarters + 2

/-- Whether the ends belong to the interval: ties between two doubles go to the even mantissa. -/
def closed (b : Binary) : Bool := b.mantissa % 2 = 0

/-- The exponent of two that a quarter of the gap stands for. -/
def quarterExponent (b : Binary) : Int := b.exponent - 2

end Binary

end NonceSweep.Decimal
