/-!
# Numerals

Reading and writing of integers in positional notation.

Reading goes from left to right and stops at the first character that fails: one that is no digit, or a
digit with which the value passes the bound. So of two faults in one numeral the left one is reported.

## Contents

- `Numeral.Fault`: why a text is no numeral
- `Numeral.natural`: numerals with an optional `+`
- `Numeral.integer`: numerals with an optional `+` or `-`
- `Numeral.decimal`, `Numeral.hexadecimal`: the numeral of a number
-/

namespace NonceSweep.Text.Numeral

/-- Why a text is not read as a number. -/
inductive Fault where
  | empty
  /-- A character is no digit, or there are no digits after the sign. -/
  | invalidDigit
  /-- The number is above the greatest that fits. -/
  | tooLarge
  /-- The number is below the least that fits. -/
  | tooSmall
deriving DecidableEq, Repr

def Fault.message : Fault → String
  | .empty => "cannot parse integer from empty string"
  | .invalidDigit => "invalid digit found in string"
  | .tooLarge => "number too large to fit in target type"
  | .tooSmall => "number too small to fit in target type"

def greatestWord : Nat := UInt64.size - 1

/-! ## Reading -/

/-- The value of a character as a digit: `0` to `9`, then the letters in either case. -/
def digitValue? (c : Char) : Option Nat :=
  if '0' ≤ c ∧ c ≤ '9' then some (c.toNat - '0'.toNat)
  else if 'a' ≤ c ∧ c ≤ 'z' then some (c.toNat - 'a'.toNat + 10)
  else if 'A' ≤ c ∧ c ≤ 'Z' then some (c.toNat - 'A'.toNat + 10)
  else none

/-- The value of a character as a digit of notation to base `radix`. -/
def digit? (radix : Nat) (c : Char) : Option Nat :=
  (digitValue? c).filter (· < radix)

/-- Reads digits behind ones of value `value`. Every value on the way is at most `greatest`;
`overflow` is the fault otherwise. -/
def digits (radix greatest : Nat) (overflow : Fault) : List Char → (value : Nat) → Except Fault Nat
  | [], value => .ok value
  | c :: rest, value =>
    match digit? radix c with
    | none => .error .invalidDigit
    | some d =>
      let value := value * radix + d
      if value ≤ greatest then digits radix greatest overflow rest value else .error overflow

/-- Reads a number from `0` to `greatest`. One `+` may stand in front of the digits. -/
def natural (radix greatest : Nat) : List Char → Except Fault Nat
  | [] => .error .empty
  | ['+'] => .error .invalidDigit
  | '+' :: rest => digits radix greatest .tooLarge rest 0
  | text => digits radix greatest .tooLarge text 0

/-- Reads a decimal integer from `-(greatest + 1)` to `greatest`. One sign may stand in front. -/
def integer (greatest : Nat) : List Char → Except Fault Int
  | ['-'] => .error .invalidDigit
  | '-' :: rest => (digits 10 (greatest + 1) .tooSmall rest 0).map fun value => -(value : Int)
  | text => (natural 10 greatest text).map fun value => (value : Int)

/-! ## Writing -/

/-- The decimal numeral of a number, without leading zeros. -/
def decimal (n : Nat) : List Char := Nat.toDigits 10 n

/-- The hexadecimal numeral of a number in lower case, after `0x`. -/
def hexadecimal (n : Nat) : List Char := '0' :: 'x' :: Nat.toDigits 16 n

/-! ## Examples -/

example : natural 10 255 ['+', '0', '7'] = .ok 7 := by rfl

-- the digit that passes the bound comes before the character that is no digit
example : natural 10 255 ['2', '5', '6', 'x'] = .error .tooLarge := by rfl

example : natural 10 255 ['2', '5', 'x', '6'] = .error .invalidDigit := by rfl

example : integer 127 ['-', '1', '2', '8'] = .ok (-128) := by rfl

example : hexadecimal 240 = ['0', 'x', 'f', '0'] := by decide

end NonceSweep.Text.Numeral
