import NonceSweep.Text.Quoted

/-!
# Hexadecimal text

Two digits per byte, the high one first. Writing uses lower case; reading takes either case.

Reading works on the bytes of a text, so lengths and positions count bytes. It checks the length before
it looks at any digit, and reports the leftmost byte that is no digit.
-/

namespace NonceSweep.Text

def utf8 (text : List Char) : List UInt8 := text.flatMap String.utf8EncodeChar

namespace Hex

/-! ## Writing -/

/-- The digit of a number below sixteen. -/
def digit (n : Nat) : Char := Nat.digitChar n

/-- The digits of one byte. -/
def encodeByte (b : UInt8) : List Char :=
  [digit (b.toNat / 16), digit (b.toNat % 16)]

/-- The digits of a byte string. -/
def encode (bytes : List UInt8) : List Char :=
  bytes.flatMap encodeByte

/-! ## Reading -/

/-- Why a text is not read as a byte string. -/
inductive Fault where
  | oddLength
  /-- The number of digits is not twice the number of bytes wanted. -/
  | wrongLength
  /-- A byte of the text is no digit. -/
  | invalidCharacter (byte : UInt8) (position : Nat)
deriving DecidableEq, Repr

def Fault.message : Fault → String
  | .oddLength => "Odd number of digits"
  | .wrongLength => "Invalid string length"
  | .invalidCharacter byte position =>
    "Invalid character " ++ quoted byte ++ " at position " ++ toString position

/-- The value of a byte of a text as a digit of either case. -/
def value? (byte : UInt8) : Option Nat :=
  if 0x30 ≤ byte ∧ byte ≤ 0x39 then some (byte.toNat - 0x30)
  else if 0x61 ≤ byte ∧ byte ≤ 0x66 then some (byte.toNat - 0x61 + 10)
  else if 0x41 ≤ byte ∧ byte ≤ 0x46 then some (byte.toNat - 0x41 + 10)
  else none

def value (byte : UInt8) (position : Nat) : Except Fault Nat :=
  match value? byte with
  | some v => .ok v
  | none => .error (.invalidCharacter byte position)

/-- Reads digits two at a time; the first stands at `position`. A digit without a partner is left out. -/
def pairs : List UInt8 → (position : Nat) → Except Fault (List UInt8)
  | high :: low :: rest, position => do
    let h ← value high position
    let l ← value low (position + 1)
    let bytes ← pairs rest (position + 2)
    return UInt8.ofNat (16 * h + l) :: bytes
  | _, _ => .ok []

/-- Reads `size` bytes from the bytes of a text. -/
def decode (size : Nat) (text : List UInt8) : Except Fault (List UInt8) :=
  if text.length % 2 = 1 then .error .oddLength
  else if text.length ≠ 2 * size then .error .wrongLength
  else pairs text 0

/-! ## Examples -/

example : encode [0x0f, 0xa0] = ['0', 'f', 'a', '0'] := by decide

example : decode 2 [0x30, 0x46, 0x61, 0x30] = .ok [0x0f, 0xa0] := by rfl

-- the length is looked at before the digits
example : decode 2 [0x67] = .error .oddLength := by rfl

example : decode 1 [0x30, 0x67] = .error (.invalidCharacter 0x67 1) := by rfl

end Hex

end NonceSweep.Text
