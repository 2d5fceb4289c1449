import NonceSweep.Text.Numeral

/-!
# Quoted characters

A byte that turned up where it is not allowed is shown as the character of that number, between single
quotes. What would not be visible, and the quote itself, is escaped.
-/

namespace NonceSweep.Text

/-- Whether a byte shows no mark of its own: the two ranges of control characters, the no-break space
and the soft hyphen. -/
def isInvisible (b : UInt8) : Bool :=
  b < 0x20 || (0x7f ≤ b && b ≤ 0xa0) || b == 0xad

/-- What stands for a byte between the quotes. -/
def escaped (b : UInt8) : List Char :=
  match Char.ofNat b.toNat with
  | '\x00' => ['\\', '0']
  | '\t' => ['\\', 't']
  | '\n' => ['\\', 'n']
  | '\r' => ['\\', 'r']
  | '\\' => ['\\', '\\']
  | '\'' => ['\\', '\'']
  | c => if isInvisible b then ['\\', 'u', '\x7b'] ++ Nat.toDigits 16 b.toNat ++ ['\x7d'] else [c]

/-- A byte as a quoted character. -/
def quoted (b : UInt8) : String :=
  String.ofList ('\'' :: escaped b ++ ['\''])

/-! ## Examples -/

example : escaped 0x67 = ['g'] := by decide

example : escaped 0x1b = ['\\', 'u', '\x7b', '1', 'b', '\x7d'] := by decide

example : escaped 0xc3 = ['Ã'] := by decide

end NonceSweep.Text
