/-!
# Blank characters

The characters with the Unicode property White_Space, and the removal of them at the ends of a text.
-/

namespace NonceSweep.Text

/-- The first and the last code point of each range of blank characters, in ascending order. -/
def blankRanges : List (Nat × Nat) :=
  [(0x0009, 0x000d), (0x0020, 0x0020), (0x0085, 0x0085), (0x00a0, 0x00a0), (0x1680, 0x1680),
   (0x2000, 0x200a), (0x2028, 0x2029), (0x202f, 0x202f), (0x205f, 0x205f), (0x3000, 0x3000)]

/-- Whether a character has the property White_Space. -/
def isBlank (c : Char) : Bool :=
  blankRanges.any fun range => range.1 ≤ c.toNat && c.toNat ≤ range.2

/-- The text without the blank characters at its two ends. -/
def trim (text : List Char) : List Char :=
  ((text.dropWhile isBlank).reverse.dropWhile isBlank).reverse

/-! ## Examples -/

example : isBlank ' ' ∧ isBlank '\t' ∧ isBlank '\u00a0' ∧ isBlank '\u3000' := by decide

-- the zero-width space and the byte order mark are not blank
example : isBlank '\u200b' = false ∧ isBlank '\ufeff' = false := by decide

example : trim [' ', 'a', ' ', 'b', '\n'] = ['a', ' ', 'b'] := by decide

end NonceSweep.Text
