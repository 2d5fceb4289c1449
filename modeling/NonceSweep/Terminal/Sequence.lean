/-!
# Control sequences

A terminal takes an escape character and what follows it as an instruction. What kind of instruction it is,
the next character says; where it ends, depends on the kind. A character that means nothing at its place
changes nothing.

An escape character begins a new sequence wherever it stands, and two other control characters end any
sequence. These three are not looked at here.

## Contents

- `Sequence`: how far a control sequence has come
- `Sequence.next`: the sequence after one more character
-/

namespace NonceSweep.Terminal

/-- How far a control sequence has come. -/
inductive Sequence where
  /-- The escape character alone. -/
  | opened
  /-- A short instruction: marks, then a character from `0` on that ends it. -/
  | short
  /-- An instruction with parameters, which a character from `@` on ends. -/
  | parameters
  /-- A device string, before anything that belongs to it. -/
  | deviceHead
  /-- A device string in its parameters. -/
  | deviceParameters
  /-- A device string in the marks behind its parameters. -/
  | deviceMarks
  /-- A text that is not shown, which the byte `terminator` ends. -/
  | hidden
  /-- A title, which a bell ends. -/
  | title
deriving DecidableEq, Repr

/-- The byte that ends a hidden text. It may be any byte of a character but the first. -/
def terminator : UInt8 := 0x9c

/-- Whether a character lies between two others. -/
def within (low high c : Char) : Bool := low ≤ c && c ≤ high

namespace Sequence

/-- What an escape character and the character behind it open. -/
def kind (c : Char) : Option Sequence :=
  if c = '[' then some .parameters
  else if c = ']' then some .title
  else if c = 'P' then some .deviceHead
  else if c = 'X' ∨ c = '^' ∨ c = '_' then some .hidden
  else if within ' ' '/' c then some .short
  else if within '0' '~' c then none
  else some .opened

/-- The sequence after one more character; nothing if the character ends it. -/
def next : Sequence → Char → Option Sequence
  | .opened, c => kind c
  | .short, c => if within '0' '~' c then none else some .short
  | .parameters, c => if within '@' '~' c then none else some .parameters
  | .deviceHead, c =>
    if within ' ' '/' c then some .deviceMarks
    else if within '0' '?' c then some .deviceParameters
    else if within '@' '~' c then some .hidden
    else some .deviceHead
  | .deviceParameters, c =>
    if within ' ' '/' c then some .deviceMarks
    else if within '<' '~' c then some .hidden
    else some .deviceParameters
  | .deviceMarks, c => if within '0' '~' c then some .hidden else some .deviceMarks
  | .hidden, c => if terminator ∈ String.utf8EncodeChar c then none else some .hidden
  | .title, c => if c = '\x07' then none else some .title

/-- Whether a tab or a line end is shown although it stands inside the sequence. -/
def isPorous : Sequence → Bool
  | .opened | .short | .parameters => true
  | _ => false

end Sequence

/-! ## Examples -/

example : Sequence.next .opened 'c' = none ∧ Sequence.next .opened 'é' = some .opened := by decide

-- the second byte of this letter is the terminator
example : Sequence.next .hidden 'Ü' = none ∧ Sequence.next .deviceHead 'Ü' = some .deviceHead := by decide

end NonceSweep.Terminal
