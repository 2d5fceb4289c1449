import NonceSweep.Terminal.Sequence

/-!
# Styled text

A message sets some of its words off from the others. The switches between the styles are control sequences
themselves, so a switch ends whatever sequence came before it.

What is visible of a message is its text without control sequences and control characters. Tabs and line ends
stay visible, also inside a porous sequence; readers differ in what they take the sequence for after that.

## Contents

- `Styled`: messages with styles, made of `plain` and `marked` text
- `Reader`: what becomes of a sequence that is interrupted
- `visible`: what a reader shows of a message
-/

namespace NonceSweep.Terminal

/-! ## Messages -/

/-- An element of a message. -/
inductive Element where
  | character (c : Char)
  | switch
deriving DecidableEq, Repr

/-- A message with styles. -/
abbrev Styled := List Element

/-- Text in the style of what stands around it. -/
def plain (text : String) : Styled := text.toList.map .character

def marked (text : String) : Styled := .switch :: plain text ++ [.switch]

/-! ## Readers -/

/-- What a reader does after a tab or a line end that stands inside a control sequence. -/
inductive Reader where
  /-- It forgets the sequence. -/
  | forgetful
  /-- It shows what follows, up to the next control character, and then goes on with the sequence. A
  character that takes several bytes makes it forget the sequence. -/
  | persistent
deriving DecidableEq, Repr

/-- Where a reader stands. -/
inductive Position where
  /-- In text that is shown, perhaps in the middle of a sequence that was interrupted. -/
  | outside (interrupted : Option Sequence)
  | inside (sequence : Sequence)
deriving DecidableEq, Repr

/-- Whether a character is a tab or ends a line. -/
def isSpacing (c : Char) : Bool :=
  c = '\t' || c = '\n' || c = '\x0c' || c = '\r'

/-- Whether a character outside of any sequence is shown. -/
def isShown (c : Char) : Bool :=
  isSpacing c || (' ' ≤ c && c != '\x7f')

/-- The position after a sequence has gone on. -/
def Position.ofSequence : Option Sequence → Position
  | some sequence => .inside sequence
  | none => .outside none

/-- Reads a character that neither begins nor cancels a sequence. Says whether it is shown. -/
def Position.read (reader : Reader) (c : Char) : Position → Bool × Position
  | .outside none => (isShown c, .outside none)
  | .outside (some sequence) =>
    if isShown c then (true, .outside (if c ≤ '\x7f' then some sequence else none))
    else (false, .inside sequence)
  | .inside sequence =>
    if sequence.isPorous && isSpacing c then
      (true, .outside (if reader = .persistent then some sequence else none))
    else (false, .ofSequence (sequence.next c))

/-- Reads a character. Says whether it is shown. -/
def Position.advance (reader : Reader) (position : Position) (c : Char) : Bool × Position :=
  if c = '\x1b' then (false, .inside .opened)
  else if c = '\x18' ∨ c = '\x1a' then (false, .outside none)
  else position.read reader c

/-- What a reader shows of a message from a position on. -/
def visibleFrom (reader : Reader) : Position → Styled → List Char
  | _, [] => []
  | _, .switch :: rest => visibleFrom reader (.outside none) rest
  | position, .character c :: rest =>
    let (shown, position) := position.advance reader c
    if shown then c :: visibleFrom reader position rest else visibleFrom reader position rest

/-- What a reader shows of a message. -/
def visible (reader : Reader) (message : Styled) : String :=
  String.ofList (visibleFrom reader (.outside none) message)

/-! ## Examples -/

example : visible .forgetful (plain "a\x1b[31mb\x07" ++ marked "c\x1b[" ++ plain "d") = "abcd" := by decide

-- the letter after the bell ends the sequence that the tab interrupted
example : visible .persistent (plain "\x1b[3\tab\x07cd") = "\tabd" := by decide

example : visible .forgetful (plain "\x1b[3\tab\x07cd") = "\tabcd" := by decide

end NonceSweep.Terminal
