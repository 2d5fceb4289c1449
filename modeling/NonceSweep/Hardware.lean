import NonceSweep.Engine.Options
import NonceSweep.Text.Numeral

/-!
# Descriptions of a host

A host describes its processors in a text with one property per line, the name of the property before a
colon. Each processor begins with a line of its own, and one line lists what it offers. Another text of the
same form describes its memory.
-/

namespace NonceSweep.Hardware

/-- The name and the value of a line. -/
def property (line : String) : String × String :=
  match line.splitOn ":" with
  | [] => ("", "")
  | first :: rest => (first.trimAscii.toString, ":".intercalate rest)

/-- The values of a property, in the order of the lines. -/
def values (description name : String) : List String :=
  ((description.splitOn "\n").map property).filterMap fun (key, value) =>
    if key = name then some value else none

/-- Number of processors; at least one. -/
def processors (description : String) : Nat :=
  max 1 (values description "processor").length

def features (description : String) : Engine.Features :=
  let flags := ((values description "flags").headD "").splitOn " "
  { aes := flags.contains "aes", ssse3 := flags.contains "ssse3", avx2 := flags.contains "avx2" }

/-- Bytes of memory. The description counts them in units of 1024. -/
def memory? (description : String) : Option Nat :=
  let digits := ((values description "MemTotal").headD "").toList.filter Char.isDigit
  match Text.Numeral.natural 10 Text.Numeral.greatestWord digits with
  | .ok units => some (1024 * units)
  | .error _ => none

end NonceSweep.Hardware
