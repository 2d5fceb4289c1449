import NonceSweep.CommandLine.Invocation
import NonceSweep.Terminal.Styled

/-!
# Reading a command line

Arguments are read from left to right, and the first mistake ends the reading.

A setting takes its value after `=`, or from the next argument that is not an option. The value of such a
setting is looked at late: when the next option is met, or at the end. If what comes next is no option at
all, that mistake is reported and the value is not looked at.

An argument behind `--` is never an option, and no argument but options and their values is allowed.

## Contents

- `Mistake`, `Stop`: why reading ends before the end, and the message about it
- `Reading`: what has been read so far
- `parse`: reads all arguments
-/

namespace NonceSweep.CommandLine

/-! ## Mistakes -/

/-- What is wrong with a command line. -/
inductive Mistake where
  /-- An argument is neither an option nor a value. -/
  | unknown (argument : String)
  /-- A value is attached to an option that takes none. -/
  | unwantedValue (option : Choice) (value : String)
  | missingValue (setting : Setting)
  | repeated (option : Choice)
  | invalidValue (setting : Setting) (value reason : String)
  /-- Two switches exclude each other. -/
  | conflict (first second : Switch)
deriving DecidableEq, Repr

namespace Mistake

open Terminal (Styled plain marked)

/-- The wording of a mistake. What the user typed and the names of options are set off; the reason why a
value is invalid is not, although it may quote the value. -/
def wording : Mistake → Styled
  | .unknown argument => plain "unexpected argument '" ++ marked argument ++ plain "' found"
  | .unwantedValue option value =>
    plain "unexpected value '" ++ marked value ++ plain "' for '" ++ marked option.shown ++
      plain "' found; no more were expected"
  | .missingValue setting =>
    plain "a value is required for '" ++ marked setting.shown ++ plain "' but none was supplied"
  | .repeated option =>
    plain "the argument '" ++ marked option.shown ++ plain "' cannot be used multiple times"
  | .invalidValue setting value reason =>
    plain "invalid value '" ++ marked value ++ plain "' for '" ++ marked setting.shown ++ plain "': " ++
      plain reason
  | .conflict first second =>
    plain "the argument '" ++ marked first.shown ++ plain "' cannot be used with '" ++
      marked second.shown ++ plain "'"

def advice (m : Mistake) : Styled :=
  m.wording ++ plain "\n\nFor more information, try '" ++ marked Choice.help.shown ++ plain "'."

def message (m : Mistake) : String := Terminal.visible .forgetful m.advice

end Mistake

/-- Why reading ends without an invocation. -/
inductive Stop where
  | help
  | version
  | mistake (m : Mistake)
deriving DecidableEq, Repr

/-! ## Values -/

def greatestSeed : Int := 0xffffffff

def readWord (value : String) : Except String UInt64 :=
  match Text.Numeral.natural 10 Text.Numeral.greatestWord value.toList with
  | .ok n => .ok (UInt64.ofNat n)
  | .error fault => .error fault.message

/-- Reads a seed: first as a signed 64-bit number, which then has to lie in the range of seeds. -/
def readSeed (value : String) : Except String UInt32 :=
  match Text.Numeral.integer 0x7fffffffffffffff value.toList with
  | .ok n =>
    if 0 ≤ n ∧ n ≤ greatestSeed then .ok (UInt32.ofNat n.toNat)
    else .error (toString n ++ " is not in 0..=" ++ toString greatestSeed)
  | .error fault => .error fault.message

/-- Writes the value of a setting into an invocation. -/
def Setting.write (s : Setting) (value : String) (i : Invocation) : Except String Invocation :=
  match s with
  | .threads => (readWord value).map fun threads => { i with threads }
  | .affinity =>
    match parseMask value with
    | .ok mask => .ok { i with affinity := mask }
    | .error fault => .error fault.message
  | .init => (readWord value).map fun initThreads => { i with initThreads }
  | .nonces => (readWord value).map fun nonces => { i with nonces }
  | .seed => (readSeed value).map fun seed => { i with seed }
  | .expect =>
    match Fingerprint.parse value with
    | .ok fingerprint => .ok { i with expect := some fingerprint }
    | .error fault => .error fault.message

/-! ## Reading -/

/-- What has been read so far. -/
structure Reading where
  invocation : Invocation
  /-- The settings that have been given a good value. -/
  settings : List Setting
  /-- A setting whose value is not attached, and that value if it has been met. -/
  pending : Option (Setting × Option String)

namespace Reading

def start : Reading := ⟨.standard, [], none⟩

def give (r : Reading) (s : Setting) (value : String) : Except Stop Reading :=
  if s ∈ r.settings then .error (.mistake (.repeated (.setting s)))
  else
    match s.write value r.invocation with
    | .ok invocation => .ok { r with invocation, settings := r.settings ++ [s] }
    | .error reason => .error (.mistake (.invalidValue s value reason))

/-- Gives the pending setting its value. -/
def settle (r : Reading) : Except Stop Reading :=
  match r.pending with
  | none => .ok r
  | some (s, none) => .error (.mistake (.missingValue s))
  | some (s, some value) => give { r with pending := none } s value

def turnOn (r : Reading) (s : Switch) : Except Stop Reading :=
  if r.invocation.has s then .error (.mistake (.repeated (.switch s)))
  else .ok { r with invocation := { r.invocation with switches := r.invocation.switches ++ [s] } }

/-- Reads an option by its name, with the value that is attached to it. -/
def option (r : Reading) (name : String) (value : Option String) : Except Stop Reading :=
  match Choice.named? name, value with
  | none, _ => .error (.mistake (.unknown ("--" ++ name)))
  | some (.setting s), some value => do (← r.settle).give s value
  | some (.setting s), none => do return { (← r.settle) with pending := some (s, none) }
  | some choice, some value => .error (.mistake (.unwantedValue choice value))
  | some (.switch s), none => do (← r.settle).turnOn s
  | some .help, none => do
    let _ ← r.settle
    .error .help
  | some .version, none => do
    let _ ← r.settle
    .error .version

/-- Reads an option of one letter. -/
def letter (r : Reading) (c : Char) : Except Stop Reading :=
  match c with
  | 'h' => r.option "help" none
  | 'V' => r.option "version" none
  | c => .error (.mistake (.unknown (String.ofList ['-', c])))

/-- Reads an argument that is no option: the value that is waited for. -/
def plain (r : Reading) (argument : String) : Except Stop Reading :=
  match r.pending with
  | some (s, none) => .ok { r with pending := some (s, some argument) }
  | _ => .error (.mistake (.unknown argument))

/-- Reads one argument. A single dash is no option. -/
def argument (r : Reading) (argument : String) : Except Stop Reading :=
  match argument.toList with
  | '-' :: '-' :: body =>
    let name := String.ofList (body.takeWhile (· ≠ '='))
    match body.dropWhile (· ≠ '=') with
    | [] => r.option name none
    | _ :: value => r.option name (some (String.ofList value))
  | '-' :: c :: _ => r.letter c
  | _ => r.plain argument

def arguments : Reading → List String → Except Stop Reading
  | r, [] => r.settle
  | r, arg :: rest =>
    if arg = "--" then
      match rest with
      | [] => r.settle
      | first :: _ => .error (.mistake (.unknown first))
    else do arguments (← r.argument arg) rest

end Reading

/-- Looks for two switches that exclude each other; the one given first is named first. -/
def conflict? (i : Invocation) : Option (Switch × Switch) :=
  match i.switches.filter fun s => s = .mine || s = .verify with
  | first :: second :: _ => some (first, second)
  | _ => none

/-- Reads a command line, the name of the program left out. -/
def parse (arguments : List String) : Except Stop Invocation := do
  let r ← Reading.start.arguments arguments
  match conflict? r.invocation with
  | some (first, second) => .error (.mistake (.conflict first second))
  | none => return r.invocation

end NonceSweep.CommandLine
