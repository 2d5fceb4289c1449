import NonceSweep.Outcome.Duration
import NonceSweep.Outcome.Failure
import NonceSweep.Work.Plan

/-!
# Reports

What a finished sweep found, and its text: one member per line, in a fixed order, as a JSON object.
-/

namespace NonceSweep

structure Report where
  fingerprint : Fingerprint
  strategy : Strategy
  threads : UInt64
  nonces : UInt64
  /-- Hashes merged by all workers. -/
  hashes : UInt64
  /-- Hashes merged by each worker. -/
  perWorker : List UInt64
  /-- Numbers that the dispenser handed out. -/
  claims : UInt64
  elapsed : Duration

namespace Report

/-- Hashes per second; none if no time passed. -/
def rate (r : Report) : Float :=
  let seconds := r.elapsed.inSeconds
  if 0.0 < seconds then r.hashes.toFloat / seconds else 0.0

/-- Compares the fingerprint with the expected one. -/
def compare (r : Report) (expected : Fingerprint) : Except Failure Unit :=
  if r.fingerprint = expected then .ok () else .error (.mismatch expected r.fingerprint)

/-! ## Text -/

/-- Seconds are written without an exponent from `0.00001` up to sixteen digits before the point. -/
def seconds : Decimal.Layout := ⟨-5, 15⟩

def numeral (n : UInt64) : List Char := Text.Numeral.decimal n.toNat

/-- A text between double quotes. It holds nothing that would need to be escaped. -/
def string (text : List Char) : List Char := '"' :: text ++ ['"']

/-- A member of the object, up to its value. -/
def member (name : String) : List Char := [' ', ' '] ++ string name.toList ++ [':', ' ']

/-- The lines of the elements of a list, all but the last with a comma. -/
def elements : List UInt64 → List (List Char)
  | [] => []
  | [last] => [List.replicate 4 ' ' ++ numeral last]
  | next :: rest => (List.replicate 4 ' ' ++ numeral next ++ [',']) :: elements rest

/-- The lines of a member that is a list. The empty list has no lines of its own. -/
def listMember (name : String) (values : List UInt64) : List (List Char) :=
  match values with
  | [] => [member name ++ ['[', ']', ',']]
  | values => (member name ++ ['[']) :: elements values ++ [[' ', ' ', ']', ',']]

def lines (r : Report) : List (List Char) :=
  [['\x7b'],
   member "fingerprint" ++ string r.fingerprint.characters ++ [','],
   member "strategy" ++ string r.strategy.name.toList ++ [','],
   member "threads" ++ numeral r.threads ++ [','],
   member "nonces" ++ numeral r.nonces ++ [','],
   member "hashes" ++ numeral r.hashes ++ [',']] ++
  listMember "per_worker" r.perWorker ++
  [member "claims" ++ numeral r.claims ++ [','],
   member "elapsed_secs" ++ seconds.render r.elapsed.inSeconds,
   ['\x7d']]

def characters (r : Report) : List Char := List.intercalate ['\n'] r.lines

def text (r : Report) : String := String.ofList r.characters

end Report

end NonceSweep
