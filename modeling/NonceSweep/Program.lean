import NonceSweep.CommandLine.Reading
import NonceSweep.Sweep.ProfileCheck
import NonceSweep.Sweep.Stages

/-!
# The program

From a command line to what is printed and the exit status. A run that ends well has status 0, one that
fails has status 1 and says why, and a command line that is not understood has status 2.

Reading the command line and printing the heading come before the sweep, everything else after it, so that
the sweep can be run and timed in between.

## Contents

- `Program.prologue`: what happens before the sweep
- `Program.heading`: what is printed while it runs
- `Program.epilogue`: what happens after it
- `Program.run`: all of it
-/

namespace NonceSweep

/-- What a program leaves behind. -/
structure Output where
  stdout : List String
  stderr : List String
  /-- The exit status; a program that the system cuts off has none. -/
  status : Option Nat
deriving DecidableEq, Repr

namespace Output

def lines (printed : List String) : Output := ⟨printed, [], some 0⟩

/-- A failure and its reason. -/
def failure (reason : String) : Output := ⟨[], ["Error: " ++ reason], some 1⟩

/-- A call broke off. -/
def broken : Output := ⟨[], [], some 101⟩

/-- A sweep collapsed. Where memory ran out, the system cuts the program off. -/
def collapsed : Collapse → Output
  | .tooLarge => broken
  | .outOfMemory bytes => ⟨[], ["memory allocation of " ++ toString bytes ++ " bytes failed"], none⟩

/-- Goes on after success. -/
def andThen (first next : Output) : Output :=
  if first.status = some 0 then { next with stdout := first.stdout ++ next.stdout } else first

end Output

namespace Program

open CommandLine (Invocation Mistake Stop Switch Setting)

/-! ## Fixed texts -/

def purpose : String := "Multi-threaded nonce benchmark for the UniversalHash engine"

def name : String := "uhash-bench"

def version : String := name ++ " 0.1.0"

def help : List String :=
  [purpose, "", "Usage: " ++ name ++ " [OPTIONS]", "", "Options:"] ++
  (Switch.all.map fun s => "      " ++ s.shown ++ "  " ++ s.help) ++
  (Setting.all.map fun s => "      " ++ s.shown ++ "  " ++ s.help) ++
  ["  -h, --help  Print help", "  -V, --version  Print version"]

/-- What is printed when the command line holds a mistake. -/
def complaint (m : Mistake) : List String :=
  let message := Terminal.marked "error:" ++ Terminal.plain " " ++ m.advice
  (Terminal.visible .persistent message).splitOn "\n"

/-! ## Before the sweep -/

/-- Reads the command line and makes the plan; without one there is nothing left to do but to print. -/
def prologue (host : Host) (arguments : List String) : Except Output (Invocation × Plan) :=
  match CommandLine.parse arguments with
  | .error .help => .error (.lines help)
  | .error .version => .error (.lines [version])
  | .error (.mistake m) => .error ⟨[], complaint m, some 2⟩
  | .ok invocation =>
    match invocation.plan host.features with
    | .error fault => .error (.failure (Failure.plan fault).message)
    | .ok plan => .ok (invocation, plan)

/-- What is printed before the sweep, unless the report is printed as JSON. -/
def heading (host : Host) (invocation : Invocation) (plan : Plan) : List String :=
  if invocation.has .json then []
  else
    ["=== UniversalHash Nonce Benchmark ===",
     "Profile:  " ++ plan.options.profile.text,
     "Mode:     " ++ plan.strategy.text,
     "Threads:  " ++ toString plan.threads.toNat ++ " (" ++ toString host.processors ++ " CPUs)"] ++
    (if plan.affinity = 0 then []
     else ["Affinity: " ++ String.ofList (Text.Numeral.hexadecimal plan.affinity.toNat)]) ++
    ["Init:     " ++ toString plan.initThreads.toNat ++ " thread(s), " ++ plan.options.kernel.text ++
       " kernel",
     "AES:      " ++ (if plan.options.softAes then "software" else "hardware"),
     "Nonces:   " ++ toString plan.nonces.toNat,
     "Seed:     " ++ toString plan.seed.toNat,
     "=====================================",
     ""]

/-! ## After the sweep -/

def results (invocation : Invocation) (report : Report) : List String :=
  if invocation.has .json then report.lines.map String.ofList
  else
    ["Calculated result: " ++ report.fingerprint.text,
     "Hashes:            " ++ toString report.hashes.toNat,
     "Time elapsed:      " ++ report.elapsed.text 3,
     "Performance:       " ++ String.ofList (Decimal.fixed 2 report.rate) ++ " hashes per second"]

/-- Prints a line, unless the report is printed as JSON. -/
def remark (invocation : Invocation) (line : String) : Output :=
  .lines (if invocation.has .json then [] else [line])

/-- Checks the two profiles, if that is asked for. -/
def profiles (b : Backend) (invocation : Invocation) (plan : Plan) : Output :=
  if invocation.has .check then
    match (ProfileCheck.run b plan .standard).result with
    | .error failure => .failure failure.message
    | .ok .panicked => .broken
    | .ok (.done check) =>
      if check.agrees then remark invocation "Profile check:     light and full agree"
      else
        .failure ("light and full profiles disagree: " ++ check.light.text ++ " vs " ++ check.full.text)
  else .lines []

/-- Compares the fingerprint with the expected one, if there is one. -/
def verification (invocation : Invocation) (report : Report) : Output :=
  match invocation.expect with
  | none => .lines []
  | some expected =>
    match report.compare expected with
    | .error failure => .failure failure.message
    | .ok () => remark invocation "Fingerprint:       verified"

/-- What is left to do once the sweep is over. -/
def epilogue (b : Backend) (invocation : Invocation) (plan : Plan)
    (outcome : Except Failure (Except Collapse Report)) : Output :=
  match outcome with
  | .error failure => .failure failure.message
  | .ok (.error collapse) => .collapsed collapse
  | .ok (.ok report) =>
    ((Output.lines (results invocation report)).andThen (profiles b invocation plan)).andThen
      (verification invocation report)

/-- The program, its sweep run under a schedule. -/
def run (b : Backend) (host : Host) (schedule : Pool.Schedule b) (arguments : List String) : Output :=
  match prologue host arguments with
  | .error output => output
  | .ok (invocation, plan) =>
    let outcome := (Sweep.run b host schedule plan .standard).result
    (Output.lines (heading host invocation plan)).andThen (epilogue b invocation plan outcome)

end Program

end NonceSweep
