import NonceSweep.Hardware
import NonceSweep.Program

/-!
# The command

The outermost layer: it looks at the host and at the clock, and prints. Workers run in turn, which is one
of the ways in which they may be interleaved.
-/

namespace NonceSweep.Command

/-- Prints what a program leaves behind, and gives its exit status: that of an abort, if it has none. -/
def finish (output : Output) : IO UInt32 := do
  for line in output.stdout do IO.println line
  for line in output.stderr do IO.eprintln line
  return UInt32.ofNat (output.status.getD 134)

/-- The value of a function, and the time it took. -/
def timed {α : Type} (compute : Unit → α) : IO (α × Duration) := do
  let before ← IO.monoNanosNow
  let value ← IO.lazyPure compute
  let after ← IO.monoNanosNow
  return (value, .ofNanos (after - before))

/-- What is known of the host. Workers cannot be bound to processors. -/
def host : IO Host := do
  let description ← try IO.FS.readFile "/proc/cpuinfo" catch _ => pure ""
  let memory ← try IO.FS.readFile "/proc/meminfo" catch _ => pure ""
  return {
    processors := Hardware.processors description
    features := Hardware.features description
    memory := (Hardware.memory? memory).getD Sweep.greatestTable
    allows := fun _ => false
    setupTime := .zero
    sweepTime := .zero }

def run (arguments : List String) : IO UInt32 := do
  let host ← host
  match Program.prologue host arguments with
  | .error output => finish output
  | .ok (invocation, plan) =>
    for line in Program.heading host invocation plan do IO.println line
    let backend := Backend.bundled .standard .inOrder
    let (started, setupTime) ← timed fun _ => Sweep.start backend host plan .standard
    match started.result with
    | .error failure => finish (Program.epilogue backend invocation plan (.error failure))
    | .ok (.error collapse) => finish (Program.epilogue backend invocation plan (.ok (.error collapse)))
    | .ok (.ok pool) =>
      let (pool, sweepTime) ← timed fun _ => Pool.inTurn pool
      let concluded := Sweep.conclude { host with setupTime, sweepTime } plan pool
      finish (Program.epilogue backend invocation plan (concluded.result.map .ok))

end NonceSweep.Command

def main (arguments : List String) : IO UInt32 :=
  NonceSweep.Command.run arguments
