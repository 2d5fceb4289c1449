import NonceSweep.Decimal.Layout

/-!
# Durations

Elapsed time in whole seconds and nanoseconds, and how it is written as a number of seconds.
-/

namespace NonceSweep

/-- A length of time. -/
structure Duration where
  seconds : UInt64
  /-- Nanoseconds beyond the whole seconds. -/
  nanos : UInt32
deriving DecidableEq, Repr

namespace Duration

def zero : Duration := ⟨0, 0⟩

def nanosPerSecond : Nat := 1000000000

/-- A duration from any number of nanoseconds beyond whole seconds, if the seconds fit 64 bits. -/
def make? (seconds : UInt64) (nanos : UInt32) : Option Duration :=
  let total := seconds.toNat + nanos.toNat / nanosPerSecond
  if total < UInt64.size then some ⟨UInt64.ofNat total, UInt32.ofNat (nanos.toNat % nanosPerSecond)⟩ else none

/-- A duration from nanoseconds. -/
def ofNanos (nanos : Nat) : Duration :=
  ⟨UInt64.ofNat (nanos / nanosPerSecond), UInt32.ofNat (nanos % nanosPerSecond)⟩

def inSeconds (d : Duration) : Float :=
  d.seconds.toFloat + d.nanos.toFloat / 1000000000.0

/-- The duration in seconds with a number of places. -/
def text (d : Duration) (places : Nat) : String :=
  String.ofList (Decimal.fixed places d.inSeconds) ++ "s"

end Duration

end NonceSweep
