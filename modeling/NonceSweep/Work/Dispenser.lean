/-!
# The dispenser of numbers

Workers take the numbers that they hash from one dispenser. It hands out consecutive 64-bit numbers and
starts again at zero after the last.
-/

namespace NonceSweep

/-- Hands out consecutive numbers. -/
structure Dispenser where
  /-- The number to be handed out next. -/
  next : UInt64
deriving DecidableEq, Repr

namespace Dispenser

def new : Dispenser := ⟨0⟩

/-- Hands out `first` and what follows it. -/
def startingAt (first : UInt64) : Dispenser := ⟨first⟩

def claim (d : Dispenser) : UInt64 × Dispenser := (d.next, ⟨d.next + 1⟩)

end Dispenser

end NonceSweep
