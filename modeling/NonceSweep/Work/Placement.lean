import NonceSweep.Text.Blank
import NonceSweep.Text.Numeral

/-!
# Placement of workers on processors

A mask has a bit for each processor that workers may run on. Workers are dealt out over the bits that are
set, from the lowest on and round again; the empty mask leaves every worker where it is.

A mask is written in decimal, or in hexadecimal after `0x`.
-/

namespace NonceSweep

/-! ## Placement -/

/-- The processors of a mask in ascending order. -/
def processors (mask : UInt64) : List Nat :=
  (List.range 64).filter mask.toNat.testBit

/-- The processor of a worker. -/
def processorOf (mask : UInt64) (worker : Nat) : Option Nat :=
  (processors mask)[worker % (processors mask).length]?

/-! ## Masks as text -/

/-- Why a text is no mask; `text` is what was read. -/
structure MaskFault where
  text : List Char
  fault : Text.Numeral.Fault
deriving DecidableEq, Repr

def MaskFault.message (f : MaskFault) : String :=
  "invalid affinity mask '" ++ String.ofList f.text ++ "': " ++ f.fault.message

/-- The number that a mask without blank ends stands for. -/
def maskValue : List Char → Except Text.Numeral.Fault Nat
  | '0' :: 'x' :: digits => Text.Numeral.natural 16 Text.Numeral.greatestWord digits
  | '0' :: 'X' :: digits => Text.Numeral.natural 16 Text.Numeral.greatestWord digits
  | digits => Text.Numeral.natural 10 Text.Numeral.greatestWord digits

/-- Reads a mask. Blank characters at the two ends do not count. -/
def parseMask (s : String) : Except MaskFault UInt64 :=
  let trimmed := Text.trim s.toList
  match maskValue trimmed with
  | .ok value => .ok (UInt64.ofNat value)
  | .error fault => .error ⟨trimmed, fault⟩

/-! ## Examples -/

example : processors 0x4a = [1, 3, 6] := by decide

example : processorOf 0x4a 3 = some 1 ∧ processorOf 0 5 = none := by decide

end NonceSweep
