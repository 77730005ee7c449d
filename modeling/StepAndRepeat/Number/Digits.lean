import StepAndRepeat.Number.Fixed
import StepAndRepeat.Text.Digit

namespace StepAndRepeat

/-- A number with more digits is neither read nor written. -/
def digitLimit : Nat := 4300

inductive Overrun where
  /-- A number with more digits than are read or written. -/
  | digits
  /-- A list with more items than can be counted. -/
  | items
  deriving DecidableEq, Repr

namespace Overrun

def message : Overrun → Text
  | digits => "A number has too many digits".toList
  | items => "A list has too many items".toList

end Overrun

namespace Text

/-- Leading zeros count as digits. -/
def readDigits (ds : Text) : Except Overrun Nat :=
  if digitLimit < ds.length then .error .digits else .ok (digitsToNat ds)

def writeInt (n : Int) : Except Overrun Text :=
  if digitLimit < (ofNat n.natAbs).length then .error .digits else .ok (ofInt n)

end Text

end StepAndRepeat
