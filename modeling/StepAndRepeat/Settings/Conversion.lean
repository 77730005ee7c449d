import StepAndRepeat.Number.Reading
import StepAndRepeat.Json.Value

namespace StepAndRepeat

/-- Why a value of a document is not what is asked for. -/
inductive ValueFault where
  /-- A value of this kind is never a number. -/
  | wrongKind
  /-- The text, or the value, is not a number. -/
  | malformed
  /-- There is no number that large. -/
  | outOfRange
  /-- Members are asked of a value that is no object. -/
  | notObject
  deriving DecidableEq, Repr

namespace Json

def ofBool (b : Bool) : Int := if b then 1 else 0

/-- The whole number that a value gives; a fraction is cut toward zero. -/
def toInt : Json → Except ValueFault Int
  | bool b => .ok (ofBool b)
  | int n => .ok n
  | num x =>
    match Binary.trunc? x with
    | some n => .ok n
    | none => .error (if x.isNaN then .malformed else .outOfRange)
  | str t =>
    match t.text?.bind Reading.int? with
    | some n => .ok n
    | none => .error .malformed
  | _ => .error .wrongKind

def toFloat : Json → Except ValueFault Float
  | bool b => .ok (Binary.ofInt (ofBool b))
  | int n =>
    match Binary.ofInt? n with
    | some x => .ok x
    | none => .error .outOfRange
  | num x => .ok x
  | str t =>
    match t.text?.bind Reading.float? with
    | some x => .ok x
    | none => .error .malformed
  | _ => .error .wrongKind

end Json

end StepAndRepeat
