import StepAndRepeat.Number.Digits
import StepAndRepeat.Text.CodeText

namespace StepAndRepeat

inductive Json where
  | null
  | bool (b : Bool)
  | int (n : Int)
  | num (x : Float)
  | str (t : CodeText)
  | list (items : List Json)
  | object (members : List (CodeText × Json))

namespace Json

def find? (key : CodeText) : List (CodeText × Json) → Option Json
  | [] => none
  | (k, v) :: ms => if k = key then some v else find? key ms

/-- Members with a key set to a value: in its place if it is there, else at the end. -/
def set (key : CodeText) (value : Json) : List (CodeText × Json) → List (CodeText × Json)
  | [] => [(key, value)]
  | (k, v) :: ms => if k = key then (k, value) :: ms else (k, v) :: set key value ms

def get? (key : CodeText) : Json → Option Json
  | object ms => find? key ms
  | _ => none

/-- A value counts as false when it is nothing, zero, or empty. A number that is no number is
not zero. -/
def truthy : Json → Bool
  | null => false
  | bool b => b
  | int n => n ≠ 0
  | num x => !(x == 0)
  | str t => !t.isEmpty
  | list items => !items.isEmpty
  | object ms => !ms.isEmpty

mutual

/-- No number within the value is too long to be written. -/
def isWritable : Json → Bool
  | int n => (Text.writeInt n).isOk
  | list vs => itemsWritable vs
  | object ms => membersWritable ms
  | _ => true

def itemsWritable : List Json → Bool
  | [] => true
  | v :: vs => v.isWritable && itemsWritable vs

def membersWritable : List (CodeText × Json) → Bool
  | [] => true
  | (_, v) :: ms => v.isWritable && membersWritable ms

end

end Json

end StepAndRepeat
