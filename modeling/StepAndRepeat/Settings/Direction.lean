import StepAndRepeat.Json.Literal

namespace StepAndRepeat

inductive Direction where
  | positive
  | negative
  deriving DecidableEq, Repr

namespace Direction

def name : Direction → Text
  | positive => "positive".toList
  | negative => "negative".toList

def sign : Direction → Int
  | positive => 1
  | negative => -1

def ofName? (t : Text) : Option Direction :=
  let t := t.map Char.toLower
  if t = positive.name then some positive
  else if t = negative.name then some negative
  else none

/-- The direction that a value names. No value but a text names one. -/
def ofJson? (v : Json) : Option Direction := v.plainText.text?.bind ofName?

theorem ofName?_name (d : Direction) : ofName? d.name = some d := by cases d <;> decide

end Direction

end StepAndRepeat
