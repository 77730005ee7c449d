import StepAndRepeat.Text.Blank

namespace StepAndRepeat.Label

def maxLength : Nat := 50

def maxContent : Nat := 30

def isPlain (c : Char) : Bool := c.isAlphanum || c = '_' || c = ' ' || c = '-'

def inner? : Text → Option Text
  | '(' :: t => if t.getLast? = some ')' then some t.dropLast else none
  | _ => none

def isLabel (t : Text) : Bool :=
  let t := Text.trim t
  match inner? t with
  | none => false
  | some content =>
    let content := Text.trim content
    decide (t.length ≤ maxLength) && decide (2 ≤ content.length) &&
      decide (content.length < maxContent) && content.all isPlain

end StepAndRepeat.Label
