import StepAndRepeat.Text.Blank
import StepAndRepeat.Text.Digit
import StepAndRepeat.Number.Binary
import StepAndRepeat.Number.Digits

namespace StepAndRepeat.Reading

open Text

/-- The white space allowed around a number: all but the information separators. -/
def isMargin (c : Char) : Bool := isBlank c && !within [(0x1C, 0x1F)] c

def strip (t : Text) : Text := dropEndWhile isMargin (t.dropWhile isMargin)

def sign : Text → Bool × Text
  | '-' :: t => (true, t)
  | '+' :: t => (false, t)
  | t => (false, t)

/-- Read on with digits after a digit; single underscores may divide them. The answer holds the
value, the count of digits, and what follows them. -/
def moreDigits (value count : Nat) : Text → Nat × Nat × Text
  | [] => (value, count, [])
  | c :: t =>
    match digitValue? c with
    | some d => moreDigits (10 * value + d) (count + 1) t
    | none =>
      match c, t with
      | '_', d :: u =>
        match digitValue? d with
        | some d => moreDigits (10 * value + d) (count + 1) u
        | none => (value, count, c :: d :: u)
      | _, _ => (value, count, c :: t)

/-- Digits at the start of a text, continuing a value: the value, their count, and the rest. -/
def digits (value : Nat) : Text → Nat × Nat × Text
  | [] => (value, 0, [])
  | c :: t =>
    match digitValue? c with
    | some d => moreDigits (10 * value + d) 1 t
    | none => (value, 0, c :: t)

/-- A whole number. One with too many digits is none. -/
def int? (t : Text) : Option Int :=
  let (negative, t) := sign (strip t)
  match digits 0 t with
  | (n, count, []) =>
    if count = 0 ∨ digitLimit < count then none else some (if negative then -(n : Int) else n)
  | _ => none

/-- A point and the digits after it, continuing a value. A point that digits do not follow is
left with no places. -/
def fraction (value : Nat) : Text → Nat × Nat × Text
  | '.' :: t => digits value t
  | t => (value, 0, t)

def exponent? : Text → Option Int
  | [] => some 0
  | c :: t =>
    if c = 'e' ∨ c = 'E' then
      let (negative, t) := sign t
      match digits 0 t with
      | (n, count, []) => if count = 0 then none else some (if negative then -(n : Int) else n)
      | _ => none
    else none

def lower (t : Text) : Text := t.map Char.toLower

def unsigned? (t : Text) : Option Float :=
  if lower t = "inf".toList ∨ lower t = "infinity".toList then some Binary.infinity
  else if lower t = "nan".toList then some (0 / 0)
  else
    let (whole, count, t) := digits 0 t
    let (value, places, t) := fraction whole t
    if count + places = 0 then none
    else (exponent? t).map fun e ↦ Binary.ofDecimal value (e - places)

def float? (t : Text) : Option Float :=
  let (negative, t) := sign (strip t)
  (unsigned? t).map fun x ↦ if negative then -x else x

end StepAndRepeat.Reading
