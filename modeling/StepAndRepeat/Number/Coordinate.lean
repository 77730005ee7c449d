import StepAndRepeat.Number.Numeral
import StepAndRepeat.Number.Fixed

namespace StepAndRepeat

/-- A kind of number that coordinates are made of. Comparisons are tests, since a kind of number
may hold values that compare with nothing. -/
class Coordinate (α : Type) extends Add α, Sub α, Mul α, Div α, Neg α where
  ofInt : Int → α
  ofNumeral : Numeral → α
  lt : α → α → Bool
  le : α → α → Bool
  same : α → α → Bool
  fixed : Nat → α → Text
  /-- The whole number toward zero, if there is one. -/
  trunc? : α → Option Int
  /-- Every number but a greatest one, or one that compares with nothing, can be a lower
  bound. -/
  belowTop : α → Bool
  /-- Every number but a least one, or one that compares with nothing, can be an upper bound. -/
  aboveBottom : α → Bool

namespace Coordinate

variable {α : Type} [Coordinate α]

def zero : α := ofInt 0

def isNumeral (n : Numeral) (x : α) : Bool := same x (ofNumeral n)

def isNat (n : Nat) (x : α) : Bool := isNumeral (.ofNat n) x

def least (a b : α) : α := if lt b a then b else a

def greatest (a b : α) : α := if lt a b then b else a

end Coordinate

instance : Coordinate Float where
  ofInt := Binary.ofInt
  ofNumeral n := let x := Binary.ofDecimal n.digits (-(n.places : Int))
    if n.negative then -x else x
  lt a b := decide (a < b)
  le a b := decide (a ≤ b)
  same a b := a == b
  fixed := Binary.fixed
  trunc? := Binary.trunc?
  belowTop x := decide (x < Binary.infinity)
  aboveBottom x := decide (-Binary.infinity < x)

end StepAndRepeat
