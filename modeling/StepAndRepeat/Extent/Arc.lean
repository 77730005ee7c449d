import StepAndRepeat.Number.Coordinate

namespace StepAndRepeat

/-- A kind of number in which circles can be measured. -/
class Circular (α : Type) extends Coordinate α where
  pi : α
  sin : α → α
  cos : α → α
  /-- The angle of the point with the given ordinate and abscissa. -/
  angle : α → α → α
  radius : α → α → α
  /-- What is left of the first number after taking whole multiples of the second, toward
  zero. -/
  remainder : α → α → α
  isInfinite : α → Bool

structure Rectangle (α : Type) where
  minX : α
  minY : α
  maxX : α
  maxY : α
  deriving DecidableEq, Repr

structure Arc (α : Type) where
  centerX : α
  centerY : α
  radius : α
  start : α
  stop : α
  clockwise : Bool
  deriving Repr

namespace Angle

open Coordinate

variable {α : Type} [Circular α]

def turn : α := ofInt 2 * Circular.pi

def tiny : α := ofNumeral ⟨false, 1, 9⟩

def normalize (a : α) : α :=
  let r := Circular.remainder a turn
  let r := if lt r zero then r + turn else r
  if le turn r then r - turn else r

/-- An infinite angle has no direction. -/
def normalize? (a : α) : Option α :=
  if Circular.isInfinite a then none else some (normalize a)

def distance (a b : α) : α := let d := a - b; if lt d zero then -d else d

/-- An arc from one normalized angle to another sweeps over a third. A clockwise sweep runs
through falling angles. Ends that are the same make a full circle. -/
def inSweep (a start stop : α) (clockwise : Bool) : Bool :=
  if lt (distance start stop) tiny then true
  else if clockwise then
    if le stop start then le stop a && le a start else le a start || le stop a
  else if le start stop then le start a && le a stop
  else le start a || le a stop

def right : α := zero

def up : α := Circular.pi / ofInt 2

def left : α := Circular.pi

def down : α := ofInt 3 * Circular.pi / ofInt 2

end Angle

namespace Arc

open Coordinate

variable {α : Type} [Circular α] (a : Arc α)

def sweeps (direction : α) : Bool :=
  Angle.inSweep direction (Angle.normalize a.start) (Angle.normalize a.stop) a.clockwise

def point (angle : α) : α × α :=
  (a.centerX + a.radius * Circular.cos angle, a.centerY + a.radius * Circular.sin angle)

def bounds : Rectangle α :=
  let p := a.point a.start
  let q := a.point a.stop
  { minX := if a.sweeps Angle.left then a.centerX - a.radius else least p.1 q.1
    minY := if a.sweeps Angle.down then a.centerY - a.radius else least p.2 q.2
    maxX := if a.sweeps Angle.right then a.centerX + a.radius else greatest p.1 q.1
    maxY := if a.sweeps Angle.up then a.centerY + a.radius else greatest p.2 q.2 }

/-- An arc with an infinite angle has no rectangle. -/
def bounds? : Option (Rectangle α) :=
  if Circular.isInfinite a.start || Circular.isInfinite a.stop then none else some a.bounds

end Arc

end StepAndRepeat
