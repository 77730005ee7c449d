import StepAndRepeat.Program.Line

namespace StepAndRepeat

/-- Coordinates are positions, or steps from the position before. -/
inductive Distance where
  | absolute
  | incremental
  deriving DecidableEq, Repr

inductive Motion where
  | rapid
  | linear
  | clockwise
  | counterclockwise
  deriving DecidableEq, Repr

namespace Motion

def isArc : Motion → Bool
  | clockwise | counterclockwise => true
  | _ => false

def isCutting : Motion → Bool
  | rapid => false
  | _ => true

end Motion

structure Modes where
  distance : Distance := .absolute
  arcDistance : Distance := .incremental
  motion : Motion := .rapid
  deriving DecidableEq, Repr

namespace Line

variable {α : Type} [Coordinate α] (l : Line α)

/-- The distance mode that a line sets; of both, incremental. -/
def distance? : Option Distance :=
  if l.has 'G' 91 then some .incremental else if l.has 'G' 90 then some .absolute else none

def arcDistance? : Option Distance :=
  if l.hasFraction ⟨false, 911, 1⟩ then some .incremental
  else if l.hasFraction ⟨false, 901, 1⟩ then some .absolute
  else none

/-- The motion that a line sets; of several, the one with the greatest code. -/
def motion? : Option Motion :=
  if l.has 'G' 3 then some .counterclockwise
  else if l.has 'G' 2 then some .clockwise
  else if l.has 'G' 1 then some .linear
  else if l.has 'G' 0 then some .rapid
  else none

end Line

namespace Modes

variable {α : Type} [Coordinate α]

def after (m : Modes) (l : Line α) : Modes where
  distance := l.distance?.getD m.distance
  arcDistance := l.arcDistance?.getD m.arcDistance
  motion := l.motion?.getD m.motion

end Modes

structure Position (α : Type) where
  x : α
  y : α
  z : α
  deriving DecidableEq, Repr

namespace Position

variable {α : Type} [Coordinate α]

def origin : Position α := ⟨Coordinate.zero, Coordinate.zero, Coordinate.zero⟩

def on (p : Position α) : Axis → α
  | .x => p.x
  | .y => p.y
  | .z => p.z

/-- Where one coordinate leads; without one the position stays. -/
def moved (d : Distance) (now : α) : Option α → α
  | none => now
  | some v =>
    match d with
    | .absolute => v
    | .incremental => now + v

def target (d : Distance) (p : Position α) (l : Line α) : Position α where
  x := moved d p.x (l.axis? .x)
  y := moved d p.y (l.axis? .y)
  z := moved d p.z (l.axis? .z)

end Position

end StepAndRepeat
