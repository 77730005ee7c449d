import StepAndRepeat.Machine.Modes

namespace StepAndRepeat

structure Range (α : Type) where
  low : Option α := none
  high : Option α := none
  deriving DecidableEq, Repr

namespace Range

variable {α : Type} [Coordinate α]

/-- Gather a value. A value that compares with nothing changes nothing, and an open side stays
open to a value at its end of the number line. -/
def gather (r : Range α) (v : α) : Range α where
  low :=
    match r.low with
    | none => if Coordinate.belowTop v then some v else none
    | some l => if Coordinate.lt v l then some v else some l
  high :=
    match r.high with
    | none => if Coordinate.aboveBottom v then some v else none
    | some h => if Coordinate.lt h v then some v else some h

def settle (r : Range α) : Range α :=
  ⟨some (r.low.getD Coordinate.zero), some (r.high.getD Coordinate.zero)⟩

end Range

structure Extent (α : Type) where
  low : Position α
  high : Position α
  deriving DecidableEq, Repr

namespace Extent

variable {α : Type} [Coordinate α]

def zero : Extent α := ⟨.origin, .origin⟩

def width (e : Extent α) : α := e.high.x - e.low.x

def height (e : Extent α) : α := e.high.y - e.low.y

def depth (e : Extent α) : α := e.high.z - e.low.z

end Extent

structure Box (α : Type) where
  x : Range α := {}
  y : Range α := {}
  z : Range α := {}
  deriving DecidableEq, Repr

namespace Box

variable {α : Type}

def on (b : Box α) : Axis → Range α
  | .x => b.x
  | .y => b.y
  | .z => b.z

def corners (b : Box α) (low high : α) : Extent α where
  low := ⟨b.x.low.getD low, b.y.low.getD low, b.z.low.getD low⟩
  high := ⟨b.x.high.getD high, b.y.high.getD high, b.z.high.getD high⟩

variable [Coordinate α]

def gather (b : Box α) (a : Axis) (v : α) : Box α :=
  match a with
  | .x => { b with x := b.x.gather v }
  | .y => { b with y := b.y.gather v }
  | .z => { b with z := b.z.gather v }

def settle (b : Box α) : Box α := ⟨b.x.settle, b.y.settle, b.z.settle⟩

def extent (b : Box α) : Extent α := b.corners Coordinate.zero Coordinate.zero

def openCorners (b : Box Float) : Extent Float := b.corners Binary.infinity (-Binary.infinity)

end Box

end StepAndRepeat
