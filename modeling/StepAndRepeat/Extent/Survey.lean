import StepAndRepeat.Extent.Arc
import StepAndRepeat.Extent.Box
import StepAndRepeat.Number.Root

namespace StepAndRepeat

instance : Circular Float where
  pi := 3.141592653589793
  sin := Float.sin
  cos := Float.cos
  angle := Float.atan2
  radius := Binary.distance
  remainder := Binary.remainder
  isInfinite := Float.isInf

structure Survey (α : Type) where
  modes : Modes := {}
  position : Position α
  box : Box α := {}
  cuttingMoves : Nat := 0
  arcMoves : Nat := 0

namespace Survey

variable {α : Type}

def start [Coordinate α] : Survey α := { position := .origin }

def gatherCut [Coordinate α] (before after : Position α) (l : Line α) (b : Box α) : Box α :=
  Axis.all.foldl (fun b a ↦
    if (l.axis? a).isSome then (b.gather a (before.on a)).gather a (after.on a) else b) b

def gatherRectangle [Coordinate α] (r : Rectangle α) (b : Box α) : Box α :=
  (((b.gather .x r.minX).gather .x r.maxX).gather .y r.minY).gather .y r.maxY

variable [Circular α]

def arcOf (m : Modes) (before after : Position α) (l : Line α) : Arc α :=
  let i := l.i?.getD Coordinate.zero
  let j := l.j?.getD Coordinate.zero
  let (cx, cy) := match m.arcDistance with
    | .absolute => (i, j)
    | .incremental => (before.x + i, before.y + j)
  { centerX := cx
    centerY := cy
    radius := Circular.radius (before.x - cx) (before.y - cy)
    start := Circular.angle (before.y - cy) (before.x - cx)
    stop := Circular.angle (after.y - cy) (after.x - cx)
    clockwise := m.motion = .clockwise }

/-- Read one line. The modes on a line are in force before its coordinates. -/
def step (s : Survey α) (l : Line α) : Survey α :=
  if l.kind ≠ .code then s
  else
    let m := s.modes.after l
    if l.isMachineMove then { s with modes := m }
    else
      let next := s.position.target m.distance l
      let isArc := m.motion.isArc && l.hasArcCenter
      let box := if isArc then gatherRectangle (arcOf m s.position next l).bounds s.box else s.box
      { modes := m
        position := next
        box := if m.motion.isCutting then gatherCut s.position next l box else box
        cuttingMoves := s.cuttingMoves + if m.motion.isCutting && l.hasAxisWord then 1 else 0
        arcMoves := s.arcMoves + if isArc then 1 else 0 }

def run (ls : List (Line α)) : Survey α := ls.foldl step start

def ofProgram (program : Text) : Except LineFault (Survey α) := (Line.readAll program).map run

def extent (program : Text) : Except LineFault (Extent α) :=
  (ofProgram program).map (·.box.extent)

end Survey

end StepAndRepeat
