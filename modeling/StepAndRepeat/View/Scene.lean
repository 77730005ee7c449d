import StepAndRepeat.Number.Coordinate
import StepAndRepeat.Replication.Instance
import StepAndRepeat.Settings.Limits

namespace StepAndRepeat

inductive Capability where
  | smoothLines
  | blending
  | dashedLines
  deriving DecidableEq, Repr

inductive MatrixMode where
  | projection
  | modelView
  deriving DecidableEq, Repr

inductive Figure where
  | lines
  | lineLoop
  | quads
  deriving DecidableEq, Repr

inductive DrawCommand where
  | clearColor (r g b a : Float)
  | clear
  | enable (c : Capability)
  | disable (c : Capability)
  /-- Blend by the opacity of what is drawn. -/
  | blendByOpacity
  | viewport (x y width height : Float)
  | matrixMode (m : MatrixMode)
  | loadIdentity
  | perspective (angle aspect near far : Float)
  | move (x y z : Float)
  | rotate (angle x y z : Float)
  | lineWidth (width : Float)
  | color3 (r g b : Float)
  | color4 (r g b a : Float)
  | beginFigure (f : Figure)
  | vertex (x y z : Float)
  | endFigure
  | dashes (factor pattern : Float)
  deriving Repr

structure Color where
  red : Float
  green : Float
  blue : Float
  deriving Repr

/-- What the preview shows, and from where. -/
structure Scene where
  /-- The cells, each with whether it is skipped. -/
  cells : List (Instance Float × Bool) := []
  partMin : Float × Float := (0, 0)
  partSize : Float × Float := (0, 0)
  limits : Float × Float := (400, 400)
  zoom : Float := -600
  tilt : Float := 0
  turn : Float := 0
  /-- Where the mouse was last. -/
  pointer : Float × Float := (0, 0)
  showEnvelope : Bool := true
  showAxes : Bool := true

namespace Scene

open Coordinate

def corner (s : Scene) (i : Instance Float) : Float × Float :=
  (s.partMin.1 + i.offset.x, s.partMin.2 + i.offset.y)

def reach (xs : List Float) : Float := xs.foldl greatest 0 - xs.foldl least 0

/-- The view from so far that the envelope and all cells fit in. -/
def fit (s : Scene) : Scene :=
  let corners := s.cells.map fun (i, _) ↦ s.corner i
  let xs := s.limits.1 :: corners.flatMap fun (x, _) ↦ [x, x + s.partSize.1]
  let ys := s.limits.2 :: corners.flatMap fun (_, y) ↦ [y, y + s.partSize.2]
  let size := greatest (reach xs) (reach ys)
  { s with zoom := -(greatest (size * 1.3) 10) }

/-- Show other cells, parts or limits. -/
def setPreview (s : Scene) (cells : List (Instance Float × Bool))
    (partMin partSize limits : Float × Float) : Scene :=
  fit { s with cells := cells, partMin := partMin, partSize := partSize, limits := limits }

def setUp : List DrawCommand :=
  [.clearColor 0.1 0.1 0.15 1, .enable .smoothLines, .enable .blending, .blendByOpacity]

def resize (width height : Float) : List DrawCommand :=
  [.viewport 0 0 width height, .matrixMode .projection, .loadIdentity,
    .perspective 45 (if 0 < height then width / height else 1) 0.1 10000]

def corners (x y width height : Float) : List DrawCommand :=
  [.vertex x y 0, .vertex (x + width) y 0, .vertex (x + width) (y + height) 0,
    .vertex x (y + height) 0]

def outline (x y width height : Float) : List DrawCommand :=
  .beginFigure .lineLoop :: corners x y width height ++ [.endFigure]

def filled (x y width height : Float) (c : Color) : List DrawCommand :=
  .color4 c.red c.green c.blue 0.35 :: .beginFigure .quads :: corners x y width height ++
    [.endFigure, .lineWidth 2, .color3 c.red c.green c.blue] ++ outline x y width height

def dashed (x y width height : Float) (c : Color) : List DrawCommand :=
  [.lineWidth 1.5, .color3 c.red c.green c.blue, .dashes 1 0xAAAA, .enable .dashedLines] ++
    outline x y width height ++ [.disable .dashedLines]

def envelope (s : Scene) : List DrawCommand :=
  [.lineWidth 1.5, .color3 0.5 0.5 0.5] ++ outline 0 0 s.limits.1 s.limits.2

def axes (s : Scene) : List DrawCommand :=
  let length := greatest s.limits.1 s.limits.2 * 0.1
  [.lineWidth 3, .beginFigure .lines, .color3 1 0 0, .vertex 0 0 0, .vertex length 0 0,
    .color3 0 1 0, .vertex 0 0 0, .vertex 0 length 0, .endFigure]

def madeColor : Color := ⟨0.2, 0.5, 1⟩

def skippedColor : Color := ⟨0.6, 0.3, 0.3⟩

def cell (s : Scene) (i : Instance Float) (skipped : Bool) : List DrawCommand :=
  let (x, y) := s.corner i
  if skipped then dashed x y s.partSize.1 s.partSize.2 skippedColor
  else filled x y s.partSize.1 s.partSize.2 madeColor

def paint (s : Scene) : List DrawCommand :=
  [.clear, .matrixMode .modelView, .loadIdentity, .move 0 0 s.zoom, .rotate s.tilt 1 0 0,
    .rotate s.turn 0 0 1, .move (-s.limits.1 / 2) (-s.limits.2 / 2) 0] ++
    (if s.showEnvelope then s.envelope else []) ++ (if s.showAxes then s.axes else []) ++
    s.cells.flatMap fun (i, skipped) ↦ s.cell i skipped

def press (s : Scene) (x y : Float) : Scene := { s with pointer := (x, y) }

/-- With the left button down the mouse turns the view, half a degree for each step. -/
def drag (s : Scene) (x y : Float) (leftButton : Bool) : Scene :=
  let s := if leftButton then
    { s with
      tilt := s.tilt + (y - s.pointer.2) * 0.5
      turn := s.turn + (x - s.pointer.1) * 0.5 }
    else s
  { s with pointer := (x, y) }

def resetView (s : Scene) : Scene := fit { s with tilt := 0, turn := 0 }

def wheel (s : Scene) (delta : Float) : Scene :=
  { s with zoom := s.zoom + delta / 120 * s.zoom.abs * 0.1 }

end Scene

end StepAndRepeat
