import StepAndRepeat.Settings.Settings
import StepAndRepeat.Settings.Units
import StepAndRepeat.Text.Blank

namespace StepAndRepeat

/-- What a row of the form lets a user do. -/
inductive Control where
  | whole (least greatest : Int)
  | decimal (least greatest : Float) (places : Nat)
  | choice (items : List Text)
  | check (label : Text)
  | line (placeholder pattern : Text)

namespace Control

/-- The number that a field holds once a number is put into it. -/
def settleWhole : Control → Int → Int
  | whole least greatest, n => max least (min n greatest)
  | _, n => n

/-- Places are rounded before the bounds are looked at. What is no number counts as too large. -/
def settleDecimal : Control → Float → Float
  | decimal least greatest places, x =>
    let y := Binary.roundTo places x
    if y < least then least else if y ≤ greatest then y else greatest
  | _, x => x

end Control

/-- What the fields of a form make of the numbers that are put into them. -/
structure Fields where
  count : Int → Int
  gap : Float → Float

namespace Fields

def countControl : Control := .whole 1 100

def gapControl : Control := .decimal (-1000) 1000 3

def standard : Fields := ⟨countControl.settleWhole, gapControl.settleDecimal⟩

end Fields

/-- What the form holds. Gaps are in the unit shown. -/
structure Form where
  columns : Int
  rows : Int
  columnDirection : Direction
  rowDirection : Direction
  gapX : Float
  gapY : Float
  sortByTool : Bool
  skipText : Text

namespace Form

def ofSettings (k : Fields) (u : Units) (s : Settings Float) : Form where
  columns := k.count s.columns
  rows := k.count s.rows
  columnDirection := s.columnDirection
  rowDirection := s.rowDirection
  gapX := k.gap (u.toDisplay s.gapX)
  gapY := k.gap (u.toDisplay s.gapY)
  sortByTool := s.sortByTool
  skipText := s.skipText.seen

def settings (u : Units) (f : Form) : Settings Float where
  rows := f.rows
  columns := f.columns
  rowDirection := f.rowDirection
  columnDirection := f.columnDirection
  gapX := u.toMetric f.gapX
  gapY := u.toMetric f.gapY
  sortByTool := f.sortByTool
  skipText := .ofText (Text.trim f.skipText)

def convert (k : Fields) (shown wanted : Units) (f : Form) : Form :=
  let s := f.settings shown
  { f with gapX := k.gap (wanted.toDisplay s.gapX), gapY := k.gap (wanted.toDisplay s.gapY) }

def capitalized : Text → Text
  | [] => []
  | c :: t => c.toUpper :: t

def directionChoice : Control :=
  .choice ([Direction.positive, .negative].map fun d ↦ capitalized d.name)

def rowsShown : List (Text × Control) :=
  [("Columns (X):".toList, Fields.countControl), ("X direction:".toList, directionChoice),
    ("Rows (Y):".toList, Fields.countControl), ("Y direction:".toList, directionChoice),
    ("X gap:".toList, Fields.gapControl), ("Y gap:".toList, Fields.gapControl),
    ([], .check "Sort by tool".toList),
    ("Skip instances:".toList, .line "e.g. 1, 3-5".toList "[0-9,\\- ]*".toList)]

def buttons : List Text := ["Load G-Code File".toList, "Generate".toList, "Save Output".toList]

end Form

end StepAndRepeat
