import StepAndRepeat.Grid.Layout

namespace StepAndRepeat

/-- The settings of a replication. Gaps are in millimetres. -/
structure Settings (α : Type) where
  rows : Int
  columns : Int
  rowDirection : Direction
  columnDirection : Direction
  gapX : α
  gapY : α
  sortByTool : Bool
  skipText : CodeText
  deriving DecidableEq, Repr

namespace Settings

variable {α : Type}

def total (s : Settings α) : Int := s.rows * s.columns

/-- The layout for parts of a size: their centres are a part and a gap apart. -/
def layout [Coordinate α] (s : Settings α) (width height : α) (skip : List Int) :
    Except (LayoutFault α) (Layout α) :=
  Layout.make s.rows s.columns (width + s.gapX) (height + s.gapY) s.rowDirection
    s.columnDirection skip

def default : Settings Float :=
  ⟨1, 2, .positive, .positive, 5, 5, false, []⟩

end Settings

inductive SettingsFault where
  | value (fault : ValueFault)
  /-- The value names no direction. -/
  | direction (given : Json)

namespace SettingsFault

def message? : SettingsFault → Option Text
  | value _ => none
  | direction v => some (LayoutFault.direction (α := Float) v).message

end SettingsFault

namespace Settings

def rowsKey : CodeText := .ofText "rows".toList

def columnsKey : CodeText := .ofText "columns".toList

def rowDirectionKey : CodeText := .ofText "row_direction".toList

def columnDirectionKey : CodeText := .ofText "column_direction".toList

def gapXKey : CodeText := .ofText "gap_x".toList

def gapYKey : CodeText := .ofText "gap_y".toList

def sortKey : CodeText := .ofText "sort_by_tool".toList

def skipKey : CodeText := .ofText "skip_instances".toList

def toJson (s : Settings Float) : Json :=
  .object
    [(rowsKey, .int s.rows), (columnsKey, .int s.columns),
      (rowDirectionKey, .str (.ofText s.rowDirection.name)),
      (columnDirectionKey, .str (.ofText s.columnDirection.name)), (gapXKey, .num s.gapX),
      (gapYKey, .num s.gapY), (sortKey, .bool s.sortByTool), (skipKey, .str s.skipText)]

/-- Convert the value of a key, if there is one. -/
def field {β : Type} (ms : List (CodeText × Json)) (key : CodeText) (default : β)
    (convert : Json → Except SettingsFault β) : Except SettingsFault β :=
  match Json.find? key ms with
  | none => .ok default
  | some v => convert v

/-- What cannot be shown is a fault of another kind than what is no direction. -/
def toDirection (v : Json) : Except SettingsFault Direction :=
  match Direction.ofJson? v with
  | some d => .ok d
  | none => .error (if v.isWritable then .direction v else .value .malformed)

def toInt (v : Json) : Except SettingsFault Int := v.toInt.mapError .value

def toFloat (v : Json) : Except SettingsFault Float := v.toFloat.mapError .value

def toText (v : Json) : Except SettingsFault CodeText :=
  if v.truthy then
    if v.isWritable then .ok v.plainText else .error (.value .malformed)
  else .ok []

/-- The settings that a document holds. The directions are read first. -/
def ofJson : Json → Except SettingsFault (Settings Float)
  | .object ms => do
    let rowDirection ← field ms rowDirectionKey default.rowDirection toDirection
    let columnDirection ← field ms columnDirectionKey default.columnDirection toDirection
    let rows ← field ms rowsKey default.rows toInt
    let columns ← field ms columnsKey default.columns toInt
    let gapX ← field ms gapXKey default.gapX toFloat
    let gapY ← field ms gapYKey default.gapY toFloat
    let sortByTool ← field ms sortKey default.sortByTool fun v ↦ .ok v.truthy
    let skipText ← field ms skipKey default.skipText toText
    return { rows, columns, rowDirection, columnDirection, gapX, gapY, sortByTool, skipText }
  | _ => .error (.value .notObject)

end Settings

end StepAndRepeat
