import StepAndRepeat.Grid.Layout
import StepAndRepeat.Replication.Instance

namespace StepAndRepeat

open Coordinate

variable {α : Type} [Coordinate α]

namespace Layout

/-- The distance of a row or column, counted from zero, from the first. -/
def displacement (n : Nat) (spacing : α) (d : Direction) : α :=
  if n = 0 then zero else ofInt n * spacing * ofInt d.sign

/-- The cell in a row and a column, both counted from zero. -/
def cell (l : Layout α) (row column : Nat) : Instance α where
  part := row * l.columns + column + 1
  row := row + 1
  column := column + 1
  offset :=
    ⟨displacement column l.spacingX l.columnDirection, displacement row l.spacingY l.rowDirection⟩

def cells (l : Layout α) : List (Instance α) :=
  (List.range l.rows).flatMap fun row ↦ (List.range l.columns).map (l.cell row)

def plan (l : Layout α) : List (Instance α) := l.cells.filter fun i ↦ !l.skip.contains i.part

end Layout

/-- The length of a row of parts with gaps between them. -/
def span (parts gaps : α) (size gap : α) : α := parts * size + gaps * gap

def footprint (width height : α) (rows columns : Int) (gapX gapY : α) : α × α :=
  (span (ofInt columns) (ofInt (columns - 1)) width gapX,
    span (ofInt rows) (ofInt (rows - 1)) height gapY)

end StepAndRepeat
