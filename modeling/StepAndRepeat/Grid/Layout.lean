import StepAndRepeat.Settings.Direction
import StepAndRepeat.Settings.Conversion
import StepAndRepeat.Number.Coordinate

namespace StepAndRepeat

open Coordinate

structure Layout (α : Type) [Coordinate α] where
  rows : Nat
  columns : Nat
  spacingX : α
  spacingY : α
  rowDirection : Direction := .positive
  columnDirection : Direction := .positive
  skip : List Int := []
  rows_pos : 0 < rows
  columns_pos : 0 < columns
  spacingX_ok : 1 < columns → le spacingX zero = false
  spacingY_ok : 1 < rows → le spacingY zero = false

inductive LayoutFault (α : Type) where
  | rows (given : Json)
  | columns (given : Json)
  | spacingX (given : α)
  | spacingY (given : α)
  | direction (given : Json)

namespace LayoutFault

variable {α : Type} [Coordinate α]

def countText (what : Text) (given : Json) : Text :=
  what ++ " must be a whole number >= 1, got ".toList ++ given.plainText.seen

def spacingText (axis : Char) (given : α) : Text :=
  axis :: " spacing must be positive, got ".toList ++ fixed 3 given

def message : LayoutFault α → Text
  | rows v => countText "Rows".toList v
  | columns v => countText "Columns".toList v
  | spacingX s => spacingText 'X' s
  | spacingY s => spacingText 'Y' s
  | direction v => "Direction must be 'positive' or 'negative', got ".toList ++ v.literal

end LayoutFault

namespace Layout

variable {α : Type} [Coordinate α]

def total (l : Layout α) : Nat := l.rows * l.columns

def make (rows columns : Int) (spacingX spacingY : α) (rowDirection columnDirection : Direction)
    (skip : List Int) : Except (LayoutFault α) (Layout α) :=
  if hr : 0 < rows.toNat then
    if hc : 0 < columns.toNat then
      if hx : 1 < columns.toNat → le spacingX zero = false then
        if hy : 1 < rows.toNat → le spacingY zero = false then
          .ok ⟨rows.toNat, columns.toNat, spacingX, spacingY, rowDirection, columnDirection, skip,
            hr, hc, hx, hy⟩
        else .error (.spacingY spacingY)
      else .error (.spacingX spacingX)
    else .error (.columns (.int columns))
  else .error (.rows (.int rows))

end Layout

end StepAndRepeat
