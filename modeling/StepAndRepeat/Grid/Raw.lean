import StepAndRepeat.Grid.Layout

namespace StepAndRepeat

structure RawLayout (α : Type) where
  spacingX : α
  spacingY : α
  rows : Json := .int 1
  columns : Json := .int 2
  rowDirection : Json := .str (.ofText Direction.positive.name)
  columnDirection : Json := .str (.ofText Direction.positive.name)
  skip : Json := .list []

/-- Why raw values make no layout: one is no number at all, or the layout cannot stand. -/
inductive RawFault (α : Type) where
  | value (fault : ValueFault)
  | layout (fault : LayoutFault α)

namespace RawLayout

variable {α : Type}

def whole? : Json → Option Int
  | .bool b => some (Json.ofBool b)
  | .int n => some n
  | .num x =>
    match Binary.trunc? x with
    | some n => if Binary.ofInt n == x then some n else none
    | none => none
  | _ => none

/-- A fault that shows a value, which must not hold a number too long to be written. -/
def showing (v : Json) (fault : LayoutFault α) : RawFault α :=
  if v.isWritable then .layout fault else .value .malformed

def count (fault : Json → LayoutFault α) (v : Json) : Except (RawFault α) Int :=
  match v.toInt with
  | .error f => .error (.value f)
  | .ok _ =>
    match whole? v with
    | some n => if n < 1 then .error (showing v (fault v)) else .ok n
    | none => .error (showing v (fault v))

def direction (v : Json) : Except (RawFault α) Direction :=
  match Direction.ofJson? v with
  | some d => .ok d
  | none => .error (showing v (.direction v))

def isElement : Json → Bool
  | .list _ | .object _ => false
  | _ => true

def parts : Json → Except (RawFault α) (List Int)
  | .list vs => if vs.all isElement then .ok (vs.filterMap whole?) else .error (.value .wrongKind)
  | .str _ | .object _ => .ok []
  | _ => .error (.value .wrongKind)

/-- The layout that raw values ask for. The counts come before the spacings, and these before
the directions and the parts to skip. -/
def resolve [Coordinate α] (r : RawLayout α) : Except (RawFault α) (Layout α) := do
  let rows ← count .rows r.rows
  let columns ← count .columns r.columns
  let sized ← (Layout.make rows columns r.spacingX r.spacingY .positive .positive []).mapError
    RawFault.layout
  let rowDirection ← direction r.rowDirection
  let columnDirection ← direction r.columnDirection
  let skip ← parts r.skip
  return { sized with rowDirection, columnDirection, skip }

end RawLayout

end StepAndRepeat
