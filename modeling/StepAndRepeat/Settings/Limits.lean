import StepAndRepeat.Settings.Conversion

namespace StepAndRepeat

/-- The travel of a machine in millimetres. -/
structure Limits where
  x : Float := 400
  y : Float := 400

namespace Limits

def settingsKey : CodeText := .ofText "settings".toList

def valueKey : CodeText := .ofText "value".toList

def xKey : CodeText := .ofText "130".toList

def yKey : CodeText := .ofText "131".toList

/-- The member of an object, if there is one. A value that counts as false has no members. -/
def member (key : CodeText) (v : Json) : Except ValueFault (Option Json) :=
  if v.truthy then
    match v with
    | .object ms => .ok (Json.find? key ms)
    | _ => .error .notObject
  else .ok none

/-- The limit that an entry gives, unless it gives none. A value that is not a number gives none,
but one that is too large is a fault. -/
def travel? (entry : Json) : Except ValueFault (Option Float) := do
  match ← member valueKey entry with
  | none => return none
  | some v =>
    match v.toFloat with
    | .ok x => return if 0 < x then some x else none
    | .error .outOfRange => .error .outOfRange
    | .error _ => return none

def entry (key : CodeText) (settings : Json) : Except ValueFault Json := do
  return (← member key settings).getD .null

def ofJson (firmware : Json) : Except ValueFault Limits := do
  let settings := (← member settingsKey firmware).getD .null
  let x ← travel? (← entry xKey settings)
  let y ← travel? (← entry yKey settings)
  let standard : Limits := {}
  return ⟨x.getD standard.x, y.getD standard.y⟩

end Limits

end StepAndRepeat
