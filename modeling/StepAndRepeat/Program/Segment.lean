import StepAndRepeat.Program.Ending

namespace StepAndRepeat

variable {α : Type} [Coordinate α]

namespace Ending

/-- A line without its end words, read again; nothing when no other word is left. -/
def clean (l : Line α) : Except LineFault (List (Line α)) :=
  if l.isProgramEnd then
    match strip l with
    | none => .ok []
    | some t => (Line.readAt l.index t).map ([·])
  else .ok [l]

def cleanAll (ls : List (Line α)) : Except LineFault (List (Line α)) :=
  (ls.mapM clean).map List.flatten

end Ending

/-- Lines that run under one tool. The line that changes the tool is not among them. -/
structure Segment (α : Type) where
  tool : Option Int
  lines : List (Line α)

namespace Segment

def isHeader (s : Segment α) : Bool := s.tool.isNone

/-- A segment without lines is left out. -/
def close (s : Segment α) : List (Segment α) := if s.lines.isEmpty then [] else [s]

/-- Cut lines at their tool changes: the lines before the first change, and a segment for each
change, which may have no lines. -/
def cut : List (Line α) → List (Line α) × List (Segment α)
  | [] => ([], [])
  | l :: ls =>
    let r := cut ls
    match l.tool with
    | some n => ([], ⟨some n, r.1⟩ :: r.2)
    | none => (l :: r.1, r.2)

def split (ls : List (Line α)) : List (Segment α) :=
  (⟨none, (cut ls).1⟩ :: (cut ls).2).flatMap close

/-- The segments of a program. The header comes first, if there is one. -/
def ofProgram (program : Text) : Except LineFault (List (Segment α)) := do
  let ls ← Line.readAll program
  let ls ← Ending.cleanAll ls
  return split ls

def tooled (ss : List (Segment α)) : List (Int × Segment α) :=
  ss.filterMap fun s ↦ s.tool.map (·, s)

/-- Put a segment to those of its tool; a new tool comes last. -/
def addTo (n : Int) (s : Segment α) : List (Int × List (Segment α)) → List (Int × List (Segment α))
  | [] => [(n, [s])]
  | (m, ss) :: gs => if m = n then (m, ss ++ [s]) :: gs else (m, ss) :: addTo n s gs

/-- The segments of each tool, tools in the order of their first use. -/
def byTool (ss : List (Segment α)) : List (Int × List (Segment α)) :=
  (tooled ss).foldl (fun gs (n, s) ↦ addTo n s gs) []

end Segment

/-- The phases of a program that never changes its tool. -/
structure Phases (α : Type) where
  preamble : List (Line α)
  cutting : List (Line α)
  postamble : List (Line α)

namespace Phases

/-- Cutting begins with a spindle start, or a move in X or Y outside machine coordinates. -/
def begins (l : Line α) : Bool := l.isSpindleStart || (l.hasXY && !l.isMachineMove)

/-- Cutting ends with a move in machine coordinates, or a spindle stop. -/
def ends (l : Line α) : Bool := l.isMachineMove || l.isSpindleStop

def split (ls : List (Line α)) : Phases α :=
  let rest := ls.dropWhile (!begins ·)
  { preamble := ls.takeWhile (!begins ·)
    cutting := rest.takeWhile (!ends ·)
    postamble := rest.dropWhile (!ends ·) }

def ofLines (ls : List (Line α)) : Except LineFault (Phases α) :=
  (Ending.cleanAll ls).map split

end Phases

end StepAndRepeat
