import StepAndRepeat.Program.Segment
import StepAndRepeat.Replication.Copy
import StepAndRepeat.Replication.Instance

namespace StepAndRepeat

inductive Entry (α : Type) where
  | note (text : Text)
  | copy (c : Copy α)

namespace Entry

variable {α : Type}

def text : Entry α → Text
  | note t => t
  | copy c => c.text

def copied : Entry α → List (Copy α)
  | note _ => []
  | copy c => [c]

def verbatim (ls : List (Line α)) : List (Entry α) := ls.map fun l ↦ copy (.verbatim l)

def blank : Entry α := note []

end Entry

/-- What to assemble, besides the program: the instances in order, the strategy, the count of
parts that the notes name, and the lines to begin with. -/
structure Order (α : Type) where
  instances : List (Instance α)
  sortByTool : Bool := false
  totalParts : Int
  banner : List Text := []

namespace Assembly

open Text

variable {α : Type} [Coordinate α]

def programEnd : Text := "M30 (Program end)".toList

def toolChange (n : Int) : Text := "M6 T".toList ++ ofInt n

def cellText (i : Instance α) : Text :=
  " - Row ".toList ++ ofInt i.row ++ ", Col ".toList ++ ofInt i.column ++ [')']

def partNote (total : Int) (i : Instance α) : Text :=
  "(Part ".toList ++ ofInt i.part ++ " of ".toList ++ ofInt total ++ cellText i

def toolPartNote (tool : Int) (i : Instance α) : Text :=
  "(T".toList ++ ofInt tool ++ " Part ".toList ++ ofInt i.part ++ cellText i

def offsetNote (i : Instance α) : Text :=
  "(Offset: X=".toList ++ Coordinate.fixed 3 i.offset.x ++ ", Y=".toList ++
    Coordinate.fixed 3 i.offset.y ++ [')']

def noToolsNote : Text := "(No tool changes detected, using standard replication)".toList

def standardNote : Text := "(Standard replication - all tools per part in original order)".toList

def changesNote (count : Nat) : Text :=
  "(Tool changes per part: ".toList ++ ofNat count ++ [')']

def sortedNote : Text := "(Tool order optimized to minimize tool changes)".toList

def toolsNote (tools : List Int) : Text :=
  "(Unique tools: ".toList ++ join [',', ' '] (tools.map fun n ↦ 'T' :: ofInt n) ++ [')']

def reducedNote (sorted unsorted : Nat) : Text :=
  "(Total tool changes: ".toList ++ ofNat sorted ++ ", reduced from ".toList ++ ofNat unsorted ++
    [')']

def toolNote (n : Int) : Text := "(Tool T".toList ++ ofInt n ++ " - All Parts)".toList

def marked {β : Type} : List β → List (β × Bool)
  | [] => []
  | [b] => [(b, true)]
  | b :: bs => (b, false) :: marked bs

/-- The lines of one instance under one tool, or of one instance in the cutting phase, from fresh
modes. -/
def replay (i : Instance α) (dropStops : Bool) (ls : List (Line α)) : List (Entry α) :=
  (Replay.lines i.offset dropStops {} ls).2.map .copy

def withoutTools (o : Order α) (p : Phases α) : List (Entry α) :=
  [.note noToolsNote, .blank] ++ Entry.verbatim p.preamble ++ [.blank] ++
    (marked o.instances).flatMap (fun (i, last) ↦
      [.note (partNote o.totalParts i), .note (offsetNote i)] ++ replay i (!last) p.cutting ++
        [.blank]) ++
    Entry.verbatim p.postamble

/-- The lines of one instance for each segment, the modes carried from each to the next. A spindle
stop is written only in the last segment of the last instance. -/
def runs (i : Instance α) (lastInstance : Bool) :
    Modes → List ((Int × Segment α) × Bool) → List (Int × List (Copy α))
  | _, [] => []
  | m, ((n, s), lastSegment) :: ss =>
    let r := Replay.lines i.offset (!(lastInstance && lastSegment)) m s.lines
    (n, r.2) :: runs i lastInstance r.1 ss

def runEntries (r : Int × List (Copy α)) : List (Entry α) :=
  .note (toolChange r.1) :: r.2.map .copy ++ [.blank]

def header (ls : List (Line α)) : List (Entry α) :=
  if ls.isEmpty then [] else Entry.verbatim ls ++ [.blank]

def standard (o : Order α) (head : List (Line α)) (ss : List (Int × Segment α)) : List (Entry α) :=
  [.note standardNote, .note (changesNote ss.length), .blank] ++ header head ++
    (marked o.instances).flatMap fun (i, last) ↦
      [.note (partNote o.totalParts i), .note (offsetNote i), .blank] ++
        (runs i last {} (marked ss)).flatMap runEntries

/-- Each tool works on all instances. -/
def sorted (o : Order α) (head : List (Line α)) (ss : List (Int × Segment α))
    (groups : List (Int × List (Segment α))) : List (Entry α) :=
  [.note sortedNote, .note (toolsNote (groups.map (·.1))),
    .note (reducedNote groups.length (ss.length * o.instances.length)), .blank] ++ header head ++
    groups.flatMap fun (n, group) ↦
      [.note (toolNote n), .note (toolChange n), .blank] ++
        (marked o.instances).flatMap fun (i, last) ↦
          [.note (toolPartNote n i), .note (offsetNote i)] ++
            replay i (!last) (group.flatMap (·.lines)) ++ [.blank]

def entries (o : Order α) (program : Text) : Except LineFault (List (Entry α)) := do
  let ss ← Segment.ofProgram program
  let head := ((ss.find? (·.isHeader)).map (·.lines)).getD []
  let tooled := Segment.tooled ss
  let body ←
    if tooled.isEmpty then (Phases.ofLines head).map (withoutTools o)
    else if o.sortByTool then pure (sorted o head tooled (Segment.byTool ss))
    else pure (standard o head tooled)
  return o.banner.map .note ++ body ++ [.note programEnd]

def assemble (o : Order α) (program : Text) : Except LineFault Text :=
  (entries o program).map fun es ↦ join ['\n'] (es.map (·.text))

end Assembly

end StepAndRepeat
