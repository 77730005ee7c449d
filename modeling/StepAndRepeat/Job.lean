import StepAndRepeat.Extent.Survey
import StepAndRepeat.Files.Path
import StepAndRepeat.Grid.Plan
import StepAndRepeat.Grid.SkipText
import StepAndRepeat.Log
import StepAndRepeat.Problem
import StepAndRepeat.Replication.Assembly
import StepAndRepeat.Settings.Limits
import StepAndRepeat.Settings.Settings
import StepAndRepeat.Settings.Units

namespace StepAndRepeat

inductive JobFault where
  | line (fault : LineFault)
  | overrun (fault : Overrun)
  /-- A count of rows or columns is too large for a number. -/
  | countTooLarge
  | layout (fault : LayoutFault Float)
  /-- The program has no name to make another from. -/
  | nameless

/-- What an operation leaves behind, what it answers, and what it logs. -/
structure Outcome (σ β : Type) where
  state : σ
  result : Except JobFault β
  log : List LogEntry := []

structure Job where
  program : Text
  fileName : Option Text
  sourceName : Option Text
  extent : Extent Float
  problems : List Problem

namespace Job

open Text

def defaultName : Text := "program.nc".toList

def start : Job := ⟨[], some defaultName, some defaultName, .zero, []⟩

def generatorLine : Text := "(Replicated G-code generated by G-code Replicator)".toList

def sourceMark : Text := "(Source: ".toList

def shown (name : Option Text) : Text := name.getD "None".toList

def sourceIn? (line : Text) : Option Text :=
  if sourceMark.isPrefixOf line then
    let rest := line.drop sourceMark.length
    if rest.getLast? = some ')' ∧ 2 ≤ rest.length then some rest.dropLast else none
  else none

/-- The name in the first source line, as long as every line before it is a comment. -/
def firstSource : List Text → Option Text
  | [] => none
  | l :: ls =>
    match sourceIn? (trim l) with
    | some name => some name
    | none => if (trim l).head? = some '(' then firstSource ls else none

/-- The source name that the banner of a program made by a job records. -/
def sourceOf (program : Text) : Option Text :=
  match lines program with
  | [] => none
  | l :: ls => if trim l = generatorLine then firstSource ls else none

def nonempty (name : Option Text) : Option Text := name.filter (!·.isEmpty)

def partSize (j : Job) : Float × Float := (j.extent.width, j.extent.height)

/-- Take in a program and measure it. A source name that is not given is found in the banner, or
is the name of the file. The names are set even when the program cannot be read. -/
def load (j : Job) (program : Text) (fileName sourceName : Option Text) : Outcome Job Unit :=
  let named := { j with
    program := program
    fileName := fileName
    sourceName := ((nonempty sourceName).orElse fun _ ↦ sourceOf program).orElse fun _ ↦ fileName }
  match Survey.extent program with
  | .error f => ⟨named, .error (.line f), []⟩
  | .ok e =>
    let loaded := { named with extent := e, problems := [] }
    ⟨loaded, .ok (),
      [⟨.info, "Loaded ".toList ++ shown fileName ++ ": part size ".toList ++
        Binary.fixed 3 e.width ++ " x ".toList ++ Binary.fixed 3 e.height ++ " mm".toList⟩]⟩

def reading (s : Settings Float) : Except JobFault SkipText.Reading :=
  (SkipText.parse s.skipText.seen s.total).mapError .overrun

def skipped (s : Settings Float) : Except JobFault (List Int) :=
  (reading s).map SkipText.Reading.accepted

def layout (j : Job) (s : Settings Float) : Except JobFault (Layout Float) := do
  let ns ← skipped s
  (s.layout j.partSize.1 j.partSize.2 ns).mapError .layout

def gridSize (j : Job) (s : Settings Float) : Except JobFault (Float × Float) :=
  if [s.columns, s.columns - 1, s.rows, s.rows - 1].all fun n ↦ (Binary.ofInt? n).isSome then
    .ok (footprint j.partSize.1 j.partSize.2 s.rows s.columns s.gapX s.gapY)
  else .error .countTooLarge

def skipProblems (r : SkipText.Reading) : List Problem :=
  match r.fault? with
  | none => []
  | some (piece, f) => [{ message := f.message piece, concern := .skipText, token := some piece }]

def layoutProblems (j : Job) (s : Settings Float) : List Problem :=
  match j.layout s with
  | .error (.layout f) => [{ message := f.message, concern := .configuration }]
  | _ => []

def lengthText (places : Nat) (u : Units) (length : Float) : Text :=
  Binary.fixed places (u.toDisplay length)

def sizesText (places : Nat) (u : Units) (a b : Float) : Text :=
  lengthText places u a ++ " x ".toList ++ lengthText places u b ++ ' ' :: u.unit

def envelopeProblems (size : Float × Float) (limits : Limits) (u : Units) : List Problem :=
  if limits.x < size.1 ∨ limits.y < size.2 then
    [{ message := "Grid size exceeds machine limits! Grid: ".toList ++
        sizesText 1 u size.1 size.2 ++ ", Machine: ".toList ++ sizesText 0 u limits.x limits.y
       concern := .envelope }]
  else []

def gapProblems (s : Settings Float) : List Problem :=
  if s.gapX < 0 ∨ s.gapY < 0 then
    [{ message := "Warning: Negative gap will cause parts to overlap.".toList
       concern := .caution
       severity := .warning }]
  else []

/-- Check settings against the program and the machine. The answer says that nothing stands in
the way of the program. -/
def validate (j : Job) (s : Settings Float) (limits : Limits) (u : Units) : Outcome Job Bool :=
  match reading s with
  | .error f => ⟨{ j with problems := [] }, .error f, []⟩
  | .ok r =>
    let found := skipProblems r ++ layoutProblems j s
    match j.gridSize s with
    | .error f => ⟨{ j with problems := found }, .error f, []⟩
    | .ok size =>
      let found := found ++ envelopeProblems size limits u ++ gapProblems s
      ⟨{ j with problems := found }, .ok (!Problem.anyBlocking found), []⟩

/-- What a replication will be. Lengths are in millimetres. -/
structure Summary where
  sourceName : Option Text
  partSize : Float × Float
  limits : Limits
  total : Int
  skipped : List Int
  generating : Int
  gridSize : Float × Float
  canGenerate : Bool

def summary (j : Job) (s : Settings Float) (limits : Limits) (u : Units) : Outcome Job Summary :=
  let checked := j.validate s limits u
  match checked.result, skipped s, j.gridSize s with
  | .error f, _, _ => ⟨checked.state, .error f, []⟩
  | _, .error f, _ => ⟨checked.state, .error f, []⟩
  | _, _, .error f => ⟨checked.state, .error f, []⟩
  | .ok valid, .ok ns, .ok size =>
    ⟨checked.state, .ok
      { sourceName := j.sourceName
        partSize := j.partSize
        limits := limits
        total := s.total
        skipped := ns
        generating := s.total - ns.length
        gridSize := size
        canGenerate := valid }, []⟩

def plan (j : Job) (s : Settings Float) : Except JobFault (List (Instance Float)) :=
  (j.layout s).map Layout.plan

def yesNo (b : Bool) : Text := if b then "Yes".toList else "No".toList

def sourceLine (name : Option Text) : Text := sourceMark ++ shown name ++ [')']

def gridLine (s : Settings Float) : Except Overrun Text := do
  return "(Grid: ".toList ++ (← writeInt s.columns) ++ " columns x ".toList ++
    (← writeInt s.rows) ++ " rows = ".toList ++ (← writeInt s.total) ++ " parts)".toList

def skipLines (s : Settings Float) (ns : List Int) : Except Overrun (List Text) :=
  if ns.isEmpty then .ok []
  else do
    return ["(Skipped instances: ".toList ++ (← SkipText.format ns) ++ [')'],
      "(Generating: ".toList ++ (← writeInt (s.total - ns.length)) ++ " parts)".toList]

def gapLine (s : Settings Float) : Text :=
  "(Gap: X=".toList ++ Binary.fixed 3 s.gapX ++ "mm, Y=".toList ++ Binary.fixed 3 s.gapY ++
    "mm)".toList

def directionLine (s : Settings Float) : Text :=
  "(X Direction: ".toList ++ s.columnDirection.name ++ ", Y Direction: ".toList ++
    s.rowDirection.name ++ [')']

def sortLine (s : Settings Float) : Text := "(Sort by Tool: ".toList ++ yesNo s.sortByTool ++ [')']

def banner (j : Job) (s : Settings Float) : Except JobFault (List Text) := do
  let ns ← skipped s
  let grid ← (gridLine s).mapError .overrun
  let skips ← (skipLines s ns).mapError .overrun
  return [generatorLine, sourceLine j.sourceName, grid] ++ skips ++
    [gapLine s, directionLine s, sortLine s, []]

def order (j : Job) (s : Settings Float) (instances : List (Instance Float)) :
    Except JobFault (Order Float) :=
  (j.banner s).map fun banner ↦
    { instances := instances
      sortByTool := s.sortByTool
      totalParts := s.total
      banner := banner }

def generate (j : Job) (s : Settings Float) (limits : Limits) : Outcome Job (Option Text) :=
  let checked := j.validate s limits .metric
  let j := checked.state
  match checked.result with
  | .error f => ⟨j, .error f, []⟩
  | .ok false =>
    let first := (Problem.firstBlocking j.problems).map (·.message)
    ⟨j, .ok none, [⟨.warning, "Generation blocked: ".toList ++ shown first⟩]⟩
  | .ok true =>
    match j.plan s with
    | .error f => ⟨j, .error f, []⟩
    | .ok instances =>
      match (j.order s instances).bind fun o ↦ (Assembly.assemble o j.program).mapError .line with
      | .error f => ⟨j, .error f, []⟩
      | .ok text =>
        ⟨j, .ok (some text),
          [⟨.info, "Generated ".toList ++ ofNat instances.length ++ " of ".toList ++
            ofInt s.total ++ " parts (".toList ++
            (if s.sortByTool then "sorted by tool".toList else "standard".toList) ++ [')']⟩]⟩

def outputName (j : Job) (s : Settings Float) : Except JobFault Text :=
  match j.sourceName with
  | none => .error .nameless
  | some name => do
    let stem := (Path.ofText name).stem
    let rows ← (writeInt s.rows).mapError .overrun
    let columns ← (writeInt s.columns).mapError .overrun
    return (if stem.isEmpty then "program".toList else stem) ++ '_' :: rows ++ 'x' :: columns ++
      ".nc".toList

/-- Every cell of the grid, with whether it is skipped; none while there is no layout. -/
def preview (j : Job) (s : Settings Float) : Except JobFault (List (Instance Float × Bool)) :=
  (skipped s).map fun ns ↦
    match s.layout j.partSize.1 j.partSize.2 [] with
    | .error _ => []
    | .ok l => l.plan.map fun i ↦ (i, ns.contains i.part)

end Job

end StepAndRepeat
