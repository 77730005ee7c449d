import StepAndRepeat.Job
import StepAndRepeat.Settings.Storage
import StepAndRepeat.View.Form
import StepAndRepeat.View.Scene

namespace StepAndRepeat

def sampleProgram : Text := Text.join ['\n'] <| [
  "(Sample two-tool program)", "G21 G90 G94", "G53 G0 Z0", "T1 M6", "(Pocket1)", "S12000 M3",
  "G0 X5 Y5", "G0 Z2", "G1 Z-1 F300", "G1 X35 Y5 F1200", "G1 X35 Y25", "G2 X25 Y35 I-10 J0",
  "G1 X5 Y35", "G1 X5 Y5", "G0 Z5", "M5", "G53 G0 Z0", "T2 M6", "(Drill1)", "S9000 M3",
  "G0 X20 Y20", "G1 Z-3 F200", "G0 Z5", "M5", "G53 G0 Z0", "M30"].map String.toList

inductive Reporter where
  | job
  | window
  deriving DecidableEq, Repr

structure MessageBox where
  title : Text
  message : Text
  deriving DecidableEq, Repr

inductive WindowFault where
  | job (fault : JobFault)
  /-- A file that is opened holds no text. -/
  | notText

def analyzeDelay : Nat := 500

/-- Where a window opens: its fields, and how deep values of a document may lie within others. -/
structure Host where
  fields : Fields
  room : Nat

structure Window where
  fields : Fields
  job : Job := .start
  limits : Limits
  units : Units := .metric
  fileName : Text := Job.defaultName
  form : Form
  source : Text := []
  output : Text := []
  outputName : Text := []
  timerPending : Bool := false
  scene : Scene := {}
  summary : Text := "Summary:\nNo program loaded".toList
  validation : Text := []
  /-- The validation text shows nothing graver than a warning. -/
  warningShown : Bool := false
  canGenerate : Bool := true
  canSave : Bool := false
  status : Text := "Ready".toList
  outputLabel : Text := "Generated Program:".toList
  console : List (Reporter × LogEntry) := []
  boxes : List MessageBox := []
  files : FileTree

/-- The window after an event, and the fault if the event failed. -/
structure Reaction where
  window : Window
  fault : Option WindowFault := none

namespace Reaction

def andThen (r : Reaction) (next : Window → Reaction) : Reaction :=
  match r.fault with
  | none => next r.window
  | some _ => r

end Reaction

/-- What can happen to a window. The form events carry the new value of a field, the last two the
path chosen in a dialog, if any. -/
inductive Event where
  | setColumns (n : Int)
  | setRows (n : Int)
  | setColumnDirection (d : Direction)
  | setRowDirection (d : Direction)
  | setGapX (length : Float)
  | setGapY (length : Float)
  | setSortByTool (b : Bool)
  | setSkipText (t : Text)
  | setUnits (u : Units)
  | editSource (t : Text)
  | timer
  | generate
  | load (path : Option Text)
  | save (path : Option Text)

namespace Window

open Text

def report (w : Window) (who : Reporter) (log : List LogEntry) : Window :=
  { w with console := w.console ++ log.map (who, ·) }

def showBox (w : Window) (title message : Text) : Window :=
  { w with boxes := w.boxes ++ [⟨title, message⟩] }

def settings (w : Window) : Settings Float := w.form.settings w.units

def summaryText (u : Units) (s : Job.Summary) : Text :=
  join ['\n'] <|
    ["Summary:".toList, "Source: ".toList ++ Job.shown s.sourceName,
      "Part: ".toList ++ Job.sizesText 1 u s.partSize.1 s.partSize.2,
      "Grid: ".toList ++ Job.sizesText 1 u s.gridSize.1 s.gridSize.2,
      "Machine: ".toList ++ Job.sizesText 0 u s.limits.x s.limits.y,
      "Parts: ".toList ++ ofInt s.total] ++
    if s.skipped.isEmpty then []
    else ["Skipped: ".toList ++ ofNat s.skipped.length, "Generating: ".toList ++ ofInt s.generating]

def showProblems (w : Window) : Window :=
  let ps := w.job.problems
  { w with
    validation := ((Problem.listed ps).head?.map (·.message)).getD []
    warningShown := Problem.anyOf .warning ps && !Problem.anyBlocking ps
    canGenerate := !Problem.anyBlocking ps }

/-- Check the form and show the summary, the problems and the grid. -/
def updatePreview (w : Window) : Reaction :=
  let s := w.settings
  let o := w.job.summary s w.limits w.units
  let w := { w with job := o.state }
  match o.result with
  | .error f => ⟨w, some (.job f)⟩
  | .ok sum =>
    let w := showProblems { w with summary := summaryText w.units sum }
    match w.job.preview s with
    | .error f => ⟨w, some (.job f)⟩
    | .ok cells =>
      let low := w.job.extent.low
      let scene := w.scene.setPreview cells (low.x, low.y) sum.partSize
        (sum.limits.x, sum.limits.y)
      ⟨{ w with scene := scene }, none⟩

def analyze (w : Window) : Reaction :=
  let o := w.job.load w.source (some w.fileName) none
  let w := { w with job := o.state }.report .job o.log
  match o.result with
  | .error f => ⟨w, some (.job f)⟩
  | .ok _ => w.updatePreview

def editSource (w : Window) (t : Text) : Window := { w with source := t, timerPending := true }

def fireTimer (w : Window) : Reaction :=
  if w.timerPending then { w with timerPending := false }.analyze else ⟨w, none⟩

def reportFile (w : Window) (what title path : Text) (f : FileFault) : Window :=
  (w.report .window [⟨.error, "Could not ".toList ++ what ++ ' ' :: path ++ ": ".toList ++
    f.message⟩]).showBox title f.message

def openFile (w : Window) (path : Text) : Reaction :=
  match w.files.readAt path with
  | .error f => ⟨w.reportFile "open".toList "Open Failed".toList path f, none⟩
  | .ok content =>
    match ofUtf8? content with
    | none => ⟨w, some .notText⟩
    | some t => { w with fileName := (Path.ofText path).name, source := unifyBreaks t }.analyze

/-- Keep settings for the next time. That they cannot be written to a file is only reported. -/
def keepSettings (w : Window) (s : Settings Float) : Reaction :=
  match Storage.saveSettings s w.files (Storage.settingsPath Storage.here).text with
  | .ok files => ⟨{ w with files := files }, none⟩
  | .error (.file f) =>
    ⟨w.report .window [⟨.warning, "Could not save settings: ".toList ++ f.message⟩], none⟩
  | .error (.overrun f) => ⟨w, some (.job (.overrun f))⟩

def generate (w : Window) : Reaction :=
  let s := w.settings
  let o := w.job.generate s w.limits
  let w := { w with job := o.state }.report .job o.log
  match o.result with
  | .error f => ⟨w, some (.job f)⟩
  | .ok none =>
    let first := (Problem.firstBlocking w.job.problems).map (·.message)
    ⟨{ w with status := "Generation blocked".toList }.showBox "Cannot Generate".toList
      (first.getD []), none⟩
  | .ok (some text) =>
    (w.keepSettings s).andThen fun w ↦
      match w.job.outputName s with
      | .error f => ⟨w, some (.job f)⟩
      | .ok name =>
        ⟨{ w with
          outputName := name
          output := text
          outputLabel := "Generated Program: ".toList ++ name
          canSave := true
          status := "Generated".toList }, none⟩

def saveOutput (w : Window) (path : Text) : Window :=
  match w.files.writeAt path (utf8 w.output) with
  | .error f => w.reportFile "save".toList "Save Failed".toList path f
  | .ok files =>
    { w with files := files }.report .window [⟨.info, "Saved: ".toList ++ path⟩]

/-- Changing the shape of the grid renumbers the parts, so none stays skipped. -/
def changeShape (w : Window) (f : Form) : Reaction :=
  let changed : Reaction :=
    if f.skipText.isEmpty then ⟨{ w with form := f }, none⟩
    else { w with form := { f with skipText := [] } }.updatePreview
  changed.andThen updatePreview

def change (w : Window) (f : Form) : Reaction := { w with form := f }.updatePreview

def changeUnits (w : Window) (u : Units) : Reaction :=
  { w with units := u, form := w.form.convert w.fields w.units u }.updatePreview

def setColumns (w : Window) (n : Int) : Reaction :=
  if n = w.form.columns then ⟨w, none⟩ else w.changeShape { w.form with columns := n }

def setRows (w : Window) (n : Int) : Reaction :=
  if n = w.form.rows then ⟨w, none⟩ else w.changeShape { w.form with rows := n }

def setGapX (w : Window) (x : Float) : Reaction :=
  if x == w.form.gapX then ⟨w, none⟩ else w.change { w.form with gapX := x }

def setGapY (w : Window) (y : Float) : Reaction :=
  if y == w.form.gapY then ⟨w, none⟩ else w.change { w.form with gapY := y }

/-- What an event does. A field that comes to hold the value it had does nothing. -/
def handle (w : Window) : Event → Reaction
  | .setColumns n => w.setColumns (w.fields.count n)
  | .setRows n => w.setRows (w.fields.count n)
  | .setColumnDirection d =>
    if d = w.form.columnDirection then ⟨w, none⟩ else w.change { w.form with columnDirection := d }
  | .setRowDirection d =>
    if d = w.form.rowDirection then ⟨w, none⟩ else w.change { w.form with rowDirection := d }
  | .setGapX x => w.setGapX (w.fields.gap x)
  | .setGapY y => w.setGapY (w.fields.gap y)
  | .setSortByTool b =>
    if b = w.form.sortByTool then ⟨w, none⟩ else w.change { w.form with sortByTool := b }
  | .setSkipText t =>
    if t = w.form.skipText then ⟨w, none⟩ else w.change { w.form with skipText := t }
  | .setUnits u => if u = w.units then ⟨w, none⟩ else w.changeUnits u
  | .editSource t => ⟨w.editSource t, none⟩
  | .timer => w.fireTimer
  | .generate => w.generate
  | .load none => ⟨w, none⟩
  | .load (some path) => w.openFile path
  | .save none => ⟨w, none⟩
  | .save (some path) => ⟨w.saveOutput path, none⟩

/-- A window before any program is loaded, with the settings and limits kept in files. -/
def start (h : Host) (files : FileTree) : Except Storage.LoadFault Window := do
  let s ← Storage.loadSettings h.room files (Storage.settingsPath Storage.here).text
  let limits ← Storage.loadLimits h.room files (Storage.firmwarePath Storage.here).text
  return {
    fields := h.fields
    limits := limits.value
    form := .ofSettings h.fields .metric s.value
    files := files }

/-- A new window shows a program file, or else the sample, which counts as edited. -/
def launch (h : Host) (files : FileTree) (initial : Option Text) : Except Storage.LoadFault Reaction := do
  let w ← start h files
  match initial with
  | none | some [] => return (w.editSource sampleProgram).analyze
  | some path => return w.openFile path

end Window

end StepAndRepeat
