import StepAndRepeat.CommandLine
import StepAndRepeat.View.Window

namespace StepAndRepeat

structure Transcript where
  output : Text
  messages : List Text
  succeeded : Bool
  deriving DecidableEq, Repr

namespace JobFault

def message : JobFault → Text
  | line .toolNumberInfinite => "A tool number has no whole part".toList
  | overrun f => f.message
  | countTooLarge => "A count of rows or columns is too large".toList
  | layout f => f.message
  | nameless => "The program has no name".toList

end JobFault

namespace WindowFault

def message : WindowFault → Text
  | job f => f.message
  | notText => "The file holds no text".toList

end WindowFault

namespace Session

/-- The files of a session are the program alone, under its name. -/
def files (name : Text) (content : List UInt8) : Except FileFault FileTree := do
  let t ← FileTree.empty.makeFolderAt (Path.ofText name).parent.text
  t.writeAt name content

def logLine (e : LogEntry) : Text := e.level.name ++ " - ".toList ++ e.message

/-- The log entries that weigh enough, the message boxes, and the fault if there is one. -/
def messages (least : LogLevel) (r : Reaction) : List Text :=
  ((r.window.console.map (·.2)).filter fun e ↦ least.weight ≤ e.level.weight).map logLine ++
    r.window.boxes.map (fun b ↦ b.title ++ ": ".toList ++ b.message) ++
    r.fault.toList.map WindowFault.message

def host : Host := ⟨.standard, 900⟩

/-- Open a window on files, and make the program unless it could not be opened. -/
def ofFiles (o : Options) (files : FileTree) : Transcript :=
  match Window.launch host files o.file with
  | .error f => ⟨[], [f.message], false⟩
  | .ok r =>
    let r := if r.window.boxes.isEmpty then r.andThen (·.handle .generate) else r
    ⟨r.window.output, messages o.logLevel r, r.fault.isNone && r.window.boxes.isEmpty⟩

def run (o : Options) (content : List UInt8) : Transcript :=
  match o.file with
  | none => ofFiles o .empty
  | some name =>
    match files name content with
    | .ok t => ofFiles o t
    | .error f => ⟨[], [f.message], false⟩

end Session

end StepAndRepeat
