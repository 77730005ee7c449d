import StepAndRepeat.Files.Tree
import StepAndRepeat.Json.Printer
import StepAndRepeat.Json.Reader
import StepAndRepeat.Settings.Limits
import StepAndRepeat.Settings.Settings

namespace StepAndRepeat

namespace Storage

def appName : Text := "gcode-replicator".toList

def settingsName : Text := "replicator.json".toList

def firmwareName : Text := "firmware.json".toList

/-- What the place of the folder depends on. -/
structure Environment where
  system : Text
  home : Text
  appData : Option Text := none
  configHome : Option Text := none

/-- The home folder: slashes at the end of its name mean nothing. -/
def homePath (e : Environment) : Path :=
  match (e.home.reverse.dropWhile (· = '/')).reverse with
  | [] => .ofText ['/']
  | t => .ofText t

def folder (e : Environment) : Path :=
  let home := homePath e
  if e.system = "Windows".toList then
    ((e.appData.map Path.ofText).getD
      ((home.child "AppData".toList).child "Roaming".toList)).child appName
  else if e.system = "Darwin".toList then
    ((home.child "Library".toList).child "Application Support".toList).child appName
  else if e.system = "Linux".toList then
    ((e.configHome.map Path.ofText).getD (home.child ".config".toList)).child appName
  else home.child ('.' :: appName)

def settingsPath (e : Environment) : Path := (folder e).child settingsName

def firmwarePath (e : Environment) : Path := (folder e).child firmwareName

/-- The environment of a session whose configuration folder is the root of its files. -/
def here : Environment where
  system := "Linux".toList
  home := ['/']
  configHome := some []

/-- What was loaded, and whether that took a warning. -/
structure Loaded (β : Type) where
  value : β
  warned : Bool

/-- What is wrong with a file that the defaults do not answer. -/
inductive LoadFault where
  /-- A number is asked to be of a kind that has none so large. -/
  | tooLarge
  /-- A value lies too deep within others. -/
  | tooDeep
  deriving DecidableEq, Repr

namespace LoadFault

def message : LoadFault → Text
  | tooLarge => "The settings hold a number that is too large".toList
  | tooDeep => "The settings hold values within too many others".toList

end LoadFault

/-- The document that a file holds, with room for so many levels within it. -/
def document (room : Nat) (content : List UInt8) : Except Json.Refusal Json :=
  match Text.ofUtf8? content with
  | some t => Json.read room t
  | none => .error .malformed

/-- Read a file and make something of its document. -/
def load {β : Type} (default : β) (convert : Json → Except ValueFault (Option β)) (room : Nat)
    (t : FileTree) (path : Text) : Except LoadFault (Loaded β) :=
  match t.readAt path with
  | .error f => .ok ⟨default, f.cause ≠ .notFound⟩
  | .ok content =>
    match document room content with
    | .error .tooDeep => .error .tooDeep
    | .error .malformed => .ok ⟨default, true⟩
    | .ok v =>
      match convert v with
      | .ok (some s) => .ok ⟨s, false⟩
      | .ok none => .ok ⟨default, true⟩
      | .error .outOfRange => .error .tooLarge
      | .error _ => .ok ⟨default, true⟩

def loadSettings : Nat → FileTree → Text → Except LoadFault (Loaded (Settings Float)) :=
  load Settings.default fun v ↦
    match Settings.ofJson v with
    | .ok s => .ok (some s)
    | .error (.value f) => .error f
    | .error (.direction _) => .ok none

def loadLimits : Nat → FileTree → Text → Except LoadFault (Loaded Limits) :=
  load {} fun v ↦ (Limits.ofJson v).map some

inductive SaveFault where
  | file (fault : FileFault)
  | overrun (fault : Overrun)

/-- Keep settings in a file, whose folder is made if need be. -/
def saveSettings (s : Settings Float) (t : FileTree) (path : Text) : Except SaveFault FileTree := do
  let t ← (t.makeFolderAt (Path.ofText path).parent.text).mapError .file
  let text ← s.toJson.document.mapError .overrun
  (t.writeAt (Path.ofText path).text (Text.utf8 text)).mapError .file

end Storage

end StepAndRepeat
