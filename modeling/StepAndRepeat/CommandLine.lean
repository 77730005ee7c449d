import StepAndRepeat.Text.Digit
import StepAndRepeat.Log

namespace StepAndRepeat

structure Options where
  file : Option Text := none
  logLevel : LogLevel := .info
  deriving DecidableEq, Repr

inductive CommandResult where
  | run (options : Options)
  | help
  | usageError
  deriving DecidableEq, Repr

namespace CommandLine

def shortHelp : Text := "-h".toList

def longHelp : Text := "--help".toList

def levelOption : Text := "--log-level".toList

inductive Argument where
  | positional (t : Text)
  /-- Two dashes, after which nothing is an option. -/
  | divider
  | help
  /-- A request for help with something attached that it cannot take. -/
  | badHelp
  | level (attached : Option Text)
  | unknown
  deriving DecidableEq, Repr

def partition (t : Text) : Text × Option Text :=
  match t.dropWhile (· ≠ '=') with
  | [] => (t, none)
  | _ :: value => (t.takeWhile (· ≠ '='), some value)

def isNegativeNumber (t : Text) : Bool :=
  match if t.getLast? = some '\n' then t.dropLast else t with
  | '-' :: t =>
    match t.dropWhile Text.isDigit with
    | [] => !t.isEmpty
    | '.' :: r => !r.isEmpty && r.all Text.isDigit
    | _ => false
  | _ => false

/-- Help asked for by its short name with more letters behind it. Each further letter may ask for
help again; another letter ends the request but does not spoil it. -/
def attachedHelp : Text → Argument
  | [] => .help
  | '=' :: _ => .badHelp
  | '-' :: _ => .badHelp
  | 'h' :: t => attachedHelp t
  | _ :: _ => .help

/-- An argument that begins with two dashes: an option by its name or the beginning of it. None is
no argument of a known form, as when two options begin so. -/
def long (t : Text) : Option Argument :=
  let (name, value) := partition t
  let isHelp := name.isPrefixOf longHelp
  let isLevel := name.isPrefixOf levelOption
  if isHelp && isLevel then none
  else if isHelp then some (if value.isNone then .help else .badHelp)
  else if isLevel then some (.level value)
  else if t.contains ' ' then some (.positional t)
  else some .unknown

/-- The form of an argument before any divider. -/
def classify (t : Text) : Option Argument :=
  match t with
  | '-' :: '-' :: _ => long t
  | '-' :: 'h' :: r => some (attachedHelp r)
  | '-' :: _ :: _ =>
    some (if isNegativeNumber t || t.contains ' ' then .positional t else .unknown)
  | _ => some (.positional t)

def classifyAll : List Text → Option (List Argument)
  | [] => some []
  | t :: ts =>
    if t = ['-', '-'] then some (.divider :: ts.map .positional)
    else
      match classify t with
      | none => none
      | some a => (classifyAll ts).map (a :: ·)

structure State where
  options : Options := {}
  taken : Bool := false
  left : Bool := false

def take (s : State) : List Argument → CommandResult
  | [] => if s.left then .usageError else .run s.options
  | .positional t :: .divider :: as =>
    if s.taken then take { s with left := true } as
    else take { s with options.file := some t, taken := true } as
  | .positional t :: as =>
    if s.taken then take { s with left := true } as
    else take { s with options.file := some t, taken := true } as
  | .divider :: .positional t :: as =>
    if s.taken then take { s with left := true } as
    else take { s with options.file := some t, taken := true } as
  | .divider :: as =>
    take (if s.taken then { s with left := true } else { s with taken := true }) as
  | .help :: _ => .help
  | .badHelp :: _ => .usageError
  | .level (some v) :: as =>
    match LogLevel.ofName? v with
    | some l => take { s with options.logLevel := l } as
    | none => .usageError
  | .level none :: .positional v :: as =>
    match LogLevel.ofName? v with
    | some l => take { s with options.logLevel := l } as
    | none => .usageError
  | .level none :: _ => .usageError
  | .unknown :: as => take { s with left := true } as

def usage : Text := Text.join ['\n'] <| [
  "usage: stepandrepeat [-h] [--log-level \x7bDEBUG,INFO,WARNING,ERROR\x7d] [file]",
  ""].map String.toList

def helpText : Text := usage ++ Text.join ['\n'] ([
  "",
  "Replicate a G-code program across a grid.",
  "",
  "positional arguments:",
  "  file                  G-code file to open",
  "",
  "options:",
  "  -h, --help            show this help message and exit",
  "  --log-level \x7bDEBUG,INFO,WARNING,ERROR\x7d",
  "                        Logging verbosity (default: INFO)",
  ""].map String.toList)

def read (arguments : List Text) : CommandResult :=
  match classifyAll arguments with
  | none => .usageError
  | some as => take {} as

end CommandLine

end StepAndRepeat
