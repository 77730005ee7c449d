import StepAndRepeat.Text.Basic

namespace StepAndRepeat

inductive Severity where
  | warning
  | error
  | fatal
  deriving DecidableEq, Repr

namespace Severity

def name : Severity → Text
  | warning => "warning".toList
  | error => "error".toList
  | fatal => "fatal".toList

def ofName? (t : Text) : Option Severity := [warning, error, fatal].find? (·.name = t)

def rank : Severity → Nat
  | fatal => 0
  | error => 1
  | warning => 2

end Severity

inductive Concern where
  | skipText
  | envelope
  | configuration
  | caution
  deriving DecidableEq, Repr

namespace Concern

def name : Concern → Text
  | skipText => "skip_spec".toList
  | envelope => "envelope".toList
  | configuration => "config".toList
  | caution => "warning".toList

def ofName? (t : Text) : Option Concern :=
  [skipText, envelope, configuration, caution].find? (·.name = t)

end Concern

structure Problem where
  message : Text
  concern : Concern
  token : Option Text := none
  severity : Severity := .error
  deriving DecidableEq, Repr

namespace Problem

def isBlocking (p : Problem) : Bool := p.severity ≠ .warning

def anyOf (s : Severity) (ps : List Problem) : Bool := ps.any (·.severity = s)

def anyBlocking (ps : List Problem) : Bool := ps.any (·.severity ∈ [.error, .fatal])

def firstBlocking (ps : List Problem) : Option Problem := ps.find? isBlocking

inductive Event where
  | found (p : Problem)
  | cleared

def record (ps : List Problem) : Event → List Problem
  | .found p => ps ++ [p]
  | .cleared => []

def isAsGraveAs (p q : Problem) : Bool := p.severity.rank ≤ q.severity.rank

/-- The problems by falling severity, those of one severity in the order found. -/
def listed (ps : List Problem) : List Problem := ps.mergeSort isAsGraveAs

end Problem

end StepAndRepeat
