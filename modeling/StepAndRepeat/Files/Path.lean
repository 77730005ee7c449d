import StepAndRepeat.Text.Basic

namespace StepAndRepeat

structure Path where
  /-- The slashes at the start: none, one or two. -/
  root : Text
  parts : List Text
  deriving DecidableEq, Repr

namespace Path

open Text

/-- Exactly two slashes stay; any other number of them is one. -/
def rootOf : Text → Text
  | '/' :: '/' :: '/' :: _ => ['/']
  | '/' :: '/' :: _ => ['/', '/']
  | '/' :: _ => ['/']
  | _ => []

def ofText (t : Text) : Path where
  root := rootOf t
  parts := (cut '/' t).filter fun p ↦ !p.isEmpty && p ≠ ['.']

def text (p : Path) : Text :=
  match p.root ++ join ['/'] p.parts with
  | [] => ['.']
  | t => t

/-- A path below another. A path with a root stands for itself. -/
def append (p q : Path) : Path := if q.root.isEmpty then ⟨p.root, p.parts ++ q.parts⟩ else q

def child (p : Path) (part : Text) : Path := p.append (ofText part)

def parent (p : Path) : Path := ⟨p.root, p.parts.dropLast⟩

def name (p : Path) : Text := p.parts.getLast?.getD []

def beforeLastDot (t : Text) : Option Text :=
  match t.reverse.dropWhile (· ≠ '.') with
  | [] => none
  | _ :: r => some r.reverse

/-- The last part without its extension. A dot at the start or at the end begins none. -/
def stem (p : Path) : Text :=
  match beforeLastDot p.name with
  | none => p.name
  | some s => if s.isEmpty || s.length + 1 = p.name.length then p.name else s

/-- The parts of a path below a folder, each part of two dots taken back. -/
def steps (p : Path) : List Text :=
  (p.parts.foldl (fun done s ↦ if s = ['.', '.'] then done.drop 1 else s :: done) []).reverse

end Path

end StepAndRepeat
