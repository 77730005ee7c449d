import StepAndRepeat.Text.Blank
import StepAndRepeat.Number.Coordinate
import StepAndRepeat.Program.Token

namespace StepAndRepeat

/-- A letter with its number, and the places in the line where it begins and ends. -/
structure Word (α : Type) where
  letter : Char
  value : α
  start : Nat
  stop : Nat
  deriving Repr

inductive LineKind where
  | blank
  | comment
  | code
  deriving DecidableEq, Repr

structure Line (α : Type) where
  /-- The place of the line in its program, counted from zero. -/
  index : Nat
  text : Text
  kind : LineKind
  words : List (Word α)
  tool : Option Int
  deriving Repr

/-- Why a line cannot be read: its tool number has no whole part. -/
inductive LineFault where
  | toolNumberInfinite
  deriving DecidableEq, Repr

inductive Axis where
  | x
  | y
  | z
  deriving DecidableEq, Repr

namespace Axis

def all : List Axis := [x, y, z]

def letter : Axis → Char
  | x => 'X'
  | y => 'Y'
  | z => 'Z'

end Axis

namespace Word

variable {α : Type} [Coordinate α]

def ofTokens (place : Nat) : List Token → List (Word α)
  | [] => []
  | .other _ :: ts => ofTokens (place + 1) ts
  | .word l n :: ts =>
    ⟨Text.capital l, Coordinate.ofNumeral (.ofText n), place, place + 1 + n.length⟩ ::
      ofTokens (place + 1 + n.length) ts

def ofLine (t : Text) : List (Word α) :=
  (Piece.chunks 0 (Piece.ofLine t)).flatMap fun (place, code) ↦ ofTokens place (Token.ofCode code)

/-- The word names a code by a letter and a whole number. -/
def isCode (letter : Char) (n : Nat) (w : Word α) : Bool :=
  w.letter = letter && Coordinate.isNat n w.value

def isProgramEnd (w : Word α) : Bool := w.isCode 'M' 2 || w.isCode 'M' 30

end Word

namespace Line

variable {α : Type} [Coordinate α]

def kindOf (t : Text) : LineKind :=
  match Text.trim t with
  | [] => .blank
  | c :: _ => if c = '(' ∨ c = ';' ∨ c = '%' then .comment else .code

/-- The number of the tool that words call for: a tool word beside a tool change, or a tool word
alone on its line. -/
def toolOf (ws : List (Word α)) : Except LineFault (Option Int) :=
  match ws.find? (·.letter = 'T') with
  | none => .ok none
  | some t =>
    if ws.any (·.isCode 'M' 6) || ws.length = 1 then
      match Coordinate.trunc? t.value with
      | some n => .ok (some n)
      | none => .error .toolNumberInfinite
    else .ok none

def readAt (index : Nat) (t : Text) : Except LineFault (Line α) :=
  match kindOf t with
  | .code =>
    let ws := Word.ofLine t
    (toolOf ws).map fun tool ↦ ⟨index, t, .code, ws, tool⟩
  | kind => .ok ⟨index, t, kind, [], none⟩

def read (t : Text) : Except LineFault (Line α) := readAt 0 t

def readFrom (index : Nat) : List Text → Except LineFault (List (Line α))
  | [] => .ok []
  | t :: ts => do
    let l ← readAt index t
    let ls ← readFrom (index + 1) ts
    return l :: ls

def readAll (program : Text) : Except LineFault (List (Line α)) := readFrom 0 (Text.lines program)

variable (l : Line α)

def isComment : Bool := l.kind = .comment

def isBlank : Bool := l.kind = .blank

/-- The value of the first word with a letter. -/
def value? (letter : Char) : Option α := (l.words.find? (·.letter = letter)).map Word.value

def axis? (a : Axis) : Option α := l.value? a.letter

def x? : Option α := l.value? 'X'

def y? : Option α := l.value? 'Y'

def i? : Option α := l.value? 'I'

def j? : Option α := l.value? 'J'

def values (letter : Char) : List α := (l.words.filter (·.letter = letter)).map Word.value

def has (letter : Char) (n : Nat) : Bool := l.words.any (·.isCode letter n)

def hasFraction (n : Numeral) : Bool :=
  l.words.any fun w ↦ w.letter = 'G' && Coordinate.isNumeral n w.value

/-- The line is in machine coordinates and says nothing about the workpiece. -/
def isMachineMove : Bool := l.has 'G' 53

def isToolChange : Bool := l.tool.isSome

def isSpindleStart : Bool := l.has 'M' 3 || l.has 'M' 4

def isSpindleStop : Bool := l.has 'M' 5

def isProgramEnd : Bool := l.words.any Word.isProgramEnd

def hasXY : Bool := l.x?.isSome || l.y?.isSome

def hasAxisWord : Bool := Axis.all.any fun a ↦ (l.axis? a).isSome

def hasArcCenter : Bool := l.i?.isSome || l.j?.isSome

/-- An operation begins with a spindle start, or with an explicit straight move in X or Y outside
machine coordinates. -/
def isOperationStart : Bool :=
  l.isSpindleStart || ((l.has 'G' 0 || l.has 'G' 1) && l.hasXY && !l.isMachineMove)

end Line

end StepAndRepeat
