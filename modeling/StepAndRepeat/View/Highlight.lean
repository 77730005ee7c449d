import StepAndRepeat.Program.Label
import StepAndRepeat.Program.Line

namespace StepAndRepeat

structure Style where
  colour : Text
  bold : Bool := false
  italic : Bool := false
  deriving DecidableEq, Repr

structure StyledSpan where
  start : Nat
  length : Nat
  style : Style
  deriving DecidableEq, Repr

namespace Highlight

def rapid : Style := { colour := "#ff6b6b".toList, bold := true }

def linear : Style := { colour := "#51cf66".toList, bold := true }

def arc : Style := { colour := "#ffd43b".toList, bold := true }

def machine : Style := { colour := "#f783ac".toList, bold := true }

def preparatory : Style := { colour := "#74c0fc".toList }

def tool : Style := { colour := "#20c997".toList, bold := true }

def spindle : Style := { colour := "#ffa94d".toList, bold := true }

def programEnd : Style := { colour := "#ff6b6b".toList, bold := true, italic := true }

def miscellaneous : Style := { colour := "#ff8cc8".toList }

def xAxis : Style := { colour := "#ff9999".toList }

def yAxis : Style := { colour := "#99ff99".toList }

def zAxis : Style := { colour := "#9999ff".toList }

def center : Style := { colour := "#cc99ff".toList }

def feed : Style := { colour := "#ffff99".toList }

def lineNumber : Style := { colour := "#adb5bd".toList }

def parameter : Style := { colour := "#99ffcc".toList }

def comment : Style := { colour := "#6c757d".toList, italic := true }

def label : Style := { colour := "#e599f7".toList, italic := true }

variable {α : Type} [Coordinate α]

def preparatoryStyle (v : α) : Style :=
  let is := fun n ↦ Coordinate.isNat n v
  if is 0 then rapid
  else if is 1 then linear
  else if is 2 || is 3 then arc
  else if is 53 then machine
  else preparatory

def miscellaneousStyle (v : α) : Style :=
  let is := fun n ↦ Coordinate.isNat n v
  if is 6 then tool
  else if is 3 || is 4 || is 5 then spindle
  else if is 2 || is 30 then programEnd
  else miscellaneous

def wordStyle (w : Word α) : Style :=
  match w.letter with
  | 'G' => preparatoryStyle w.value
  | 'M' => miscellaneousStyle w.value
  | 'T' => tool
  | 'X' => xAxis
  | 'Y' => yAxis
  | 'Z' => zAxis
  | 'I' | 'J' | 'K' | 'R' => center
  | 'F' | 'S' => feed
  | 'N' => lineNumber
  | _ => parameter

def wordSpan (w : Word α) : StyledSpan := ⟨w.start, w.stop - w.start, wordStyle w⟩

variable (α)

def pieceSpans (place : Nat) : List Piece → List StyledSpan
  | [] => []
  | .comment t :: ps => ⟨place, t.length, comment⟩ :: pieceSpans (place + t.length) ps
  | .code t :: ps =>
    ((Word.ofTokens place (Token.ofCode t) : List (Word α)).map wordSpan) ++
      pieceSpans (place + t.length) ps

def spans (t : Text) : List StyledSpan :=
  if Label.isLabel t then [⟨0, t.length, label⟩] else pieceSpans α 0 (Piece.ofLine t)

end Highlight

end StepAndRepeat
