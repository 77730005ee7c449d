import StepAndRepeat.Machine.Modes

namespace StepAndRepeat

structure Offset (α : Type) where
  x : α
  y : α
  deriving DecidableEq, Repr

namespace Offset

variable {α : Type} [Coordinate α]

/-- A coordinate word: the letter and a number with three decimal places. -/
def wordText (letter : Text) (value : α) : Text := letter ++ Coordinate.fixed 3 value

def isCoordinate (c : Char) : Bool := c = 'X' || c = 'Y' || c = 'x' || c = 'y'

def along (o : Offset α) (letter : Char) : α := if letter = 'X' then o.x else o.y

/-- Code with its coordinates shifted, of which the first `skip` code points belong to a coordinate
already written. The mark says whether a letter stands right before the text. -/
def shiftFrom (o : Offset α) : Nat → Bool → Text → Text
  | _, _, [] => []
  | skip + 1, _, c :: t => shiftFrom o skip (Text.isLetter c) t
  | 0, glued, c :: t =>
    match if isCoordinate c && !glued then Numeral.scan t else none with
    | some (n, _) =>
      wordText [Text.capital c] (Coordinate.ofNumeral (.ofText n) + o.along (Text.capital c)) ++
        shiftFrom o n.length (Text.isLetter c) t
    | none => c :: shiftFrom o 0 (Text.isLetter c) t

def shiftPiece (o : Offset α) : Piece → Text
  | .code t => o.shiftFrom 0 false t
  | .comment t => t

def shiftText (o : Offset α) (t : Text) : Text := (Piece.ofLine t).flatMap o.shiftPiece

/-- The line is shifted in the modes that are in force on it. -/
def applies (m : Modes) (l : Line α) : Bool :=
  l.kind = .code && m.distance = .absolute && !l.isMachineMove && l.hasXY

def step (o : Offset α) (m : Modes) (l : Line α) : Modes × Text :=
  let m := if l.kind = .code then m.after l else m
  (m, if applies m l then o.shiftText l.text else l.text)

end Offset

end StepAndRepeat
