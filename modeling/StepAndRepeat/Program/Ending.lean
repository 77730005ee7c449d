import StepAndRepeat.Program.Line

namespace StepAndRepeat.Ending

variable (α : Type) [Coordinate α]

def isEnd : LinePart → Bool
  | .token (.word l n) =>
    Word.isProgramEnd (α := α) ⟨Text.capital l, Coordinate.ofNumeral (.ofText n), 0, 0⟩
  | _ => false

/-- The text of a line without its end words, each taken with the blanks and tabs behind it. -/
def withoutEnds : List LinePart → Text
  | [] => []
  | p :: ps =>
    if isEnd α p then (withoutEnds ps).dropWhile fun c ↦ c = ' ' || c = '\t'
    else p.text ++ withoutEnds ps

variable {α}

/-- The line without its end words, unless nothing but line numbers is left of its words. -/
def strip (l : Line α) : Option Text :=
  if l.words.any fun w ↦ !w.isProgramEnd && w.letter ≠ 'N' then
    some (Text.trimEnd (withoutEnds α (LinePart.ofLine l.text)))
  else none

end StepAndRepeat.Ending
