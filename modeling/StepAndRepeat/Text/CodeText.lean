import StepAndRepeat.Text.Hex

namespace StepAndRepeat

/-- A code point as a document has it: a character, or one half of a pair that lacks the other. -/
inductive CodePoint where
  | char (c : Char)
  | half (k : Fin 0x800)
  deriving DecidableEq, Repr

namespace CodePoint

def ofUnit (u : Nat) : CodePoint :=
  if h : 0xD800 ≤ u ∧ u < 0xE000 then .half ⟨u - 0xD800, by omega⟩ else .char (Char.ofNat u)

/-- A half is seen as the replacement character. -/
def seen : CodePoint → Char
  | char c => c
  | half _ => '\uFFFD'

def char? : CodePoint → Option Char
  | char c => some c
  | half _ => none

end CodePoint

abbrev CodeText := List CodePoint

namespace CodeText

def ofText (t : Text) : CodeText := t.map .char

def seen (t : CodeText) : Text := t.map CodePoint.seen

def text? (t : CodeText) : Option Text := t.mapM CodePoint.char?

end CodeText

end StepAndRepeat
