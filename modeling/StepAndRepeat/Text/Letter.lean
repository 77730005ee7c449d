import StepAndRepeat.Text.Basic

namespace StepAndRepeat.Text

/-- The Latin letters, the capital I with a dot, the small i without one, the long s and the
kelvin sign. -/
def letterRanges : List (Nat × Nat) :=
  [(0x41, 0x5A), (0x61, 0x7A), (0x130, 0x131), (0x17F, 0x17F), (0x212A, 0x212A)]

def isLetter (c : Char) : Bool := within letterRanges c

/-- The capital of a letter. The dotless i and the long s have plain capitals; the dotted
capital and the kelvin sign stand for themselves. -/
def capital (c : Char) : Char :=
  if c = 'ı' then 'I' else if c = 'ſ' then 'S' else c.toUpper

end StepAndRepeat.Text
