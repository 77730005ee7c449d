import StepAndRepeat.Text.Basic

namespace StepAndRepeat.Text

/-- White space: the Unicode property together with the four information separators
U+001C to U+001F. -/
def blankRanges : List (Nat × Nat) :=
  [(0x09, 0x0D), (0x1C, 0x20), (0x85, 0x85), (0xA0, 0xA0), (0x1680, 0x1680), (0x2000, 0x200A),
   (0x2028, 0x2029), (0x202F, 0x202F), (0x205F, 0x205F), (0x3000, 0x3000)]

def isBlank (c : Char) : Bool := within blankRanges c

/-- The code points that end a line. The unit separator U+001F is not one of them. -/
def breakRanges : List (Nat × Nat) :=
  [(0x0A, 0x0D), (0x1C, 0x1E), (0x85, 0x85), (0x2028, 0x2029)]

def isBreak (c : Char) : Bool := within breakRanges c

def trimStart (t : Text) : Text := t.dropWhile isBlank

def dropEndWhile (p : Char → Bool) : Text → Text
  | [] => []
  | c :: t =>
    match dropEndWhile p t with
    | [] => if p c then [] else [c]
    | d :: u => c :: d :: u

def trimEnd (t : Text) : Text := dropEndWhile isBlank t

def trim (t : Text) : Text := trimEnd (trimStart t)

/-- The lines of a text, without their ends. A carriage return followed by a line feed is one
end, and nothing follows the last end. -/
def lines : Text → List Text
  | [] => []
  | '\r' :: '\n' :: t => [] :: lines t
  | c :: t => if isBreak c then [] :: lines t else consFirst c (lines t)

end StepAndRepeat.Text
