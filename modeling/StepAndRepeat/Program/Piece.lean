import StepAndRepeat.Text.Basic

namespace StepAndRepeat

/-- A stretch of a line, with the marks of its comment if it is one. -/
inductive Piece where
  | code (text : Text)
  | comment (text : Text)
  deriving DecidableEq, Repr

namespace Piece

def text : Piece → Text
  | code t => t
  | comment t => t

def isComment : Piece → Bool
  | code _ => false
  | comment _ => true

def consCode (c : Char) : List Piece → List Piece
  | code t :: ps => code (c :: t) :: ps
  | ps => code [c] :: ps

def consComment (c : Char) : List Piece → List Piece
  | comment t :: ps => comment (c :: t) :: ps
  | ps => comment [c] :: ps

/-- A semicolon begins a comment when nothing but one final line feed can be left after the
line it stands on. -/
def endsLine (t : Text) : Bool := (t.dropWhile (· ≠ '\n')).drop 1 = []

def split : Bool → Text → List Piece
  | false, [] => []
  | true, [] => [comment []]
  | false, c :: t =>
    if c = '(' then consComment c (split true t)
    else if c = ';' ∧ endsLine t then
      comment (c :: t.takeWhile (· ≠ '\n')) ::
        (match t.dropWhile (· ≠ '\n') with | [] => [] | r => [code r])
    else consCode c (split false t)
  | true, c :: t => if c = ')' then comment [c] :: split false t else consComment c (split true t)

def ofLine (t : Text) : List Piece := split false t

def chunks (start : Nat) : List Piece → List (Nat × Text)
  | [] => []
  | code t :: ps => (start, t) :: chunks (start + t.length) ps
  | comment t :: ps => chunks (start + t.length) ps

theorem flatMap_text_consCode (c : Char) (ps : List Piece) :
    (consCode c ps).flatMap text = c :: ps.flatMap text := by
  unfold consCode
  split <;> simp [text]

theorem flatMap_text_consComment (c : Char) (ps : List Piece) :
    (consComment c ps).flatMap text = c :: ps.flatMap text := by
  unfold consComment
  split <;> simp [text]

/-- Nothing of the text is lost. -/
theorem flatMap_text_split (b : Bool) (t : Text) : (split b t).flatMap text = t := by
  induction t generalizing b with
  | nil => cases b <;> rfl
  | cons c t ih =>
    cases b with
    | true =>
      unfold split
      split
      · simp [text, ih]
      · simp [flatMap_text_consComment, ih]
    | false =>
      unfold split
      split
      · simp [flatMap_text_consComment, ih]
      · split
        · have := List.takeWhile_append_dropWhile (p := (· ≠ '\n')) (l := t)
          generalize t.dropWhile (· ≠ '\n') = r at this
          cases r <;> simp_all [text]
        · simp [flatMap_text_consCode, ih]

theorem flatMap_text_ofLine (t : Text) : (ofLine t).flatMap text = t := flatMap_text_split false t

end Piece

end StepAndRepeat
