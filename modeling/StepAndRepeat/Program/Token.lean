import StepAndRepeat.Text.Letter
import StepAndRepeat.Number.Numeral
import StepAndRepeat.Program.Piece

namespace StepAndRepeat

/-- A part of a stretch of code: a word as it is written, or a code point between words. -/
inductive Token where
  | other (c : Char)
  | word (letter : Char) (number : Text)
  deriving DecidableEq, Repr

namespace Token

open Text

def text : Token → Text
  | other c => [c]
  | word l n => l :: n

/-- The tokens of a text of which the first `skip` code points belong to a word already taken;
`glued` says that a letter stands before the text. -/
def scanFrom : Nat → Bool → Text → List Token
  | _, _, [] => []
  | skip + 1, _, _ :: t => scanFrom skip false t
  | 0, glued, c :: t =>
    match if isLetter c && !glued then Numeral.scan t else none with
    | some (n, _) => word c n :: scanFrom n.length false t
    | none => other c :: scanFrom 0 (isLetter c) t

def ofCode (t : Text) : List Token := scanFrom 0 false t

theorem scanFrom_drop (skip : Nat) (t : Text) :
    scanFrom skip false t = scanFrom 0 false (t.drop skip) := by
  induction t generalizing skip with
  | nil => simp [scanFrom]
  | cons c t ih =>
    cases skip with
    | zero => rfl
    | succ n => simpa [scanFrom] using ih n

theorem flatMap_text_scanFrom (glued : Bool) (t : Text) :
    (scanFrom 0 glued t).flatMap text = t := by
  generalize hn : t.length = n
  induction n using Nat.strongRecOn generalizing glued t with
  | ind n ih =>
    cases t with
    | nil => rfl
    | cons c t =>
      unfold scanFrom
      split
      · rename_i m r h
        have hs : Numeral.scan t = some (m, r) := by
          split at h
          · exact h
          · cases h
        have ha := Numeral.scan_append hs
        have hl := Numeral.length_lt_of_scan hs
        rw [scanFrom_drop, ← ha, List.drop_left, List.flatMap_cons,
          ih _ (by simp at hn; omega) _ _ rfl]
        simp [text]
      · rw [List.flatMap_cons, ih _ (by simp at hn; omega) _ _ rfl]
        simp [text]

theorem flatMap_text_ofCode (t : Text) : (ofCode t).flatMap text = t :=
  flatMap_text_scanFrom false t

end Token

inductive LinePart where
  | comment (text : Text)
  | token (token : Token)
  deriving DecidableEq, Repr

namespace LinePart

def text : LinePart → Text
  | comment t => t
  | token k => k.text

def ofPiece : Piece → List LinePart
  | .comment t => [comment t]
  | .code t => (Token.ofCode t).map token

def ofLine (t : Text) : List LinePart := (Piece.ofLine t).flatMap ofPiece

theorem flatMap_text_ofPiece (p : Piece) : (ofPiece p).flatMap text = p.text := by
  cases p with
  | comment t => simp [ofPiece, text, Piece.text]
  | code t =>
    have := Token.flatMap_text_ofCode t
    simpa [ofPiece, List.flatMap_map, text, Piece.text] using this

theorem flatMap_text_ofLine (t : Text) : (ofLine t).flatMap text = t := by
  rw [ofLine, List.flatMap_assoc]
  simpa [flatMap_text_ofPiece] using Piece.flatMap_text_ofLine t

end LinePart

end StepAndRepeat
