import Mathlib.Data.List.Basic
import Mathlib.Data.Nat.Init
import StepAndRepeat.Proofs.Program.Tokens
import StepAndRepeat.Replication.Shift

namespace StepAndRepeat.Offset

variable {α : Type}

theorem isLetter_of_isCoordinate {c : Char} (h : isCoordinate c = true) :
    Text.isLetter c = true := by
  simp only [isCoordinate, Bool.or_eq_true, decide_eq_true_eq] at h
  obtain ((rfl | rfl) | rfl) | rfl := h <;> decide

theorem isCoordinate_iff (c : Char) :
    isCoordinate c = true ↔ Text.capital c = 'X' ∨ Text.capital c = 'Y' := by
  by_cases hc : 'a'.val ≤ c.val ∧ c.val ≤ 'z'.val
  · have hsmall : ∀ n, 0x61 ≤ n → n ≤ 0x7A → (isCoordinate (Char.ofNat n) = true ↔
        Text.capital (Char.ofNat n) = 'X' ∨ Text.capital (Char.ofNat n) = 'Y') := by decide
    have h := hsmall c.toNat hc.1 hc.2
    rwa [Char.ofNat_toNat] at h
  · have hsame : c.toUpper = c := dif_neg hc
    have hx : c ≠ 'x' := by
      rintro rfl
      exact hc (by decide)
    have hy : c ≠ 'y' := by
      rintro rfl
      exact hc (by decide)
    rw [Text.capital, hsame]
    split
    · subst_vars
      decide
    · split
      · subst_vars
        decide
      · simp [isCoordinate, hx, hy]

def of? (o : Offset α) (letter : Char) : Option α :=
  if letter = 'X' then some o.x else if letter = 'Y' then some o.y else none

theorem of?_capital (o : Offset α) (c : Char) :
    o.of? (Text.capital c) =
      if isCoordinate c then some (o.along (Text.capital c)) else none := by
  have h := isCoordinate_iff c
  by_cases hx : Text.capital c = 'X'
  · rw [if_pos (h.2 (.inl hx)), of?, along, if_pos hx, if_pos hx]
  · by_cases hy : Text.capital c = 'Y'
    · rw [if_pos (h.2 (.inr hy)), of?, along, if_neg hx, if_neg hx, if_pos hy]
    · rw [if_neg (fun hc ↦ (h.1 hc).elim hx hy), of?, if_neg hx, if_neg hy]

variable [Coordinate α]

def shiftToken (o : Offset α) : Token → Text
  | .other c => [c]
  | .word l n =>
    match o.of? (Text.capital l) with
    | some d => wordText [Text.capital l] (Coordinate.ofNumeral (.ofText n) + d)
    | none => l :: n

def shiftPart (o : Offset α) : LinePart → Text
  | .comment t => t
  | .token k => o.shiftToken k

variable (o : Offset α)

def gluedAfter (glued : Bool) (t : Text) : Bool := t.getLast?.elim glued Text.isLetter

theorem shiftFrom_skip (n r : Text) (glued : Bool) :
    o.shiftFrom n.length glued (n ++ r) = o.shiftFrom 0 (gluedAfter glued n) r := by
  induction n generalizing glued with
  | nil => rfl
  | cons c n ih =>
    rw [List.length_cons, List.cons_append, shiftFrom, ih]
    cases n <;> rfl

theorem shiftFrom_pass {n : Text} (hn : ∀ c ∈ n, isCoordinate c = false) (r : Text)
    (glued : Bool) :
    o.shiftFrom 0 glued (n ++ r) = n ++ o.shiftFrom 0 (gluedAfter glued n) r := by
  induction n generalizing glued with
  | nil => rfl
  | cons c n ih =>
    have hc : isCoordinate c = false := hn c (by simp)
    rw [List.cons_append, shiftFrom, hc, Bool.false_and, if_neg Bool.false_ne_true]
    dsimp only
    rw [ih fun d hd ↦ hn d (by simp [hd])]
    cases n <;> rfl

theorem not_isLetter_of_shape {n : Text} {pointed : Bool} (hn : Numeral.Shape n pointed)
    {c : Char} (hc : c ∈ n) : Text.isLetter c = false := by
  rw [← Bool.not_eq_true]
  intro hl
  rcases hn.mem hc with hd | rfl | hs
  · rw [Text.not_isDigit_of_isLetter hl] at hd
    cases hd
  · cases hl
  · simp only [Numeral.isSign, Bool.or_eq_true, decide_eq_true_eq] at hs
    rcases hs with rfl | rfl <;> cases hl

theorem gluedAfter_of_shape {n : Text} {pointed : Bool} (hn : Numeral.Shape n pointed)
    (hne : n ≠ []) (glued : Bool) : gluedAfter glued n = false := by
  rw [gluedAfter, List.getLast?_eq_some_getLast hne]
  exact not_isLetter_of_shape hn (List.getLast_mem hne)

/-- The coordinates that are found in code are its X and Y words: a word with another letter is
passed over, and no numeral holds a letter. -/
theorem shiftFrom_textOf {glued : Bool} {ts : List Token} (h : Token.Fits glued ts) :
    o.shiftFrom 0 glued (Token.textOf ts) = ts.flatMap o.shiftToken := by
  induction h with
  | nil => rfl
  | @other glued c ts hn _ ih =>
    have hs : (if isCoordinate c && !glued then Numeral.scan (Token.textOf ts) else none) =
        none := by
      split
      next hc =>
        simp only [Bool.and_eq_true, Bool.not_eq_true'] at hc
        exact Token.scan_eq_none.2 (hn (isLetter_of_isCoordinate hc.1) hc.2)
      next => rfl
    rw [Token.textOf_other, shiftFrom, hs]
    dsimp only
    rw [ih, List.flatMap_cons, shiftToken, List.singleton_append]
  | @word l n pointed ts _ hn hr _ ih =>
    have hne : n ≠ [] := Numeral.scan_ne_nil (Numeral.scan_eq_some hn hr)
    rw [Token.textOf_word, List.flatMap_cons, shiftToken, of?_capital, shiftFrom]
    cases hc : isCoordinate l with
    | true =>
      rw [Bool.not_false, Bool.and_true, if_pos rfl, if_pos rfl, Numeral.scan_eq_some hn hr]
      dsimp only
      rw [shiftFrom_skip, gluedAfter_of_shape hn hne, ih]
    | false =>
      have hpass : ∀ c ∈ n, isCoordinate c = false := fun c hc ↦ by
        have hl := not_isLetter_of_shape hn hc
        rw [← Bool.not_eq_true] at hl ⊢
        exact fun h ↦ hl (isLetter_of_isCoordinate h)
      rw [Bool.false_and, if_neg Bool.false_ne_true, if_neg Bool.false_ne_true]
      dsimp only
      rw [o.shiftFrom_pass hpass, gluedAfter_of_shape hn hne, ih, List.cons_append]

theorem shiftPiece_eq (p : Piece) : o.shiftPiece p = (LinePart.ofPiece p).flatMap o.shiftPart := by
  cases p with
  | comment t => simp [shiftPiece, LinePart.ofPiece, shiftPart]
  | code t =>
    have h := o.shiftFrom_textOf (Token.fits_scanFrom false t)
    rw [Token.textOf, Token.flatMap_text_scanFrom] at h
    rw [shiftPiece, h, LinePart.ofPiece, List.flatMap_map]
    rfl

/-- The second scan of a line finds the X and Y words that reading the line finds. -/
theorem shiftText_eq_flatMap (t : Text) :
    o.shiftText t = (LinePart.ofLine t).flatMap o.shiftPart := by
  rw [shiftText, LinePart.ofLine, List.flatMap_assoc]
  exact List.flatMap_congr fun p _ ↦ o.shiftPiece_eq p

end StepAndRepeat.Offset
