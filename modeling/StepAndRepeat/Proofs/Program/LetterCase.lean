import StepAndRepeat.Proofs.Program.Numbering
import StepAndRepeat.Proofs.Program.Words
import StepAndRepeat.Proofs.Text.LetterCase

namespace StepAndRepeat

open Text

variable {α : Type} [Coordinate α]

namespace Numeral

theorem caseless_isSign : Caseless isSign := caseless_of_small (by decide)

theorem ofText_upper (t : Text) : ofText (upper t) = ofText t := by
  simp only [ofText, digitsToNat_upper, head?_upper_eq_iff (d := '-') (by decide),
    dropWhile_upper (caseless_ne (d := '.') (by decide)), countP_upper caseless_isDigit]

theorem begins_upper (t : Text) : begins (upper t) = begins t := by
  have hhead (t : Text) : (upper t).head?.any isDigit = t.head?.any isDigit := by
    cases t with
    | nil => rfl
    | cons c t => exact caseless_isDigit c
  have hunsigned (t : Text) : beginsUnsigned (upper t) = beginsUnsigned t := by
    cases t with
    | nil => rfl
    | cons c t =>
      rw [upper_cons, beginsUnsigned, beginsUnsigned, caseless_isDigit, hhead]
      simp only [toUpper_eq_iff (d := '.') (by decide)]
  cases t with
  | nil => rfl
  | cons c t =>
    rw [upper_cons, begins, begins, caseless_isSign, hunsigned, ← upper_cons, hunsigned]

theorem Shape.upper_eq {n : Text} {pointed : Bool} (h : Shape n pointed) : upper n = n :=
  (List.map_congr_left fun _ hc ↦
    toUpper_of_not_isLetter (Token.not_isLetter_of_shape h hc)).trans (List.map_id n)

theorem Stops.upper {r : Text} {pointed : Bool} (h : Stops pointed r) :
    Stops pointed (Text.upper r) := by
  cases r with
  | nil => exact h
  | cons c r =>
    rintro d ⟨⟩
    obtain ⟨hdigit, hpoint⟩ := h c rfl
    rw [caseless_isDigit]
    exact ⟨hdigit, fun hp ↦ mt (toUpper_eq_iff (by decide)).1 (hpoint hp)⟩

end Numeral

namespace Token

def upper : Token → Token
  | other c => other c.toUpper
  | word l n => word l.toUpper (Text.upper n)

theorem text_upper (k : Token) : k.upper.text = Text.upper k.text := by
  cases k <;> rfl

theorem textOf_map_upper (ts : List Token) : textOf (ts.map upper) = Text.upper (textOf ts) := by
  rw [textOf, List.flatMap_map, textOf, upper_flatMap]
  exact List.flatMap_congr fun k _ ↦ k.text_upper

theorem Fits.upper {glued : Bool} {ts : List Token} (h : Fits glued ts) :
    Fits glued (ts.map Token.upper) := by
  induction h with
  | nil => exact .nil
  | @other glued c ts hn _ ih =>
    rw [← caseless_isLetter] at hn ih
    refine .other (fun hc hg ↦ ?_) ih
    rw [textOf_map_upper, Numeral.begins_upper]
    exact hn hc hg
  | @word l n pointed ts hl hn hr _ ih =>
    rw [← caseless_isLetter] at hl
    rw [List.map_cons, Token.upper, hn.upper_eq]
    refine .word hl hn ?_ ih
    rw [textOf_map_upper]
    exact hr.upper

theorem ofCode_upper (t : Text) : ofCode (Text.upper t) = (ofCode t).map upper := by
  have hfits : Fits false ((ofCode t).map upper) := (fits_scanFrom false t).upper
  have hscan := scanFrom_of_fits hfits
  rwa [textOf_map_upper, Piece.textOf_ofCode] at hscan

end Token

namespace Piece

def upper : Piece → Piece
  | code t => code (Text.upper t)
  | comment t => comment (Text.upper t)

theorem consCode_upper (c : Char) (ps : List Piece) :
    consCode c.toUpper (ps.map upper) = (consCode c ps).map upper := by
  rcases ps with _ | ⟨_ | _, ps⟩ <;> rfl

theorem consComment_upper (c : Char) (ps : List Piece) :
    consComment c.toUpper (ps.map upper) = (consComment c ps).map upper := by
  rcases ps with _ | ⟨_ | _, ps⟩ <;> rfl

theorem endsLine_upper (t : Text) : endsLine (Text.upper t) = endsLine t := by
  rw [endsLine, dropWhile_upper (caseless_ne (by decide)), Text.upper, ← List.map_drop, endsLine]
  simp only [List.map_eq_nil_iff]

theorem split_upper (b : Bool) (t : Text) : split b (Text.upper t) = (split b t).map upper := by
  induction t generalizing b with
  | nil => cases b <;> rfl
  | cons c t ih =>
    cases b with
    | false =>
      simp only [upper_cons, split, toUpper_eq_iff (d := '(') (by decide),
        toUpper_eq_iff (d := ';') (by decide), endsLine_upper]
      split
      · rw [ih, consComment_upper]
      · split
        · rw [takeWhile_upper (caseless_ne (by decide)), dropWhile_upper (caseless_ne (by decide))]
          cases t.dropWhile (fun c ↦ decide (c ≠ '\n')) <;> rfl
        · rw [ih, consCode_upper]
    | true =>
      simp only [upper_cons, split, toUpper_eq_iff (d := ')') (by decide)]
      split
      · rw [ih]
        rfl
      · rw [ih, consComment_upper]

end Piece

namespace LinePart

def upper : LinePart → LinePart
  | comment t => comment (Text.upper t)
  | token k => token k.upper

theorem text_upper (p : LinePart) : p.upper.text = Text.upper p.text := by
  cases p with
  | comment t => rfl
  | token k => exact k.text_upper

theorem ofLine_upper (t : Text) : ofLine (Text.upper t) = (ofLine t).map upper := by
  rw [ofLine, Piece.ofLine, Piece.split_upper, List.flatMap_map, ofLine, List.map_flatMap]
  refine List.flatMap_congr fun p _ ↦ ?_
  cases p with
  | comment t => rfl
  | code t =>
    rw [Piece.upper, ofPiece, Token.ofCode_upper, ofPiece, List.map_map, List.map_map]
    rfl

end LinePart

theorem Word.ofParts_upper (place : Nat) (ps : List LinePart) :
    (ofParts place (ps.map LinePart.upper) : List (Word α)) = ofParts place ps := by
  induction ps generalizing place with
  | nil => rfl
  | cons p ps ih =>
    rcases p with t | c | ⟨l, n⟩
    · rw [List.map_cons, LinePart.upper, ofParts, ofParts, length_upper, ih]
    · exact ih _
    · rw [List.map_cons, LinePart.upper, Token.upper, ofParts, ofParts, length_upper, ih,
        caseless_capital, Numeral.ofText_upper]

theorem Word.ofLine_upper (t : Text) : (ofLine (upper t) : List (Word α)) = ofLine t := by
  rw [ofLine_eq_ofParts, LinePart.ofLine_upper, ofParts_upper, ← ofLine_eq_ofParts]

namespace Line

def upper (l : Line α) : Line α := { l with text := Text.upper l.text }

theorem inkKind_toUpper (c? : Option Char) : inkKind (c?.map Char.toUpper) = inkKind c? := by
  cases c? with
  | none => rfl
  | some c =>
    simp only [Option.map_some, inkKind, toUpper_eq_iff (d := '(') (by decide),
      toUpper_eq_iff (d := ';') (by decide), toUpper_eq_iff (d := '%') (by decide)]

theorem kindOf_upper (t : Text) : kindOf (Text.upper t) = kindOf t := by
  have hink : Caseless fun c ↦ !Text.isBlank c := caseless_isBlank.comp not
  rw [kindOf_eq, kindOf_eq, find?_upper hink, inkKind_toUpper]

theorem readAt_upper (i : Nat) (t : Text) : (readAt i (Text.upper t) : Except LineFault (Line α)) =
    (readAt i t).map upper := by
  unfold readAt
  rw [kindOf_upper, Word.ofLine_upper]
  split
  · dsimp only
    cases toolOf (Word.ofLine t : List (Word α)) <;> rfl
  · rfl

theorem readFrom_upper (i : Nat) (ts : List Text) :
    (readFrom i (ts.map Text.upper) : Except LineFault (List (Line α))) =
      (readFrom i ts).map (List.map upper) := by
  induction ts generalizing i with
  | nil => rfl
  | cons t ts ih =>
    rw [List.map_cons, readFrom, readFrom, readAt_upper, ih]
    cases (readAt i t : Except LineFault (Line α)) with
    | error _ => rfl
    | ok l => cases (readFrom (i + 1) ts : Except LineFault (List (Line α))) <;> rfl

theorem readAll_upper (p : Text) : (readAll (Text.upper p) : Except LineFault (List (Line α))) =
    (readAll p).map (List.map upper) := by
  rw [readAll, lines_upper, readFrom_upper, readAll]

end Line

namespace Ending

theorem isEnd_upper (p : LinePart) : isEnd α p.upper = isEnd α p := by
  rcases p with t | c | ⟨l, n⟩
  · rfl
  · rfl
  · rw [LinePart.upper, Token.upper, isEnd, isEnd, caseless_capital, Numeral.ofText_upper]

theorem caseless_isGap : Caseless fun c ↦ c = ' ' || c = '\t' := caseless_of_small (by decide)

theorem withoutEnds_upper (ps : List LinePart) :
    withoutEnds α (ps.map LinePart.upper) = upper (withoutEnds α ps) := by
  induction ps with
  | nil => rfl
  | cons p ps ih =>
    rw [List.map_cons, withoutEnds, withoutEnds, isEnd_upper, ih]
    split
    · exact dropWhile_upper caseless_isGap _
    · rw [LinePart.text_upper, upper_append]

theorem strip_upper (l : Line α) : strip l.upper = (strip l).map upper := by
  unfold strip
  rw [Line.upper, LinePart.ofLine_upper, withoutEnds_upper, trimEnd_upper]
  dsimp only
  split <;> rfl

theorem clean_upper (l : Line α) : clean l.upper = (clean l).map (List.map Line.upper) := by
  have hend : l.upper.isProgramEnd = l.isProgramEnd := rfl
  unfold clean
  rw [strip_upper, hend]
  split
  · cases strip l with
    | none => rfl
    | some t =>
      dsimp only [Option.map_some, Line.upper]
      rw [Line.readAt_upper]
      cases (Line.readAt l.index t : Except LineFault (Line α)) <;> rfl
  · rfl

theorem cleanAll_cons_eq (l : Line α) (ls : List (Line α)) :
    cleanAll (l :: ls) = (clean l).bind fun rs ↦ (cleanAll ls).map (rs ++ ·) := by
  rw [cleanAll, cleanAll, List.mapM_cons]
  cases clean l with
  | error _ => rfl
  | ok rs => cases ls.mapM clean <;> rfl

theorem cleanAll_upper (ls : List (Line α)) :
    cleanAll (ls.map Line.upper) = (cleanAll ls).map (List.map Line.upper) := by
  induction ls with
  | nil => rfl
  | cons l ls ih =>
    rw [List.map_cons, cleanAll_cons_eq, cleanAll_cons_eq, clean_upper, ih]
    cases clean l with
    | error _ => rfl
    | ok rs =>
      cases cleanAll ls with
      | error _ => rfl
      | ok ks => exact congrArg Except.ok List.map_append.symm

end Ending

theorem Segment.ofProgram_upper (p : Text) :
    (ofProgram (upper p) : Except LineFault (List (Segment α))) =
      (ofProgram p).map (List.map (Segment.map Line.upper)) := by
  rw [ofProgram, ofProgram, Line.readAll_upper]
  cases (Line.readAll p : Except LineFault (List (Line α))) with
  | error _ => rfl
  | ok ls =>
    change (Ending.cleanAll (ls.map Line.upper)).bind (fun rs ↦ .ok (split rs)) =
      ((Ending.cleanAll ls).bind fun rs ↦ .ok (split rs)).map _
    rw [Ending.cleanAll_upper]
    cases Ending.cleanAll ls with
    | error _ => rfl
    | ok rs => exact congrArg Except.ok (split_map fun _ _ ↦ rfl)

/-- In capitals lines fall into the same phases. -/
theorem Phases.ofLines_upper (ls : List (Line α)) :
    ofLines (ls.map Line.upper) = (ofLines ls).map (Phases.map Line.upper) := by
  rw [ofLines, ofLines, Ending.cleanAll_upper]
  cases Ending.cleanAll ls with
  | error _ => rfl
  | ok rs => exact congrArg Except.ok (split_map (g := Line.upper) (fun _ ↦ rfl) (fun _ ↦ rfl) rs)

omit [Coordinate α] in
theorem Line.echoes_upper (l : Line α) : l.Echoes l.upper := ⟨rfl, fun _ _ ↦ rfl⟩

theorem Survey.ofProgram_upper {α : Type} [Circular α] (p : Text) :
    (ofProgram (upper p) : Except LineFault (Survey α)) = ofProgram p := by
  rw [ofProgram, ofProgram, Line.readAll_upper]
  cases (Line.readAll p : Except LineFault (List (Line α))) with
  | error _ => rfl
  | ok ls => exact congrArg Except.ok (run_map Line.echoes_upper ls)

end StepAndRepeat
