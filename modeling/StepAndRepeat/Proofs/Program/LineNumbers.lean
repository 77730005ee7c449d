import StepAndRepeat.Program.Segment
import StepAndRepeat.Proofs.Program.Cleaning
import StepAndRepeat.Proofs.Program.Trailing
import StepAndRepeat.Proofs.Text.Trimming

namespace StepAndRepeat

open Text

variable {α : Type} [Coordinate α]

namespace Word

/-- The words among the parts of a line of which the first stands at a given place. -/
def ofParts (place : Nat) : List LinePart → List (Word α)
  | [] => []
  | .comment t :: ps => ofParts (place + t.length) ps
  | .token (.other _) :: ps => ofParts (place + 1) ps
  | .token (.word l n) :: ps =>
    ⟨capital l, Coordinate.ofNumeral (.ofText n), place, place + 1 + n.length⟩ ::
      ofParts (place + 1 + n.length) ps

theorem ofParts_tokens (place : Nat) (ts : List Token) (ps : List LinePart) :
    (ofParts place (ts.map .token ++ ps) : List (Word α)) =
      ofTokens place ts ++ ofParts (place + (Token.textOf ts).length) ps := by
  induction ts generalizing place with
  | nil => rfl
  | cons k ts ih =>
    cases k with
    | other c =>
      rw [List.map_cons, List.cons_append, ofParts, ih, ofTokens, Token.textOf_other,
        List.length_cons, Nat.add_assoc, Nat.add_comm 1]
    | word l n =>
      have hlen : place + (Token.textOf (.word l n :: ts)).length =
          place + 1 + n.length + (Token.textOf ts).length := by
        rw [Token.textOf_word, List.length_cons, List.length_append]
        omega
      rw [List.map_cons, List.cons_append, ofParts, ih, ofTokens, hlen]
      rfl

theorem ofLine_eq_ofParts (t : Text) :
    (ofLine t : List (Word α)) = ofParts 0 (LinePart.ofLine t) := by
  rw [ofLine, LinePart.ofLine]
  generalize Piece.ofLine t = ps
  generalize 0 = place
  induction ps generalizing place with
  | nil => rfl
  | cons p ps ih =>
    cases p with
    | comment u =>
      rw [Piece.chunks, ih, List.flatMap_cons]
      rfl
    | code u =>
      rw [Piece.chunks, List.flatMap_cons, ih, List.flatMap_cons, LinePart.ofPiece,
        ofParts_tokens, Piece.textOf_ofCode]

def shift (k : Nat) (w : Word α) : Word α :=
  { w with
    start := w.start + k
    stop := w.stop + k }

theorem ofParts_add (place k : Nat) (ps : List LinePart) :
    (ofParts (place + k) ps : List (Word α)) = (ofParts place ps).map (shift k) := by
  induction ps generalizing place with
  | nil => rfl
  | cons p ps ih =>
    cases p with
    | comment t => rw [ofParts, ofParts, Nat.add_right_comm, ih]
    | token q =>
      cases q with
      | other c => rw [ofParts, ofParts, Nat.add_right_comm, ih]
      | word l n =>
        have hstop : place + k + 1 + n.length = place + 1 + n.length + k := by omega
        rw [ofParts, ofParts, hstop, ih]
        rfl

def isLoneTool : List (Word α) → Bool
  | [w] => w.letter = 'T'
  | _ => false

end Word

namespace Piece

theorem split_append_code {u t v : Text} {ps : List Piece}
    (hu : ∀ c ∈ u, c ≠ '(' ∧ c ≠ ';') (h : split false t = code v :: ps) :
    split false (u ++ t) = code (u ++ v) :: ps := by
  induction u with
  | nil => exact h
  | cons c u ih =>
    obtain ⟨hopen, hsemi⟩ := hu c (by simp)
    rw [List.cons_append, split, if_neg hopen, if_neg fun he ↦ hsemi he.1,
      ih fun d hd ↦ hu d (by simp [hd])]
    rfl

end Piece

theorem Line.readAt_of_code {t : Text} (h : kindOf t = .code) (i : Nat) :
    (readAt i t : Except LineFault (Line α)) =
      (toolOf (Word.ofLine t : List (Word α))).map
        fun tool ↦ ⟨i, t, .code, Word.ofLine t, tool⟩ := by
  unfold readAt
  rw [h]

/-- A line number as it is written: digits behind the letter, and a blank. -/
structure LineNumber where
  digits : Text
  gap : Char
  digits_ne_nil : digits ≠ []
  isDigit_of_mem : ∀ d ∈ digits, isDigit d = true
  isBlank_gap : isBlank gap = true

namespace LineNumber

variable (n : LineNumber)

def text : Text := 'N' :: (n.digits ++ [n.gap])

def write (t : Text) : Text := n.text ++ t

def tokens : List Token := [.word 'N' n.digits, .other n.gap]

def word : Word α := ⟨'N', Coordinate.ofNumeral (.ofText n.digits), 0, 1 + n.digits.length⟩

/-- The line with the number in front, its words so much further on. A tool word is alone no more. -/
def stamp (l : Line α) : Line α :=
  { l with
    text := n.write l.text
    words := n.word :: l.words.map (Word.shift n.text.length)
    tool := if Word.isLoneTool l.words then none else l.tool }

section Parts

theorem no_mark {c : Char} (h : c ∈ n.text) : c ≠ '(' ∧ c ≠ ';' := by
  have hdigits : ∀ d ∈ n.digits, d ≠ '(' ∧ d ≠ ';' := by
    intro d hd
    have hdigit := n.isDigit_of_mem d hd
    constructor <;> rintro rfl <;> exact absurd hdigit (by decide)
  rw [text, List.mem_cons, List.mem_append, List.mem_singleton] at h
  rcases h with rfl | h | rfl
  · decide
  · exact hdigits c h
  · exact ⟨isBlank_ne n.isBlank_gap (by decide), isBlank_ne n.isBlank_gap (by decide)⟩

theorem ofCode_append (u : Text) : Token.ofCode (n.text ++ u) = n.tokens ++ Token.ofCode u := by
  have hgap : isLetter n.gap = false := not_isLetter_of_isBlank n.isBlank_gap
  have hshape : Numeral.Shape n.digits false :=
    .unsigned (.whole n.digits_ne_nil n.isDigit_of_mem)
  have hrest : Token.Fits false (.other n.gap :: Token.ofCode u) := by
    refine .other (fun h ↦ by simp [hgap] at h) ?_
    rw [hgap]
    exact Token.fits_scanFrom false u
  have hstops : Numeral.Stops false (Token.textOf (.other n.gap :: Token.ofCode u)) := by
    rintro c ⟨⟩
    exact ⟨not_isDigit_of_isBlank n.isBlank_gap, fun _ ↦ isBlank_ne n.isBlank_gap (by decide)⟩
  have hfits : Token.Fits false (.word 'N' n.digits :: .other n.gap :: Token.ofCode u) :=
    .word (by decide) hshape hstops hrest
  have hscan := Token.scanFrom_of_fits hfits
  rw [Token.textOf_word, Token.textOf_other, Piece.textOf_ofCode] at hscan
  rw [text, List.cons_append, List.append_assoc]
  exact hscan

theorem ofLine_write (t : Text) :
    LinePart.ofLine (n.write t) = n.tokens.map .token ++ LinePart.ofLine t := by
  have hplain := Piece.plain_of_marks (fun _ hc ↦ n.no_mark hc) t
  have hnumber : Token.ofCode n.text = n.tokens := by
    have happend := n.ofCode_append []
    rwa [List.append_nil] at happend
  have hsplit (h : ∀ p ∈ (Piece.split false t).head?, p.isCode = false) :
      LinePart.ofLine (n.write t) = n.tokens.map .token ++ LinePart.ofLine t := by
    rw [LinePart.ofLine, Piece.ofLine, write, Piece.split_code hplain (by simp [text]) h,
      List.flatMap_cons, LinePart.ofPiece, hnumber]
    rfl
  -- the number is code of its own unless the line begins with code, which it then joins
  cases hps : Piece.split false t with
  | nil => exact hsplit (by simp [hps])
  | cons p ps =>
    cases p with
    | comment v => exact hsplit (by simp [hps, Piece.isCode, Piece.isComment])
    | code v =>
      rw [LinePart.ofLine, LinePart.ofLine, Piece.ofLine, Piece.ofLine, write,
        Piece.split_append_code (fun _ hc ↦ n.no_mark hc) hps, hps, List.flatMap_cons,
        List.flatMap_cons, LinePart.ofPiece, LinePart.ofPiece, ofCode_append, List.map_append,
        List.append_assoc]

theorem words_write (t : Text) :
    (Word.ofLine (n.write t) : List (Word α)) =
      n.word :: (Word.ofLine t).map (Word.shift n.text.length) := by
  have hlen : 0 + (Token.textOf n.tokens).length = 0 + n.text.length := by
    rw [tokens, Token.textOf_word, Token.textOf_other, Token.textOf_nil, text]
  rw [Word.ofLine_eq_ofParts, ofLine_write, Word.ofParts_tokens, hlen, Word.ofParts_add,
    ← Word.ofLine_eq_ofParts, tokens, Word.ofTokens, Nat.zero_add]
  rfl

theorem kindOf_write (t : Text) : Line.kindOf (n.write t) = .code := by
  rw [Line.kindOf_eq, write, text, List.cons_append, List.find?_cons_of_pos (by decide)]
  rfl

end Parts

section Read

theorem toolOf_write (k : Nat) (ws : List (Word α)) :
    Line.toolOf (n.word :: ws.map (Word.shift k)) =
      if Word.isLoneTool ws then .ok none else Line.toolOf ws := by
  have hfind : (n.word :: ws.map (Word.shift k)).find? (·.letter = 'T') =
      (ws.find? (·.letter = 'T')).map (Word.shift k) := by
    rw [List.find?_cons_of_neg (by simp [word]), List.find?_map]
    rfl
  have hany : (n.word :: ws.map (Word.shift k)).any (·.isCode 'M' 6) =
      ws.any (·.isCode 'M' 6) := by
    rw [List.any_cons, List.any_map]
    rfl
  unfold Line.toolOf
  rw [hfind, hany, List.length_cons, List.length_map]
  -- how many words there are decides only for a single one, which then has the number beside it
  match ws with
  | [] => rfl
  | [w] =>
    cases hw : decide (w.letter = 'T') with
    | true =>
      have hm : w.isCode 'M' 6 = false := by
        simp [Word.isCode, of_decide_eq_true hw]
      simp [Word.isLoneTool, hw, hm]
    | false => simp [Word.isLoneTool, hw]
  | w :: v :: ws =>
    cases (w :: v :: ws).find? (·.letter = 'T') with
    | none => rfl
    | some t => simp [Word.isLoneTool, Word.shift]

theorem readAt_write {t : Text} (hk : Line.kindOf t = .code) {i : Nat} {l : Line α}
    (h : Line.readAt i t = .ok l) : Line.readAt i (n.write t) = .ok (n.stamp l) := by
  rw [Line.readAt_of_code hk] at h
  rw [Line.readAt_of_code (n.kindOf_write t), words_write, toolOf_write]
  cases htool : Line.toolOf (Word.ofLine t : List (Word α)) with
  | error f => simp [htool, Except.map] at h
  | ok tool =>
    rw [htool] at h
    rw [← Except.ok.inj h, stamp]
    dsimp only
    split <;> rfl

end Read

section Clean

theorem mem_withoutEnds {ps : List LinePart} {p : LinePart} {c : Char} (hp : p ∈ ps)
    (he : Ending.isEnd α p = false) (hc : c ∈ p.text) (hgap : c ≠ ' ' ∧ c ≠ '\t') :
    c ∈ Ending.withoutEnds α ps := by
  induction ps with
  | nil => simp at hp
  | cons q ps ih =>
    rw [Ending.withoutEnds]
    rcases List.mem_cons.1 hp with rfl | hp
    · rw [he]
      exact List.mem_append_left _ hc
    · have hrest := ih hp
      split
      · rw [← List.takeWhile_append_dropWhile (p := fun c ↦ c = ' ' || c = '\t')
          (l := Ending.withoutEnds α ps), List.mem_append] at hrest
        refine hrest.resolve_left fun h ↦ ?_
        have := List.mem_takeWhile_imp h
        simp [hgap] at this
      · exact List.mem_append_right _ hrest

theorem trimEnd_withoutEnds_ne_nil {t : Text} {w : Word α} (hw : w ∈ Word.ofLine t)
    (he : w.isProgramEnd = false) :
    trimEnd (Ending.withoutEnds α (LinePart.ofLine t)) ≠ [] := by
  have hkey : w.key ∈ (LinePart.ofLine t).filterMap LinePart.key? := by
    rw [← Word.map_key_ofLine]
    exact List.mem_map_of_mem hw
  obtain ⟨p, hp, hpw⟩ := List.mem_filterMap.1 hkey
  match p with
  | .comment _ => cases hpw
  | .token (.other _) => cases hpw
  | .token (.word c m) =>
    have hletter : isLetter c = true := by
      obtain ⟨q, -, hq⟩ := List.mem_flatMap.1 hp
      cases q with
      | comment _ => simp [LinePart.ofPiece] at hq
      | code u =>
        have hword : Token.word c m ∈ Token.ofCode u := by simpa [LinePart.ofPiece] using hq
        exact (Token.fits_scanFrom false u).isLetter_of_mem hword
    have hend : Ending.isEnd α (.token (.word c m)) = false := by
      obtain ⟨hl, hv⟩ := Prod.mk.inj (Option.some_inj.1 hpw)
      rw [Ending.isEnd, hl, hv]
      exact he
    have hmem : c ∈ Ending.withoutEnds α (LinePart.ofLine t) :=
      mem_withoutEnds hp hend (by simp [LinePart.text, Token.text])
        ⟨isLetter_ne hletter (by decide), isLetter_ne hletter (by decide)⟩
    intro h
    have hblank := trimEnd_eq_nil_iff.1 h c hmem
    rw [not_isLetter_of_isBlank hblank] at hletter
    cases hletter

theorem withoutEnds_write (t : Text) :
    Ending.withoutEnds α (LinePart.ofLine (n.write t)) =
      n.text ++ Ending.withoutEnds α (LinePart.ofLine t) := by
  have hend : Ending.isEnd α (.token (.word 'N' n.digits)) = false := by
    have hcapital : capital 'N' ≠ 'M' := by decide
    simp [Ending.isEnd, Word.isProgramEnd, Word.isCode, hcapital]
  have hgap : Ending.isEnd α (.token (.other n.gap)) = false := rfl
  rw [ofLine_write, tokens, text, List.map_cons, List.map_singleton, List.cons_append,
    List.singleton_append, Ending.withoutEnds, Ending.withoutEnds, hend, hgap]
  simp [LinePart.text, Token.text]

theorem isProgramEnd_stamp (l : Line α) : (n.stamp l).isProgramEnd = l.isProgramEnd := by
  rw [Line.isProgramEnd, stamp, List.any_cons, List.any_map, Line.isProgramEnd]
  rfl

theorem strip_stamp {l : Line α} (hl : l.words = Word.ofLine l.text) :
    Ending.strip (n.stamp l) = (Ending.strip l).map n.write := by
  have hany : (n.stamp l).words.any (fun w ↦ !w.isProgramEnd && w.letter ≠ 'N') =
      l.words.any fun w ↦ !w.isProgramEnd && w.letter ≠ 'N' := by
    rw [stamp, List.any_cons, List.any_map]
    simp [word]
    rfl
  unfold Ending.strip
  rw [hany]
  split
  next h =>
    obtain ⟨w, hw, hkept⟩ := List.any_eq_true.1 h
    have he : w.isProgramEnd = false := by simpa using (Bool.and_eq_true_iff.1 hkept).1
    rw [hl] at hw
    rw [Option.map_some, stamp, withoutEnds_write,
      trimEnd_append (trimEnd_withoutEnds_ne_nil hw he)]
    rfl
  next => rfl

end Clean

section Bears

variable (α)

def left (t : Text) : Option Text :=
  let l : Line α := ⟨0, t, .code, Word.ofLine t, none⟩
  if l.isProgramEnd then Ending.strip l else some t

def IsCode (t : Text) : Prop := Line.kindOf t = .code

def HasNoLoneTool (t : Text) : Prop := Word.isLoneTool (Word.ofLine t : List (Word α)) = false

/-- A line of code that stays code when its end words are taken out. -/
def StaysCode (t : Text) : Prop := IsCode t ∧ ∀ u ∈ left α t, IsCode u

def Bears (t : Text) : Prop := StaysCode α t ∧ ∀ u ∈ left α t, HasNoLoneTool α u

instance : DecidablePred IsCode := fun t ↦ inferInstanceAs (Decidable (Line.kindOf t = .code))

instance : DecidablePred (HasNoLoneTool α) := fun t ↦
  inferInstanceAs (Decidable (Word.isLoneTool (Word.ofLine t : List (Word α)) = false))

instance : DecidablePred (StaysCode α) := fun t ↦
  inferInstanceAs (Decidable (IsCode t ∧ ∀ u ∈ left α t, IsCode u))

instance : DecidablePred (Bears α) := fun t ↦
  inferInstanceAs (Decidable (StaysCode α t ∧ ∀ u ∈ left α t, HasNoLoneTool α u))

variable {α} {t : Text} {l : Line α} {rs : List (Line α)}

theorem words_of_isCode (hl : l.IsRead) (h : IsCode l.text) : l.words = Word.ofLine l.text := by
  have hcode : Line.kindOf l.text = .code := h
  rw [(Line.readAt_fields hl).2.2.2, if_pos hcode]

theorem left_eq (hl : l.words = Word.ofLine l.text) :
    left α l.text = if l.isProgramEnd then Ending.strip l else some l.text := by
  unfold left Ending.strip Line.isProgramEnd
  rw [hl]

theorem left_of_clean (hl : l.IsRead) (hcode : IsCode l.text) (h : Ending.clean l = .ok rs) :
    ∀ r ∈ rs, r.text ∈ left α l.text ∧ r.IsRead := by
  intro r hr
  rw [left_eq (words_of_isCode hl hcode)]
  rcases Ending.clean_cases h with ⟨he, rfl⟩ | ⟨-, -, rfl⟩ | ⟨u, s, he, hs, hread, rfl⟩
  · rw [List.mem_singleton.1 hr, he]
    exact ⟨rfl, hl⟩
  · simp at hr
  · rw [List.mem_singleton.1 hr, he, if_pos rfl, hs, (Line.readAt_fields hread).2.1]
    exact ⟨rfl, Line.isRead_of_readAt hread⟩

/-- A line that stays code is cleaned with its number as without. -/
theorem clean_stamp (hl : l.IsRead) (hb : StaysCode α l.text) (h : Ending.clean l = .ok rs) :
    Ending.clean (n.stamp l) = .ok (rs.map n.stamp) := by
  have hwords := words_of_isCode hl hb.1
  have hleft := left_eq hwords
  unfold Ending.clean
  rw [n.isProgramEnd_stamp, n.strip_stamp hwords]
  rcases Ending.clean_cases h with ⟨he, rfl⟩ | ⟨he, hs, rfl⟩ | ⟨u, r, he, hs, hread, rfl⟩
  · rw [he]
    rfl
  · rw [he, if_pos rfl, hs]
    rfl
  · rw [he, if_pos rfl, hs] at hleft
    have hnumbered : Line.readAt l.index (n.write u) = .ok (n.stamp r) :=
      n.readAt_write (hb.2 u hleft) hread
    rw [he, if_pos rfl, hs]
    change (Line.readAt l.index (n.write u)).map ([·]) = _
    rw [hnumbered]
    rfl

theorem tool_of_clean (hl : l.IsRead) (hb : Bears α l.text) (h : Ending.clean l = .ok rs) :
    ∀ r ∈ rs, (n.stamp r).tool = r.tool := by
  intro r hr
  obtain ⟨hleft, hread⟩ := left_of_clean hl hb.1.1 h r hr
  have htool : Word.isLoneTool r.words = false := by
    rw [words_of_isCode hread (hb.1.2 _ hleft)]
    exact hb.2 _ hleft
  rw [stamp, htool]
  rfl

end Bears

end LineNumber

end StepAndRepeat
