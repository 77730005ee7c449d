import StepAndRepeat.Proofs.Program.Trailing
import StepAndRepeat.Proofs.Program.Words
import StepAndRepeat.View.Highlight

namespace StepAndRepeat

open Text

namespace Piece

def stretch (u : Text) : List Piece := if u = [] then [] else [code u]

variable {s b u r : Text}

theorem mem_stretch (h : code u ∈ stretch s) : u = s := by
  unfold stretch at h
  split at h
  · simp at h
  · simpa using h

theorem split_append_of_marks (hu : ∀ c ∈ u, c ≠ '(' ∧ c ≠ ';')
    (hr : ∀ p ∈ (split false r).head?, p.isCode = false) :
    split false (u ++ r) = stretch u ++ split false r := by
  unfold stretch
  split
  next he => rw [he, List.nil_append, List.nil_append]
  next hne => rw [split_code (plain_of_marks hu r) hne hr, List.singleton_append]

theorem ofLine_of_marks (hu : ∀ c ∈ u, c ≠ '(' ∧ c ≠ ';') : ofLine u = stretch u := by
  have h := split_append_of_marks (r := []) hu (by simp [split])
  rwa [List.append_nil, split, List.append_nil] at h

theorem ofLine_enclosed (hs : ∀ c ∈ s, c ≠ '(' ∧ c ≠ ';') (hb : ')' ∉ b)
    (hu : ∀ c ∈ u, c ≠ '(' ∧ c ≠ ';') : ofLine (s ++ '(' :: (b ++ ')' :: u)) =
      stretch s ++ comment ('(' :: (b ++ [')'])) :: stretch u := by
  have hcomment : split false ('(' :: (b ++ ')' :: u)) =
      comment ('(' :: (b ++ [')'])) :: stretch u := by
    rw [split, if_pos rfl, split_closed hb, consComment, ← ofLine_of_marks hu]
    rfl
  rw [ofLine, split_append_of_marks hs (by simp [hcomment, isCode, isComment]), hcomment]

end Piece

namespace Label

variable {t v b : Text}

theorem eq_of_inner? (h : inner? v = some b) : v = '(' :: (b ++ [')']) := by
  unfold inner? at h
  split at h
  next t =>
    split at h
    next hlast =>
      cases h
      rw [List.dropLast_append_getLast? _ hlast]
    next => cases h
  next => cases h

theorem exists_enclosed (h : isLabel t = true) : ∃ s b u,
    (∀ c ∈ s, isBlank c = true) ∧ ')' ∉ b ∧ (∀ c ∈ u, isBlank c = true) ∧
      trim t = '(' :: (b ++ [')']) ∧ t = s ++ '(' :: (b ++ ')' :: u) := by
  unfold isLabel at h
  dsimp only at h
  split at h
  next => cases h
  next b hb =>
    simp only [Bool.and_eq_true, List.all_eq_true] at h
    obtain ⟨s, u, hs, hu, ht⟩ := exists_trim_append t
    rw [eq_of_inner? hb] at ht
    refine ⟨s, b, u, hs, fun hmem ↦ ?_, hu, eq_of_inner? hb, by simpa using ht⟩
    obtain ⟨s', u', hs', hu', hb'⟩ := exists_trim_append b
    rw [hb', List.mem_append, List.mem_append] at hmem
    rcases hmem with hmem | hmem | hmem
    · exact absurd (hs' _ hmem) (by decide)
    · exact absurd (h.2 _ hmem) (by decide)
    · exact absurd (hu' _ hmem) (by decide)

end Label

namespace Word

variable {α : Type} [Coordinate α] {t : Text}

def reach (w : Word α) : Nat × Nat := (w.start, w.stop)

theorem start_le_stop {w : Word α} (h : w ∈ ofLine t) : w.start ≤ w.stop := by
  obtain ⟨l, _, n, -, -, hw⟩ := mem_ofLine_iff.1 h
  rw [hw]
  change w.start ≤ w.start + 1 + n.length
  omega

theorem ofLine_eq_nil (h : ∀ u, Piece.code u ∈ Piece.ofLine t → ∀ c ∈ u, isBlank c = true) :
    (ofLine t : List (Word α)) = [] := by
  refine List.eq_nil_iff_forall_not_mem.2 fun w hw ↦ ?_
  obtain ⟨l, rest, _, ⟨before, ahead, after, hps, -, hl, -⟩, -⟩ := mem_ofLine_iff.1 hw
  have hpiece : Piece.code (ahead ++ l :: rest) ∈ Piece.ofLine t := by simp [hps]
  have hblank : isBlank l = true := h _ hpiece l (by simp)
  rw [not_isLetter_of_isBlank hblank] at hl
  cases hl

theorem marks_of_blanks {s : Text} (hs : ∀ c ∈ s, isBlank c = true) : ∀ c ∈ s, c ≠ '(' ∧ c ≠ ';' :=
  fun c hc ↦ ⟨isBlank_ne (hs c hc) (by decide), isBlank_ne (hs c hc) (by decide)⟩

theorem ofLine_of_blank (h : Line.kindOf t = .blank) : (ofLine t : List (Word α)) = [] := by
  have ht : trim t = [] := by
    unfold Line.kindOf at h
    split at h
    next ht => exact ht
    next => split at h <;> cases h
  obtain ⟨s, u, hs, hu, he⟩ := exists_trim_append t
  rw [ht, List.nil_append] at he
  have hblank : ∀ c ∈ t, isBlank c = true := by
    rw [he]
    exact fun c hc ↦ (List.mem_append.1 hc).elim (hs c) (hu c)
  refine ofLine_eq_nil fun v hv ↦ ?_
  rw [Piece.ofLine_of_marks (marks_of_blanks hblank)] at hv
  rwa [Piece.mem_stretch hv]

theorem ofLine_of_isLabel (h : Label.isLabel t = true) :
    Line.kindOf t = .comment ∧ (ofLine t : List (Word α)) = [] := by
  obtain ⟨s, b, u, hs, hb, hu, htrim, ht⟩ := Label.exists_enclosed h
  refine ⟨by rw [Line.kindOf, htrim]; rfl, ofLine_eq_nil fun v hv ↦ ?_⟩
  rw [ht, Piece.ofLine_enclosed (marks_of_blanks hs) hb (marks_of_blanks hu)] at hv
  simp only [List.mem_append, List.mem_cons, reduceCtorEq, false_or] at hv
  rcases hv with hv | hv
  · rwa [Piece.mem_stretch hv]
  · rwa [Piece.mem_stretch hv]

end Word

namespace Highlight

def isWord (s : StyledSpan) : Bool := s.style ≠ comment && s.style ≠ label

def reach (s : StyledSpan) : Nat × Nat := (s.start, s.start + s.length)

variable {α : Type} [Coordinate α] {t : Text} {place : Nat} {ps : List Piece} {s : StyledSpan}

theorem isWord_wordSpan (w : Word α) : isWord (wordSpan w) = true := by
  have hstyle : wordStyle w ≠ comment ∧ wordStyle w ≠ label := by
    unfold wordStyle preparatoryStyle miscellaneousStyle
    dsimp only
    repeat' split
    all_goals decide
  exact Bool.and_eq_true_iff.2 ⟨decide_eq_true hstyle.1, decide_eq_true hstyle.2⟩

theorem filter_pieceSpans (place : Nat) (ps : List Piece) :
    (pieceSpans α place ps).filter isWord = ((Piece.chunks place ps).flatMap fun (place, u) ↦
      (Word.ofTokens place (Token.ofCode u) : List (Word α))).map wordSpan := by
  induction ps generalizing place with
  | nil => rfl
  | cons p ps ih =>
    cases p with
    | comment u => exact ih _
    | code u =>
      have hwords : ((Word.ofTokens place (Token.ofCode u) : List (Word α)).map wordSpan).filter
          isWord = (Word.ofTokens place (Token.ofCode u) : List (Word α)).map wordSpan :=
        List.filter_eq_self.2 fun s hs ↦ by
          obtain ⟨w, -, rfl⟩ := List.mem_map.1 hs
          exact isWord_wordSpan w
      rw [pieceSpans, List.filter_append, hwords, ih, Piece.chunks, List.flatMap_cons,
        List.map_append]

theorem mem_pieceSpans (hs : s ∈ pieceSpans α place ps) (hw : isWord s = false) :
    ∃ before u after, ps = before ++ .comment u :: after ∧
      s = ⟨place + (before.flatMap Piece.text).length, u.length, comment⟩ := by
  induction ps generalizing place with
  | nil => cases hs
  | cons p ps ih =>
    have htail (hs : s ∈ pieceSpans α (place + p.text.length) ps) : ∃ before u after,
        p :: ps = before ++ .comment u :: after ∧
          s = ⟨place + (before.flatMap Piece.text).length, u.length, comment⟩ := by
      obtain ⟨before, u, after, rfl, rfl⟩ := ih hs
      exact ⟨p :: before, u, after, rfl, by simp [Nat.add_assoc]⟩
    cases p with
    | comment v =>
      rcases List.mem_cons.1 hs with rfl | hs
      · exact ⟨[], v, ps, rfl, rfl⟩
      · exact htail hs
    | code v =>
      rcases List.mem_append.1 hs with hs | hs
      · obtain ⟨w, -, rfl⟩ := List.mem_map.1 hs
        rw [isWord_wordSpan] at hw
        cases hw
      · exact htail hs

variable (α)

def wordSpans (t : Text) : List StyledSpan := (spans α t).filter isWord

/-- The words that stand in the code of a line are highlighted, each at its place. -/
theorem wordSpans_eq (t : Text) :
    wordSpans α t = (Word.ofLine t : List (Word α)).map wordSpan := by
  unfold wordSpans spans
  split
  next h =>
    rw [(Word.ofLine_of_isLabel h).2]
    rfl
  next => exact filter_pieceSpans 0 (Piece.ofLine t)

theorem reach_wordSpans (t : Text) :
    (wordSpans α t).map reach = (Word.ofLine t : List (Word α)).map Word.reach := by
  rw [wordSpans_eq, List.map_map]
  refine List.map_congr_left fun w hw ↦ ?_
  change (w.start, w.start + (w.stop - w.start)) = (w.start, w.stop)
  rw [Nat.add_sub_cancel' (Word.start_le_stop hw)]

variable {α}

/-- On a line of code, or a blank one, the words that are highlighted are those that the line is
read as. On a comment line, which is read as none, they are those that stand outside its comments.
What else is highlighted is the comments, or all of a comment line that is a label. -/
theorem reach_wordSpans_of_read {l : Line α} (h : Line.read t = .ok l) :
    (l.kind ≠ .comment → (wordSpans α t).map reach = l.words.map Word.reach) ∧
      (l.kind = .comment → l.words = [] ∧
        (wordSpans α t).map reach = (Word.ofLine t : List (Word α)).map Word.reach) ∧
      ∀ s ∈ spans α t, isWord s = false →
        (∃ before u after, Piece.ofLine t = before ++ .comment u :: after ∧
          s = ⟨(before.flatMap Piece.text).length, u.length, comment⟩) ∨
        (l.kind = .comment ∧ wordSpans α t = [] ∧ s = ⟨0, t.length, label⟩) := by
  obtain ⟨-, -, hkind, hwords⟩ := Line.readAt_fields h
  refine ⟨fun hk ↦ ?_, fun hk ↦ ⟨?_, reach_wordSpans α t⟩, fun s hs hw ↦ ?_⟩
  · rw [reach_wordSpans, hwords]
    split
    next => rfl
    next hcode =>
      have hblank : Line.kindOf t = .blank := by
        rw [hkind] at hk
        cases hkt : Line.kindOf t <;> simp_all
      rw [Word.ofLine_of_blank hblank]
  · rw [hwords, if_neg]
    rw [← hkind, hk]
    decide
  · unfold spans at hs
    split at hs
    next hl =>
      obtain ⟨hcomment, hnil⟩ := Word.ofLine_of_isLabel (α := α) hl
      refine .inr ⟨hkind.trans hcomment, ?_, List.mem_singleton.1 hs⟩
      rw [wordSpans_eq, hnil]
      rfl
    next =>
      obtain ⟨before, u, after, hps, rfl⟩ := mem_pieceSpans hs hw
      exact .inl ⟨before, u, after, hps, by rw [Nat.zero_add]⟩

def remarked : Text := "G1 (cut) X5;Y6".toList

theorem reach_wordSpans_of_read_remarked : ∃ l : Line Float, Line.read remarked = .ok l ∧
    l.kind = .code ∧ (wordSpans Float remarked).map reach = l.words.map Word.reach ∧
      l.words.map Word.reach = [(0, 2), (9, 11)] := by
  obtain ⟨l, hl, htest⟩ := Ending.exists_of_readsLine (t := remarked)
    (p := fun l ↦ l.kind = .code && l.words.map Word.reach = [(0, 2), (9, 11)]) (by decide +kernel)
  simp only [Bool.and_eq_true, decide_eq_true_eq] at htest
  obtain ⟨hwords, -, -⟩ := reach_wordSpans_of_read hl
  exact ⟨l, hl, htest.1, hwords (by rw [htest.1]; decide), htest.2⟩

def AlwaysAsRead (α : Type) [Coordinate α] : Prop := ∀ (t : Text) (l : Line α), Unbroken t →
  Line.read t = .ok l → (wordSpans α t).map reach = l.words.map Word.reach

/-- Behind the comment at the beginning of `(a) G1 X5` two words are highlighted. None is read. -/
theorem not_alwaysAsRead : ¬ AlwaysAsRead Float := by
  intro h
  have hread : Line.read "(a) G1 X5".toList =
      .ok (⟨0, "(a) G1 X5".toList, .comment, [], none⟩ : Line Float) := rfl
  have hnone := h _ _ (by decide) hread
  have htwo : (Word.ofLine "(a) G1 X5".toList : List (Word Float)).map Word.reach =
      [(4, 6), (7, 9)] := by decide +kernel
  rw [reach_wordSpans, htwo] at hnone
  cases hnone

end Highlight

end StepAndRepeat
