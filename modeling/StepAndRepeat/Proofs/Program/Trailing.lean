import StepAndRepeat.Proofs.Program.Reading

namespace StepAndRepeat

open Text

namespace Text

theorem not_isLetter_of_isBlank {c : Char} (h : isBlank c = true) : isLetter c = false := by
  have hd : ∀ b ∈ blankRanges, ∀ l ∈ letterRanges, b.2 < l.1 ∨ l.2 < b.1 := by decide
  obtain ⟨b, hb, hc⟩ := List.any_eq_true.1 h
  refine List.any_eq_false.2 fun l hl ↦ ?_
  simp only [Bool.and_eq_true, decide_eq_true_eq] at hc ⊢
  rcases hd b hb l hl with h | h <;> omega

theorem not_isDigit_of_isBlank {c : Char} (h : isBlank c = true) : isDigit c = false := by
  have hd : ∀ b ∈ blankRanges, ∀ z ∈ zeros, b.2 < z ∨ z + 10 ≤ b.1 := by decide
  obtain ⟨b, hb, hc⟩ := List.any_eq_true.1 h
  rw [isDigit_eq_any]
  refine List.any_eq_false.2 fun z hz ↦ ?_
  simp only [Bool.and_eq_true, decide_eq_true_eq] at hc ⊢
  rcases hd b hb z hz with h | h <;> omega

theorem isBlank_ne {c d : Char} (h : isBlank c = true) (hd : isBlank d = false) : c ≠ d := by
  rintro rfl
  simp [h] at hd

theorem exists_trimEnd_append (t : Text) :
    ∃ b, (∀ c ∈ b, isBlank c = true) ∧ t = trimEnd t ++ b := by
  induction t with
  | nil => exact ⟨[], by simp, rfl⟩
  | cons c t ih =>
    obtain ⟨b, hb, ht⟩ := ih
    rw [trimEnd] at ht
    rw [trimEnd, dropEndWhile]
    split
    next he =>
      rw [he, List.nil_append] at ht
      split
      next hc => exact ⟨c :: t, by simpa [hc, ht] using hb, rfl⟩
      next => exact ⟨b, hb, by rw [ht]; rfl⟩
    next d u he =>
      rw [he] at ht
      exact ⟨b, hb, by rw [ht]; rfl⟩

end Text

section Trailing

variable {b : Text} (hb : ∀ c ∈ b, isBlank c = true)
include hb

namespace Numeral

theorem stops_blanks (pointed : Bool) : Stops pointed b := by
  intro c hc
  have hc' := hb c (List.mem_of_mem_head? hc)
  exact ⟨not_isDigit_of_isBlank hc', fun _ ↦ isBlank_ne hc' (by decide)⟩

theorem not_begins_blanks : begins b = false := by
  cases b with
  | nil => rfl
  | cons c b =>
    have hc := hb c (by simp)
    have hp : c ≠ '+' := isBlank_ne hc (by decide)
    have hm : c ≠ '-' := isBlank_ne hc (by decide)
    have hs : isSign c = false := by simp [isSign, hp, hm]
    rw [begins, if_neg (by simp [hs])]
    exact (stops_blanks hb false).not_beginsUnsigned

theorem follows_append_blanks (t : Text) : Follows t (t ++ b) := by
  induction t with
  | nil => exact .stops (stops_blanks hb false)
  | cons c t ih => exact .cons c ih

theorem not_begins_append_blanks {t : Text} (h : begins t = false) : begins (t ++ b) = false := by
  cases t with
  | nil => exact not_begins_blanks hb
  | cons c t => exact (follows_append_blanks hb t).not_begins h

end Numeral

namespace Token

omit hb in
theorem textOf_append_other (ts : List Token) (b : Text) :
    textOf (ts ++ b.map other) = textOf ts ++ b := by
  rw [textOf, List.flatMap_append, List.flatMap_map]
  exact congrArg _ (List.flatMap_singleton' b)

theorem fits_blanks (glued : Bool) : Fits glued (b.map other) := by
  induction b generalizing glued with
  | nil => exact .nil
  | cons c b ih =>
    have hl := not_isLetter_of_isBlank (hb c (by simp))
    exact .other (fun h ↦ by simp [hl] at h) (ih (fun d hd ↦ hb d (by simp [hd])) _)

theorem Fits.append_blanks {glued : Bool} {ts : List Token} (h : Fits glued ts) :
    Fits glued (ts ++ b.map .other) := by
  induction h with
  | nil => exact fits_blanks hb _
  | other hn _ ih =>
    rw [List.cons_append]
    refine .other (fun hl hg ↦ ?_) ih
    rw [textOf_append_other]
    exact Numeral.not_begins_append_blanks hb (hn hl hg)
  | word hl hn hr _ ih =>
    rw [List.cons_append]
    refine .word hl hn ?_ ih
    rw [textOf_append_other]
    exact (Numeral.follows_append_blanks hb _).keepsStops hr

theorem ofCode_append_blanks (u : Text) : ofCode (u ++ b) = ofCode u ++ b.map other := by
  have h := scanFrom_of_fits ((fits_scanFrom false u).append_blanks hb)
  have hu : textOf (scanFrom 0 false u) = u := flatMap_text_scanFrom false u
  rw [textOf_append_other, hu] at h
  exact h

end Token

namespace Piece

variable (α : Type) [Coordinate α]

def keysOf (ps : List Piece) : List (Char × α) :=
  (ps.flatMap LinePart.ofPiece).filterMap LinePart.key?

variable {α}

omit hb in
theorem keysOf_cons (p : Piece) (ps : List Piece) :
    keysOf α (p :: ps) = keysOf α [p] ++ keysOf α ps := by
  rw [keysOf, List.flatMap_cons, List.filterMap_append, keysOf, List.flatMap_singleton]
  rfl

omit hb in
theorem keysOf_comment (t : Text) (ps : List Piece) :
    keysOf α (comment t :: ps) = keysOf α ps := rfl

theorem keysOf_code_append_blanks (u : Text) : keysOf α [code (u ++ b)] = keysOf α [code u] := by
  have hn : (b.map fun c ↦ LinePart.token (.other c)).filterMap (LinePart.key? (α := α)) = [] := by
    rw [List.filterMap_eq_nil_iff]
    intro p hp
    obtain ⟨c, -, rfl⟩ := List.mem_map.1 hp
    rfl
  simp only [keysOf, List.flatMap_singleton, LinePart.ofPiece, Token.ofCode_append_blanks hb,
    List.map_append, List.map_map, List.filterMap_append]
  exact (congrArg _ hn).trans (List.append_nil _)

theorem plain_blanks (t : Text) : Plain b t :=
  plain_of_marks (fun c hc ↦ ⟨isBlank_ne (hb c hc) (by decide),
    isBlank_ne (hb c hc) (by decide)⟩) t

/-- Blanks at the end of a line without line feeds belong to its last piece, or are a piece. -/
theorem Parted.append_blanks {ps : List Piece} (h : Parted ps) (hn : '\n' ∉ ps.flatMap text ++ b) :
    ∃ qs, Parted qs ∧ qs.flatMap text = ps.flatMap text ++ b ∧ keysOf α qs = keysOf α ps ∧
      (ps ≠ [] → qs.head?.map isCode = ps.head?.map isCode) := by
  have hparen : ')' ∉ b := fun h ↦ absurd (hb _ h) (by decide)
  -- the first piece stays what it is, so code still comes before a comment
  induction h with
  | nil =>
    cases b with
    | nil => exact ⟨[], .nil, rfl, rfl, by simp⟩
    | cons c b =>
      refine ⟨[.code (c :: b)], .code (by simp) (plain_blanks hb []) (by simp) .nil, ?_, ?_, by simp⟩
      · simp [text]
      · exact keysOf_code_append_blanks hb []
  | @code u ps hu hp hh hps ih =>
    have hn' : '\n' ∉ u ++ (ps.flatMap text ++ b) := by
      rwa [← List.append_assoc]
    have hm := hp.marks fun h ↦ hn (List.mem_append_left _ h)
    cases ps with
    | nil =>
      refine ⟨[.code (u ++ b)], .code (by simp [hu]) ?_ (by simp) .nil, ?_, ?_, fun _ ↦ rfl⟩
      · exact plain_append.2 ⟨plain_of_marks hm _, plain_blanks hb _⟩
      · simp [text]
      · exact keysOf_code_append_blanks hb u
    | cons p ps =>
      obtain ⟨qs, hqs, ht, hk, hhead⟩ := ih fun h ↦ hn' (List.mem_append_right _ h)
      refine ⟨.code u :: qs, .code hu (plain_of_marks hm _) ?_ hqs, ?_, ?_, fun _ ↦ rfl⟩
      · intro q hq
        have he := hhead (by simp)
        rw [Option.mem_def.1 hq] at he
        exact (Option.some_inj.1 he).trans (hh p (by simp))
      · rw [List.flatMap_cons, ht, ← List.append_assoc, ← List.flatMap_cons]
      · rw [keysOf_cons, hk, ← keysOf_cons]
  | @closed v ps hv hps ih =>
    rw [List.flatMap_cons, List.append_assoc] at hn
    obtain ⟨qs, hqs, ht, hk, -⟩ := ih fun h ↦ hn (List.mem_append_right _ h)
    refine ⟨comment ('(' :: (v ++ [')'])) :: qs, .closed hv hqs, ?_, ?_, by simp⟩
    · rw [List.flatMap_cons, ht, List.flatMap_cons, List.append_assoc]
    · rw [keysOf_comment, keysOf_comment, hk]
  | @opened v hv =>
    refine ⟨[comment ('(' :: (v ++ b))], .opened ?_, by simp [text], rfl, fun _ ↦ rfl⟩
    simp [hv, hparen]
  | @trailing v hv =>
    refine ⟨[comment (';' :: (v ++ b))], .trailing ?_, by simp [text], rfl, fun _ ↦ rfl⟩
    intro h
    exact hn (by simpa [text] using h)
  | broken => simp [text] at hn

omit hb in
/-- Blanks at the end of a line say nothing. -/
theorem keysOf_trimEnd {t : Text} (hn : '\n' ∉ t) :
    keysOf α (ofLine (trimEnd t)) = keysOf α (ofLine t) := by
  obtain ⟨b, hb, ht⟩ := exists_trimEnd_append t
  have hn' : '\n' ∉ (ofLine (trimEnd t)).flatMap text ++ b := by
    rwa [flatMap_text_ofLine, ← ht]
  obtain ⟨qs, hqs, hqt, hk, -⟩ := (parted_ofLine (trimEnd t)).append_blanks (α := α) hb hn'
  rw [flatMap_text_ofLine, ← ht] at hqt
  rw [← hk, ← ofLine_of_parted hqs, hqt]

end Piece

end Trailing

end StepAndRepeat
