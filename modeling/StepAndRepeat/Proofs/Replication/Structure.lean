import StepAndRepeat.Proofs.Replication.Output

namespace StepAndRepeat

variable {α : Type} [Coordinate α]

namespace Piece

def comments (t : Text) : List Text := ((ofLine t).filter isComment).map text

theorem comments_map {t : Text} {f : Token → Token}
    (hf : ∀ k, LinePart.token k ∈ LinePart.ofLine t → Token.Changes k (f k)) :
    comments ((LinePart.ofLine t).flatMap fun p ↦ (p.mapToken f).text) = comments t := by
  have hc : isComment ∘ mapTokens f = isComment := by
    funext p
    cases p <;> rfl
  rw [comments, comments, LinePart.pieces_map hf, List.filter_map, List.map_map, hc]
  apply List.map_congr_left
  intro p hp
  have h := (List.mem_filter.1 hp).2
  cases p with
  | comment => rfl
  | code => cases h

end Piece

namespace Line

def flags (l : Line α) : List Bool :=
  [l.isComment, l.isBlank, l.isMachineMove, l.isToolChange, l.isSpindleStart, l.isSpindleStop,
    l.isProgramEnd, l.hasAxisWord, l.hasXY, l.hasArcCenter, l.isOperationStart]

section Letters

variable {l r : Line α}

omit [Coordinate α] in
theorem map_letter_eq (l : Line α) : l.words.map Word.letter = l.keys.map Prod.fst := by
  rw [keys, List.map_map]
  rfl

omit [Coordinate α] in
theorem isSome_value? (l : Line α) (c : Char) :
    (l.value? c).isSome = (l.words.map Word.letter).any fun d ↦ decide (d = c) := by
  rw [value?, Option.isSome_map, Bool.eq_iff_iff, List.find?_isSome, List.any_map,
    List.any_eq_true]
  rfl

omit [Coordinate α] in
theorem hasAxisWord_of_letters (h : r.words.map Word.letter = l.words.map Word.letter) :
    r.hasAxisWord = l.hasAxisWord := by
  simp only [hasAxisWord, axis?, isSome_value?, h]

omit [Coordinate α] in
theorem hasXY_of_letters (h : r.words.map Word.letter = l.words.map Word.letter) :
    r.hasXY = l.hasXY := by
  simp only [hasXY, x?, y?, isSome_value?, h]

omit [Coordinate α] in
theorem hasArcCenter_of_letters (h : r.words.map Word.letter = l.words.map Word.letter) :
    r.hasArcCenter = l.hasArcCenter := by
  simp only [hasArcCenter, i?, j?, isSome_value?, h]

theorem isProgramEnd_eq (l : Line α) : l.isProgramEnd = (l.has 'M' 2 || l.has 'M' 30) := by
  rw [isProgramEnd, has, has, Bool.eq_iff_iff, Bool.or_eq_true]
  simp only [List.any_eq_true, Word.isProgramEnd, Bool.or_eq_true]
  constructor
  · rintro ⟨w, hw, h | h⟩
    · exact .inl ⟨w, hw, h⟩
    · exact .inr ⟨w, hw, h⟩
  · rintro (⟨w, hw, h⟩ | ⟨w, hw, h⟩)
    · exact ⟨w, hw, .inl h⟩
    · exact ⟨w, hw, .inr h⟩

end Letters

section Tool

theorem toolOf_eq (l : Line α) :
    toolOf l.words =
      match (l.values 'T').head? with
      | none => .ok none
      | some v =>
        if l.has 'M' 6 || l.words.length = 1 then
          match Coordinate.trunc? v with
          | some n => .ok (some n)
          | none => .error .toolNumberInfinite
        else .ok none := by
  rw [values, List.head?_map, List.head?_filter, toolOf, has]
  cases l.words.find? fun w ↦ decide (w.letter = 'T') with
  | none => rfl
  | some t => rfl

theorem toolOf_congr {l r : Line α} (ht : r.values 'T' = l.values 'T')
    (hm : r.values 'M' = l.values 'M') (hn : r.words.length = l.words.length) :
    toolOf r.words = toolOf l.words := by
  rw [toolOf_eq, toolOf_eq, ht, has_of_values hm, hn]

theorem toolOf_of_readAt {i : Nat} {t : Text} {l : Line α} (h : readAt i t = .ok l)
    (hk : l.kind = .code) : toolOf l.words = .ok l.tool := by
  obtain ⟨-, -, hkind, hwords⟩ := readAt_fields h
  have hc : kindOf t = .code := hkind.symm.trans hk
  rw [hc, if_pos rfl] at hwords
  rw [readAt, hc] at h
  dsimp only at h
  cases ht : toolOf (Word.ofLine t : List (Word α)) with
  | error e => simp [ht, Except.map] at h
  | ok tool =>
    simp only [ht, Except.map, Except.ok.injEq] at h
    rw [hwords, ht, ← h]

theorem IsRead.map_key_ofLine {l : Line α} (h : l.IsRead) (hk : l.kind = .code) :
    (Word.ofLine l.text).map Word.key = l.keys := by
  rw [keys, (readAt_fields h).2.2.2, if_pos (h.kind_eq.symm.trans hk)]

def codeAt (i : Nat) (t : Text) (tool : Option Int) : Line α := ⟨i, t, .code, Word.ofLine t, tool⟩

theorem values_codeAt (i : Nat) (t : Text) (tool : Option Int) (c : Char) :
    (codeAt i t tool : Line α).values c =
      (((LinePart.ofLine t).filterMap LinePart.key?).filter (·.1 = c)).map (·.2) := by
  rw [values_eq, keys, codeAt, Word.map_key_ofLine]

theorem readAt_of_toolOf {i : Nat} {t : Text} {tool : Option Int} (hk : kindOf t = .code)
    (ht : toolOf (codeAt i t tool : Line α).words = .ok tool) :
    readAt i t = .ok (codeAt i t tool : Line α) := by
  have ht' : toolOf (Word.ofLine t : List (Word α)) = .ok tool := ht
  rw [readAt, hk]
  dsimp only
  rw [ht']
  rfl

end Tool

end Line

namespace Offset

variable {o : Offset α}

/-- What becomes of a word when its line is shifted. -/
structure WordShifted (o : Offset α) (w v : Word α) : Prop where
  letter : v.letter = w.letter
  x : w.letter = 'X' → v.value = Coordinate.ofNumeral (.ofText (Coordinate.fixed 3 (w.value + o.x)))
  y : w.letter = 'Y' → v.value = Coordinate.ofNumeral (.ofText (Coordinate.fixed 3 (w.value + o.y)))
  rest : w.letter ≠ 'X' → w.letter ≠ 'Y' → v.value = w.value

/-- What becomes of a line when it is shifted. -/
structure LineShifted (o : Offset α) (l r : Line α) : Prop where
  kind : r.kind = .code
  comments : Piece.comments r.text = Piece.comments l.text
  words : List.Forall₂ o.WordShifted l.words r.words
  values : ∀ c, c ≠ 'X' → c ≠ 'Y' → r.values c = l.values c
  tool : r.tool = l.tool
  flags : r.flags = l.flags

theorem wordShifted_of_key {w v : Word α} (h : v.key = o.shiftKey w.key) : o.WordShifted w v := by
  have hl : v.letter = w.letter := (congrArg Prod.fst h).trans (shiftKey_fst _)
  have hv : v.value = (o.shiftKey w.key).2 := congrArg Prod.snd h
  refine ⟨hl, fun hx ↦ ?_, fun hy ↦ ?_, fun hx hy ↦ ?_⟩
  · have hd : o.of? w.key.1 = some o.x := if_pos hx
    rw [hv, shiftKey, hd]
    rfl
  · have hd : o.of? w.key.1 = some o.y := by
      rw [show w.key.1 = 'Y' from hy]
      rfl
    rw [hv, shiftKey, hd]
    rfl
  · rw [hv, shiftKey_of_ne (k := w.key) hx hy]
    rfl

theorem forall₂_words {l r : Line α} (h : r.keys = l.keys.map o.shiftKey) :
    List.Forall₂ o.WordShifted l.words r.words := by
  rw [Line.keys, Line.keys, List.map_map] at h
  have hf : List.Forall₂ Eq (l.words.map (o.shiftKey ∘ Word.key)) (r.words.map Word.key) := by
    rw [List.forall₂_eq_eq_eq, h]
  rw [List.forall₂_map_left_iff, List.forall₂_map_right_iff] at hf
  exact hf.imp fun w v hw ↦ wordShifted_of_key hw.symm

theorem letters_of_shifted {l r : Line α} (h : r.keys = l.keys.map o.shiftKey) :
    r.words.map Word.letter = l.words.map Word.letter := by
  rw [Line.map_letter_eq, Line.map_letter_eq, h, List.map_map]
  exact List.map_congr_left fun k _ ↦ shiftKey_fst k

/-- A text that says what a line says, but for X and Y words shifted, is read as the line shifted. -/
theorem exists_lineShifted {l : Line α} (hl : l.IsRead) (hk : l.kind = .code) {t : Text}
    (ht : Line.kindOf t = .code) (hc : Piece.comments t = Piece.comments l.text)
    (hw : (Word.ofLine t).map Word.key = l.keys.map o.shiftKey) (j : Nat) :
    ∃ r : Line α, Line.readAt j t = .ok r ∧ o.LineShifted l r := by
  let r : Line α := Line.codeAt j t l.tool
  have hkeys : r.keys = l.keys.map o.shiftKey := hw
  have hlet := letters_of_shifted hkeys
  have hvalues : ∀ c, c ≠ 'X' → c ≠ 'Y' → r.values c = l.values c := fun c hx hy ↦
    values_of_shifted hkeys hx hy
  have hg := hvalues 'G' (by decide) (by decide)
  have hm := hvalues 'M' (by decide) (by decide)
  have htool : Line.toolOf r.words = .ok l.tool := by
    have hn : r.words.length = l.words.length := by
      simpa using congrArg List.length hlet
    rw [Line.toolOf_congr (hvalues 'T' (by decide) (by decide)) hm hn, Line.toolOf_of_readAt hl hk]
  refine ⟨r, Line.readAt_of_toolOf ht htool, rfl, hc, forall₂_words hkeys, hvalues, rfl, ?_⟩
  have hkind : r.kind = .code := rfl
  have hrt : r.tool = l.tool := rfl
  simp only [Line.flags, Line.isComment, Line.isBlank, hkind, hk, Line.isMachineMove,
    Line.isToolChange, hrt, Line.isSpindleStart, Line.isSpindleStop, Line.isProgramEnd_eq,
    Line.isOperationStart, Line.has_of_values hg, Line.has_of_values hm,
    Line.hasAxisWord_of_letters hlet, Line.hasXY_of_letters hlet, Line.hasArcCenter_of_letters hlet]

theorem map_shiftKey_of_not_hasXY {l : Line α} (h : l.hasXY = false) :
    l.keys.map o.shiftKey = l.keys := by
  have hn : ∀ c, l.value? c = none → ∀ k ∈ l.keys, k.1 ≠ c := by
    intro c hc k hk he
    rw [Line.value?_eq, Option.map_eq_none_iff, List.find?_eq_none] at hc
    exact hc k hk (decide_eq_true he)
  simp only [Line.hasXY, Bool.or_eq_false_iff, Option.isSome_eq_false_iff,
    Option.isNone_iff_eq_none] at h
  conv_rhs => rw [← List.map_id l.keys]
  exact List.map_congr_left fun k hk ↦ shiftKey_of_ne (hn 'X' h.1 k hk) (hn 'Y' h.2 k hk)

theorem exists_lineShifted_shiftText {l : Line α} (hl : l.IsRead) (hk : l.kind = .code)
    (ho : o.WritesDecimals l) (j : Nat) :
    ∃ r : Line α, Line.readAt j (o.shiftText l.text) = .ok r ∧ o.LineShifted l r := by
  have hc : ∀ k, .token k ∈ LinePart.ofLine l.text → Token.Changes k (o.changeToken k) :=
    fun k h ↦ changes_changeToken hl hk ho h
  refine exists_lineShifted hl hk (kindOf_shiftText hl hk ho) ?_ ?_ j
  · rw [shiftText_eq, Piece.comments_map hc]
  · rw [← hl.map_key_ofLine hk]
    exact map_key_shiftText hl hk ho

/-- An absolute line outside machine coordinates is written as the line shifted. -/
theorem exists_lineShifted_step {m : Modes} {i : Nat} {t : Text} {l : Line α}
    (hl : Line.readAt i t = .ok l) (hk : l.kind = .code)
    (hm : (m.read l).distance = .absolute) (hg : l.isMachineMove = false)
    (ho : o.WritesDecimals l) (j : Nat) :
    ∃ r : Line α, Line.readAt j (o.step m l).2 = .ok r ∧ o.LineShifted l r := by
  have hread := Line.isRead_of_readAt hl
  rw [step_text]
  rcases o.copyText_cases (m.read l) l with ⟨ha, ht⟩ | ⟨-, -, ht⟩
  · rw [ht]
    have hxy : l.hasXY = false := by simpa [applies, hm, hk, hg] using ha
    refine exists_lineShifted hread hk (hread.kind_eq.symm.trans hk) rfl ?_ j
    rw [hread.map_key_ofLine hk, map_shiftKey_of_not_hasXY hxy]
  · rw [ht]
    exact exists_lineShifted_shiftText hread hk ho j

end Offset

section Binary

def Offset.FiniteSums (o : Offset Float) (l : Line Float) : Prop :=
  ∀ k ∈ l.keys, ∀ d ∈ o.of? k.1, Binary.IsFinite (k.2 + d)

instance (o : Offset Float) (l : Line Float) : Decidable (o.FiniteSums l) := by
  unfold Offset.FiniteSums
  infer_instance

theorem Offset.FiniteSums.writesDecimals {o : Offset Float} {l : Line Float}
    (h : o.FiniteSums l) : o.WritesDecimals l := by
  intro k hk d hd
  obtain ⟨m, q, hm⟩ := h k hk d hd
  exact decimal_fixed hm

/-- Shifting a line keeps its structure. -/
theorem Offset.lineShifted_step {o : Offset Float} {m : Modes} {i : Nat} {t : Text}
    {l : Line Float} (hl : Line.readAt i t = .ok l) (hk : l.kind = .code)
    (hm : (m.read l).distance = .absolute) (hg : l.isMachineMove = false)
    (ho : o.FiniteSums l) (j : Nat) :
    ∃ r : Line Float, Line.readAt j (o.step m l).2 = .ok r ∧ o.LineShifted l r :=
  exists_lineShifted_step hl hk hm hg ho.writesDecimals j

def mixedLine : Text := "n5g1x1.5(c)Y-2 Z3 X+.25T7m6;x9".toList

theorem lineShifted_step_mixedLine :
    ∃ l r : Line Float, Line.readAt 0 mixedLine = .ok l ∧ l.kind = .code ∧
      l.isMachineMove = false ∧ (⟨10, 0.5⟩ : Offset Float).FiniteSums l ∧
      Line.readAt 0 ((⟨10, 0.5⟩ : Offset Float).step {} l).2 = .ok r ∧
      (⟨10, 0.5⟩ : Offset Float).LineShifted l r := by
  obtain ⟨l, hl, hk, hm, hg, ho⟩ : ∃ l : Line Float, Line.readAt 0 mixedLine = .ok l ∧
      l.kind = .code ∧ (({} : Modes).read l).distance = .absolute ∧ l.isMachineMove = false ∧
      (⟨10, 0.5⟩ : Offset Float).FiniteSums l := by
    refine ⟨_, rfl, ?_⟩
    decide +kernel
  obtain ⟨r, hr, hs⟩ := Offset.lineShifted_step hl hk hm hg ho 0
  exact ⟨l, r, hl, hk, hg, ho, hr, hs⟩

end Binary

end StepAndRepeat
