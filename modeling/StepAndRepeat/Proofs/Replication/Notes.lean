import StepAndRepeat.Proofs.Number.Decimals
import StepAndRepeat.Proofs.Program.Reading
import StepAndRepeat.Proofs.Replication.Blocks

namespace StepAndRepeat

variable {α : Type} [Coordinate α]

open Text

namespace Assembly

def IsRemark (t : Text) : Prop := Unbroken t ∧ (t = [] ∨ t.head? = some '(')

/-- What the assembly writes of its own. -/
inductive Noted : Text → Prop
  | remark {t : Text} : IsRemark t → Noted t
  | toolChange (n : Int) : Noted (toolChange n)
  | programEnd : Noted programEnd

theorem unbroken_toolChange (n : Int) : Unbroken (toolChange n) :=
  unbroken_append.2 ⟨by decide, unbroken_ofInt n⟩

theorem Noted.unbroken {t : Text} (h : Noted t) : Unbroken t := by
  cases h with
  | remark h => exact h.1
  | toolChange n => exact unbroken_toolChange n
  | programEnd => decide

section Remarks

theorem isRemark_nil : IsRemark [] := ⟨by decide, .inl rfl⟩

theorem isRemark_append {t u : Text} (ht : t.head? = some '(') (h : Unbroken (t ++ u)) :
    IsRemark (t ++ u) := by
  refine ⟨h, .inr ?_⟩
  rw [List.head?_append, ht]
  rfl

omit [Coordinate α] in
theorem isRemark_partNote (total : Int) (i : Instance α) : IsRemark (partNote total i) := by
  unfold partNote cellText
  simp only [List.append_assoc]
  refine isRemark_append (by decide) ?_
  simp only [unbroken_append, unbroken_ofInt, true_and]
  decide

omit [Coordinate α] in
theorem isRemark_toolPartNote (tool : Int) (i : Instance α) : IsRemark (toolPartNote tool i) := by
  unfold toolPartNote cellText
  simp only [List.append_assoc]
  refine isRemark_append (by decide) ?_
  simp only [unbroken_append, unbroken_ofInt, true_and]
  decide

theorem isRemark_offsetNote [OneLine α] (i : Instance α) : IsRemark (offsetNote i) := by
  unfold offsetNote
  simp only [List.append_assoc]
  refine isRemark_append (by decide) ?_
  simp only [unbroken_append, OneLine.unbroken_fixed, true_and]
  decide

theorem isRemark_changesNote (count : Nat) : IsRemark (changesNote count) := by
  unfold changesNote
  simp only [List.append_assoc]
  refine isRemark_append (by decide) ?_
  simp only [unbroken_append, unbroken_ofNat, true_and]
  decide

theorem isRemark_reducedNote (sorted unsorted : Nat) : IsRemark (reducedNote sorted unsorted) := by
  unfold reducedNote
  simp only [List.append_assoc]
  refine isRemark_append (by decide) ?_
  simp only [unbroken_append, unbroken_ofNat, true_and]
  decide

theorem isRemark_toolNote (n : Int) : IsRemark (toolNote n) := by
  unfold toolNote
  simp only [List.append_assoc]
  refine isRemark_append (by decide) ?_
  simp only [unbroken_append, unbroken_ofInt, true_and]
  decide

theorem isRemark_toolsNote (tools : List Int) : IsRemark (toolsNote tools) := by
  have hj : Unbroken (join [',', ' '] (tools.map fun n ↦ 'T' :: ofInt n)) := by
    apply unbroken_join (by decide)
    intro t ht
    obtain ⟨n, -, rfl⟩ := List.mem_map.1 ht
    exact unbroken_cons.2 ⟨by decide, unbroken_ofInt n⟩
  unfold toolsNote
  simp only [List.append_assoc]
  refine isRemark_append (by decide) ?_
  simp only [unbroken_append, hj, true_and]
  decide

theorem isRemark_constant : ∀ t ∈ [noToolsNote, standardNote, sortedNote], IsRemark t := by
  intro t ht
  simp only [List.mem_cons, List.not_mem_nil, or_false] at ht
  rcases ht with rfl | rfl | rfl
  · exact ⟨by decide, .inr rfl⟩
  · exact ⟨by decide, .inr rfl⟩
  · exact ⟨by decide, .inr rfl⟩

end Remarks

section Read

def OnlyMT (l : Line α) : Prop := ∀ k ∈ l.keys, k.1 = 'M' ∨ k.1 = 'T'

theorem IsRemark.kindOf_ne {t : Text} (h : IsRemark t) : Line.kindOf t ≠ .code := by
  rw [Line.kindOf_eq]
  rcases h.2 with rfl | h
  · decide
  · obtain ⟨u, rfl⟩ := List.head?_eq_some_iff.1 h
    rw [List.find?_cons_of_pos (by decide)]
    decide

omit [Coordinate α] in
theorem kindOf_toolChange (n : Int) : Line.kindOf (toolChange n) = .code := by
  rw [Line.kindOf_eq]
  rfl

omit [Coordinate α] in
theorem IsRemark.ne_toolChange {t : Text} (h : IsRemark t) (n : Int) : t ≠ toolChange n := by
  rintro rfl
  exact h.kindOf_ne (kindOf_toolChange n)

theorem onlyMT_of_isRemark {t : Text} (h : IsRemark t) {i : Nat} {l : Line α}
    (hl : Line.readAt i t = .ok l) : OnlyMT l := by
  rw [OnlyMT, Line.keys_of_readAt hl, if_neg h.kindOf_ne]
  simp

theorem shape_ofInt (n : Int) : Numeral.Shape (ofInt n) false := by
  have hu (n : Nat) : Numeral.Unsigned (ofNat n) false :=
    .whole Nat.toDigits_ne_nil fun _ hc ↦ isDigit_of_isDigit (isDigit_of_mem_ofNat hc)
  unfold ofInt
  split
  · exact .signed (by decide) (hu _)
  · exact .unsigned (hu _)

def toolChangeTokens (n : Int) : List Token := [.word 'M' ['6'], .other ' ', .word 'T' (ofInt n)]

theorem textOf_toolChangeTokens (n : Int) :
    Token.textOf (toolChangeTokens n) = toolChange n := by
  simp [toolChangeTokens, toolChange]

theorem fits_toolChangeTokens (n : Int) : Token.Fits false (toolChangeTokens n) := by
  refine .word (by decide) (.unsigned (.whole (by decide) (by simp; decide))) ?_
    (.other (fun h ↦ absurd h (by decide)) (.word (by decide) (shape_ofInt n) ?_ .nil))
  · rintro c ⟨⟩
    decide
  · rintro c ⟨⟩

theorem plain_toolChange (n : Int) : Piece.Plain (toolChange n) [] := by
  have hw : ∀ c ∈ "M6 T".toList, c ≠ '(' ∧ c ≠ ';' := by simp
  refine Piece.plain_of_marks (fun c hc ↦ ?_) []
  rcases List.mem_append.1 hc with hc | hc
  · exact hw c hc
  · constructor <;> rintro rfl <;> exact absurd ((shape_ofInt n).mem hc) (by decide)

theorem ofLine_toolChange (n : Int) :
    LinePart.ofLine (toolChange n) = (toolChangeTokens n).map .token := by
  have hp : Piece.Parted [.code (toolChange n)] :=
    .code (by simp [toolChange]) (plain_toolChange n) (by simp) .nil
  have ho := Piece.ofLine_of_parted hp
  rw [List.flatMap_singleton, Piece.text] at ho
  have ht := Token.scanFrom_of_fits (fits_toolChangeTokens n)
  rw [textOf_toolChangeTokens] at ht
  rw [LinePart.ofLine, ho, List.flatMap_singleton, LinePart.ofPiece, Token.ofCode, ht]

theorem ofLine_programEnd : LinePart.ofLine programEnd =
    [.token (.word 'M' ['3', '0']), .token (.other ' '), .comment "(Program end)".toList] := by
  decide

theorem onlyMT_of_parts {t : Text}
    (h : ∀ c n, .token (.word c n) ∈ LinePart.ofLine t → c = 'M' ∨ c = 'T') {i : Nat}
    {l : Line α} (hl : Line.readAt i t = .ok l) : OnlyMT l := by
  intro k hk
  rw [Line.keys_of_readAt hl] at hk
  split at hk
  · obtain ⟨p, hp, he⟩ := List.mem_filterMap.1 hk
    cases p with
    | comment => cases he
    | token q =>
      cases q with
      | other => cases he
      | word c n =>
        cases he
        rcases h c n hp with rfl | rfl
        · exact .inl (show capital 'M' = 'M' by decide)
        · exact .inr (show capital 'T' = 'T' by decide)
  · simp at hk

theorem Noted.onlyMT {t : Text} (h : Noted t) {i : Nat} {l : Line α}
    (hl : Line.readAt i t = .ok l) : OnlyMT l := by
  cases h with
  | remark h => exact onlyMT_of_isRemark h hl
  | toolChange n =>
    refine onlyMT_of_parts (fun c m h ↦ ?_) hl
    rw [ofLine_toolChange] at h
    simp only [toolChangeTokens, List.map_cons, List.map_nil, List.mem_cons,
      LinePart.token.injEq, Token.word.injEq, reduceCtorEq, List.not_mem_nil, or_false,
      false_or] at h
    exact h.imp And.left And.left
  | programEnd =>
    refine onlyMT_of_parts (fun c m h ↦ ?_) hl
    rw [ofLine_programEnd] at h
    simp only [List.mem_cons, LinePart.token.injEq, Token.word.injEq, reduceCtorEq,
      List.not_mem_nil, or_false] at h
    exact .inl h.1

end Read

end Assembly

end StepAndRepeat
