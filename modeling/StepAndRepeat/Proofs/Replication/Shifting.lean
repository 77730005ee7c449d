import StepAndRepeat.Proofs.Machine.Codes
import StepAndRepeat.Proofs.Number.Decimals
import StepAndRepeat.Proofs.Replication.Coordinates

namespace StepAndRepeat

variable {α : Type} [Coordinate α]

namespace Text

theorem not_isBlank_of_isLetter {c : Char} (h : isLetter c = true) : isBlank c = false := by
  simp only [isLetter, within, letterRanges, List.any_cons, List.any_nil, Bool.or_false,
    Bool.or_eq_true, Bool.and_eq_true, decide_eq_true_eq] at h
  rw [isBlank, within, List.any_eq_false]
  intro r hr
  simp only [Bool.and_eq_true, decide_eq_true_eq]
  have hn : ∀ r ∈ blankRanges, (r.2 < 0x41 ∨ 0x7B ≤ r.1) ∧ (r.2 < 0x130 ∨ 0x200 ≤ r.1) ∧
      (r.2 < 0x212A ∨ 0x212B ≤ r.1) := by decide
  have := hn r hr
  omega

theorem isBreak_of_isLetter {c : Char} (h : isLetter c = true) : isBreak c = false := by
  have hb : ∀ r ∈ breakRanges, ∃ s ∈ blankRanges, s.1 ≤ r.1 ∧ r.2 ≤ s.2 := by decide
  have hn := not_isBlank_of_isLetter h
  rw [isBlank, within, List.any_eq_false] at hn
  rw [isBreak, within, List.any_eq_false]
  intro r hr
  obtain ⟨s, hs, h₁, h₂⟩ := hb r hr
  have := hn s hs
  simp only [Bool.and_eq_true, decide_eq_true_eq] at this ⊢
  omega

end Text

namespace Offset

variable (o : Offset α)

def changeToken : Token → Token
  | .other c => .other c
  | .word l n =>
    match o.of? (Text.capital l) with
    | some d => .word (Text.capital l) (Coordinate.fixed 3 (Coordinate.ofNumeral (.ofText n) + d))
    | none => .word l n

/-- What a word says once it is shifted, written and read again. -/
def shiftKey (k : Char × α) : Char × α :=
  match o.of? k.1 with
  | some d => (k.1, Coordinate.ofNumeral (.ofText (Coordinate.fixed 3 (k.2 + d))))
  | none => k

def WritesDecimals (l : Line α) : Prop :=
  ∀ k ∈ l.keys, ∀ d, o.of? k.1 = some d → Numeral.Decimal (Coordinate.fixed 3 (k.2 + d))

theorem text_mapToken (p : LinePart) : (p.mapToken o.changeToken).text = o.shiftPart p := by
  cases p with
  | comment t => rfl
  | token k =>
    cases k with
    | other c => rfl
    | word l n =>
      simp only [LinePart.mapToken, LinePart.text, changeToken, shiftPart, shiftToken]
      cases o.of? (Text.capital l) with
      | none => rfl
      | some d => rfl

variable {o}

omit [Coordinate α] in
theorem letter_of_of? {c : Char} {d : α} (h : o.of? c = some d) : c = 'X' ∨ c = 'Y' := by
  unfold of? at h
  split at h
  · exact .inl ‹_›
  · split at h
    · exact .inr ‹_›
    · cases h

omit [Coordinate α] in
theorem isLetter_of_of? {c : Char} {d : α} (h : o.of? c = some d) : Text.isLetter c = true := by
  rcases letter_of_of? h with rfl | rfl <;> decide

omit [Coordinate α] in
theorem capital_of_of? {c : Char} {d : α} (h : o.of? c = some d) : Text.capital c = c := by
  rcases letter_of_of? h with rfl | rfl <;> decide

theorem shiftKey_fst (k : Char × α) : (o.shiftKey k).1 = k.1 := by
  unfold shiftKey
  split <;> rfl

theorem shiftKey_of_ne {k : Char × α} (hx : k.1 ≠ 'X') (hy : k.1 ≠ 'Y') : o.shiftKey k = k := by
  have ho : o.of? k.1 = none := by rw [of?, if_neg hx, if_neg hy]
  rw [shiftKey, ho]

/-- Shifting leaves all words but X and Y as they are. -/
theorem values_of_shifted {l r : Line α} (h : r.keys = l.keys.map o.shiftKey) {c : Char}
    (hx : c ≠ 'X') (hy : c ≠ 'Y') : r.values c = l.values c := by
  rw [Line.values_eq, Line.values_eq, h, List.filter_map, List.map_map]
  have hf : (fun k ↦ decide (k.1 = c)) ∘ o.shiftKey = fun k : Char × α ↦ decide (k.1 = c) := by
    funext k
    rw [Function.comp_apply, shiftKey_fst]
  rw [hf]
  apply List.map_congr_left
  intro k hk
  have hkc : k.1 = c := of_decide_eq_true (List.mem_filter.1 hk).2
  rw [Function.comp_apply, shiftKey_of_ne (hkc ▸ hx) (hkc ▸ hy)]

theorem key?_changeToken (p : LinePart) :
    (p.mapToken o.changeToken).key? = (p.key?).map o.shiftKey := by
  cases p with
  | comment t => rfl
  | token k =>
    cases k with
    | other c => rfl
    | word l n =>
      simp only [LinePart.mapToken, changeToken, LinePart.key?, Option.map_some, shiftKey]
      cases h : o.of? (Text.capital l) with
      | none => rfl
      | some d => simp only [capital_of_of? h]

theorem changes_changeToken {l : Line α} (hl : l.IsRead) (hk : l.kind = .code)
    (ho : o.WritesDecimals l) {k : Token} (h : .token k ∈ LinePart.ofLine l.text) :
    Token.Changes k (o.changeToken k) := by
  cases k with
  | other c => exact .same _
  | word c n =>
    rw [changeToken]
    cases hd : o.of? (Text.capital c) with
    | none => exact .same _
    | some d =>
      have hm : (Text.capital c, Coordinate.ofNumeral (.ofText n)) ∈ l.keys := by
        rw [Line.keys_of_readAt hl, if_pos (hl.kind_eq ▸ hk)]
        exact List.mem_filterMap.2 ⟨_, h, rfl⟩
      exact .word (isLetter_of_of? hd) (ho _ hm d hd).shape

theorem isLetter_of_word_mem {t : Text} {c : Char} {n : Text}
    (h : .token (.word c n) ∈ LinePart.ofLine t) : Text.isLetter c = true := by
  obtain ⟨p, -, hp⟩ := List.mem_flatMap.1 h
  cases p with
  | comment u => simp [LinePart.ofPiece] at hp
  | code u =>
    obtain ⟨k, hk, he⟩ := List.mem_map.1 hp
    cases he
    exact (Token.fits_scanFrom false u).isLetter_of_mem hk

theorem inkKind_map {f : Token → Token} {ps : List LinePart}
    (hl : ∀ c n, .token (.word c n) ∈ ps → Text.isLetter c = true)
    (hf : ∀ k, .token k ∈ ps → Token.Changes k (f k)) :
    Line.inkKind ((ps.flatMap fun p ↦ (p.mapToken f).text).find? fun c ↦ !Text.isBlank c) =
      Line.inkKind ((ps.flatMap LinePart.text).find? fun c ↦ !Text.isBlank c) := by
  have hletter (c : Char) (hc : Text.isLetter c = true) (t u : Text) :
      Line.inkKind ((c :: t ++ u).find? fun c ↦ !Text.isBlank c) = .code := by
    have h₁ : c ≠ '(' := Text.isLetter_ne hc (by decide)
    have h₂ : c ≠ ';' := Text.isLetter_ne hc (by decide)
    have h₃ : c ≠ '%' := Text.isLetter_ne hc (by decide)
    rw [List.cons_append, List.find?_cons_of_pos (by simp [Text.not_isBlank_of_isLetter hc])]
    simp [Line.inkKind, h₁, h₂, h₃]
  induction ps with
  | nil => rfl
  | cons p ps ih =>
    have ih' := ih (fun c n h ↦ hl c n (by simp [h])) fun k h ↦ hf k (by simp [h])
    have hsame (t : Text) : Line.inkKind ((t ++ ps.flatMap fun p ↦ (p.mapToken f).text).find?
        fun c ↦ !Text.isBlank c) =
        Line.inkKind ((t ++ ps.flatMap LinePart.text).find? fun c ↦ !Text.isBlank c) := by
      rw [List.find?_append, List.find?_append]
      cases t.find? fun c ↦ !Text.isBlank c with
      | none => exact ih'
      | some c => rfl
    rw [List.flatMap_cons, List.flatMap_cons]
    cases p with
    | comment t => exact hsame t
    | token k =>
      have hk := hf k (by simp)
      simp only [LinePart.mapToken, LinePart.text]
      generalize f k = k' at hk
      cases hk with
      | same => exact hsame k.text
      | @word c c' n n' hc' _ =>
        exact (hletter c' hc' _ _).trans (hletter c (hl c n (by simp)) _ _).symm

theorem shiftText_eq (t : Text) :
    o.shiftText t = (LinePart.ofLine t).flatMap fun p ↦ (p.mapToken o.changeToken).text := by
  rw [shiftText_eq_flatMap]
  exact List.flatMap_congr fun p _ ↦ (o.text_mapToken p).symm

section Shifted

variable {l : Line α} (hl : l.IsRead) (hk : l.kind = .code) (ho : o.WritesDecimals l)
include hl hk ho

theorem kindOf_shiftText : Line.kindOf (o.shiftText l.text) = .code := by
  rw [Line.kindOf_eq, shiftText_eq, inkKind_map (fun c n h ↦ isLetter_of_word_mem h)
      fun k h ↦ changes_changeToken hl hk ho h, LinePart.flatMap_text_ofLine, ← Line.kindOf_eq,
    ← hl.kind_eq, hk]

theorem map_key_shiftText : (Word.ofLine (o.shiftText l.text) : List (Word α)).map Word.key =
    ((Word.ofLine l.text).map Word.key).map o.shiftKey := by
  rw [Word.map_key_ofLine, Word.map_key_ofLine, shiftText_eq,
    LinePart.ofLine_map fun k h ↦ changes_changeToken hl hk ho h, List.filterMap_map,
    List.map_filterMap]
  exact List.filterMap_congr fun p _ ↦ key?_changeToken p

theorem read_shiftText {i : Nat} {r : Line α}
    (hr : Line.readAt i (o.shiftText l.text) = .ok r) :
    r.kind = .code ∧ r.keys = l.keys.map o.shiftKey := by
  have hkind := kindOf_shiftText hl hk ho
  refine ⟨(Line.readAt_fields hr).2.2.1.trans hkind, ?_⟩
  rw [Line.keys_of_readAt hr, if_pos hkind, ← Word.map_key_ofLine, map_key_shiftText hl hk ho,
    Line.keys_of_readAt hl, if_pos (hl.kind_eq ▸ hk), Word.map_key_ofLine]

end Shifted

theorem unbroken_shiftText [OneLine α] {t : Text} (hu : Text.Unbroken t) :
    Text.Unbroken (o.shiftText t) := by
  intro c hc
  rw [shiftText_eq_flatMap] at hc
  obtain ⟨p, hp, hc⟩ := List.mem_flatMap.1 hc
  have hkeep : c ∈ p.text → Text.isBreak c = false := fun h ↦
    hu c (LinePart.flatMap_text_ofLine t ▸ List.mem_flatMap.2 ⟨p, hp, h⟩)
  cases p with
  | comment t => exact hkeep hc
  | token k =>
    cases k with
    | other d => exact hkeep hc
    | word d n =>
      simp only [shiftPart, shiftToken] at hc
      cases hd : o.of? (Text.capital d) with
      | none => exact hkeep (by simpa [hd, LinePart.text, Token.text] using hc)
      | some v =>
        simp only [hd, wordText, List.singleton_append, List.mem_cons] at hc
        rcases hc with rfl | hc
        · exact Text.isBreak_of_isLetter (isLetter_of_of? hd)
        · exact OneLine.unbroken_fixed 3 _ c hc

end Offset

end StepAndRepeat
