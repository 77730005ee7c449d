import StepAndRepeat.Proofs.Program.Endings
import StepAndRepeat.Proofs.Program.LineNumbers
import StepAndRepeat.Proofs.Program.Overflow

namespace StepAndRepeat

open Text

variable (α : Type) [Coordinate α]

namespace Ending

/-- No numeral of a line goes on into what moves up to it when the end words are taken out. -/
def JoinsNothing (t : Text) : Prop := ∀ p ∈ Piece.ofLine t,
  p.isCode = true → Token.Apart α false (Token.ofCode p.text)

instance : DecidablePred (JoinsNothing α) := fun t ↦
  inferInstanceAs (Decidable (∀ p ∈ Piece.ofLine t, _ → _))

def others (t : Text) : Text :=
  ((LinePart.ofLine t).filter fun p ↦ !isEnd α p).flatMap LinePart.text

variable {α}

def rest (l : Line α) : List (Char × α) := l.keys.filter (!isEndKey ·)

theorem JoinsNothing.rereads {t : Text} (h : JoinsNothing α t) :
    Piece.Rereads α (Piece.ofLine t) := fun _ hu ↦ Token.ofCode_textOf_kept (h _ hu rfl)

section Kind

def isInk (c : Char) : Bool := !isBlank c

theorem find?_dropWhile_isGap (t : Text) : (t.dropWhile isGap).find? isInk = t.find? isInk := by
  induction t with
  | nil => rfl
  | cons c t ih =>
    cases hc : isGap c with
    | false => rw [List.dropWhile_cons_of_neg (by simp [hc])]
    | true =>
      have hblank : isInk c = false := by
        simp only [isGap, Bool.or_eq_true, decide_eq_true_eq] at hc
        rcases hc with rfl | rfl <;> decide
      rw [List.dropWhile_cons_of_pos hc, ih, List.find?_cons_of_neg (by simp [hblank])]

theorem find?_withoutEnds (ps : List LinePart) :
    (withoutEnds α ps).find? isInk =
      ((ps.filter fun p ↦ !isEnd α p).flatMap LinePart.text).find? isInk := by
  induction ps with
  | nil => rfl
  | cons p ps ih =>
    rw [withoutEnds]
    cases he : isEnd α p with
    | true =>
      rw [if_pos rfl, List.filter_cons_of_neg (by simp [he]), ← ih]
      exact find?_dropWhile_isGap _
    | false =>
      rw [if_neg (by simp), List.filter_cons_of_pos (by simp [he]), List.flatMap_cons,
        List.find?_append, List.find?_append, ih]

theorem find?_trimEnd (t : Text) : (trimEnd t).find? isInk = t.find? isInk := by
  obtain ⟨b, hb, ht⟩ := exists_trimEnd_append t
  have hnone : b.find? isInk = none := by
    rw [List.find?_eq_none]
    exact fun c hc ↦ by simp [isInk, hb c hc]
  conv_rhs => rw [ht, List.find?_append, hnone, Option.or_none]

variable {l : Line α} {t : Text}

theorem kindOf_of_strip (hs : strip l = some t) :
    Line.kindOf t = Line.kindOf (others α l.text) := by
  have hink : (fun c ↦ !isBlank c) = isInk := rfl
  rw [Line.kindOf_eq, Line.kindOf_eq, hink, eq_of_strip hs, find?_trimEnd, find?_withoutEnds,
    others]

theorem find?_of_blank {t : Text} (h : Line.kindOf t = .blank) : t.find? isInk = none := by
  have hink : (fun c ↦ !isBlank c) = isInk := rfl
  rw [Line.kindOf_eq, hink] at h
  cases hc : t.find? isInk with
  | none => rfl
  | some c =>
    rw [hc, Line.inkKind] at h
    split at h <;> cases h

theorem kindOf_ne_blank (hw : l.words = Word.ofLine l.text) (hs : strip l = some t) :
    Line.kindOf t ≠ .blank := by
  intro hblank
  have hnone := find?_of_blank hblank
  rw [eq_of_strip hs, find?_trimEnd, List.find?_eq_none] at hnone
  unfold strip at hs
  split at hs
  next hany =>
    obtain ⟨w, hmem, hother⟩ := List.any_eq_true.1 hany
    simp only [Bool.and_eq_true, Bool.not_eq_true'] at hother
    rw [hw] at hmem
    apply LineNumber.trimEnd_withoutEnds_ne_nil hmem hother.1
    rw [trimEnd_eq_nil_iff]
    intro c hc
    simpa [isInk] using hnone c hc
  next => cases hs

end Kind

section Keys

variable {l : Line α} {t : Text}

theorem strip_eq_none_iff : strip l = none ↔ ∀ k ∈ l.keys, isEndKey k = true ∨ k.1 = 'N' := by
  have hany : (l.words.any fun w ↦ !w.isProgramEnd && w.letter ≠ 'N') =
      l.keys.any fun k ↦ !isEndKey k && k.1 ≠ 'N' := by
    rw [Line.keys, List.any_map]
    rfl
  unfold strip
  rw [hany]
  split
  next h =>
    refine iff_of_false (by simp) ?_
    intro hall
    obtain ⟨k, hk, hother⟩ := List.any_eq_true.1 h
    rcases hall k hk with he | hn
    · simp [he] at hother
    · simp [hn] at hother
  next h =>
    refine iff_of_true rfl ?_
    intro k hk
    by_contra hk'
    rw [not_or] at hk'
    apply h
    rw [List.any_eq_true]
    exact ⟨k, hk, by simpa using hk'⟩

variable (α) in
/-- A line calls for a tool by a number without a whole part, told by what it says. -/
theorem overflows_iff : Line.Overflows α t ↔ Line.kindOf t = .code ∧
    (∃ k ∈ (Piece.keysOf α (Piece.ofLine t)).find? (·.1 = 'T'), Coordinate.trunc? k.2 = none) ∧
    ((Piece.keysOf α (Piece.ofLine t)).any (fun k ↦ k.1 = 'M' && Coordinate.isNat 6 k.2) = true ∨
      (Piece.keysOf α (Piece.ofLine t)).length = 1) := by
  have hkeys : Piece.keysOf α (Piece.ofLine t) = (Word.ofLine t).map Word.key :=
    (Word.map_key_ofLine t).symm
  rw [hkeys, List.find?_map, List.any_map, List.length_map]
  constructor
  · rintro ⟨hk, ⟨w, hw, hv⟩, hcall⟩
    refine ⟨hk, ⟨w.key, ?_, hv⟩, hcall⟩
    rw [Option.mem_def, Option.map_eq_some_iff]
    exact ⟨w, hw, rfl⟩
  · rintro ⟨hk, ⟨k, hfind, hv⟩, hcall⟩
    obtain ⟨w, hw, rfl⟩ := Option.map_eq_some_iff.1 hfind
    exact ⟨hk, ⟨w, hw, hv⟩, hcall⟩

theorem find?_rest (l : Line α) :
    (rest l).find? (·.1 = 'T') = l.keys.find? (·.1 = 'T') := by
  rw [rest, List.find?_filter]
  congr 1
  funext k
  by_cases hk : k.1 = 'T'
  · have he : isEndKey k = false := by simp [isEndKey, Word.isProgramEnd, Word.isCode, hk]
    simp [hk, he]
  · simp [hk]

/-- What is left of a line can be read unless it is a tool word alone whose number has no whole
part, in which case the end words had kept the line from calling for the tool. -/
theorem overflows_rest_iff (hl : l.IsRead) (hk : l.kind = .code)
    (hkeys : Piece.keysOf α (Piece.ofLine t) = rest l) (ht : Line.kindOf t = .code) :
    Line.Overflows α t ↔ ∃ v, rest l = [('T', v)] ∧ Coordinate.trunc? v = none := by
  have hwhole : Piece.keysOf α (Piece.ofLine l.text) = l.keys := by
    rw [Line.keys_of_readAt hl, if_pos (hl.kind_eq.symm.trans hk)]
    rfl
  rw [overflows_iff, hkeys]
  constructor
  · rintro ⟨-, ⟨k, hfind, hv⟩, hcall⟩
    have hone : (rest l).length = 1 := by
      refine hcall.resolve_left ?_
      intro hchange
      apply hl.not_overflows
      rw [overflows_iff, hwhole, ← find?_rest]
      refine ⟨hl.kind_eq.symm.trans hk, ⟨k, hfind, hv⟩, .inl ?_⟩
      obtain ⟨m, hm, hsix⟩ := List.any_eq_true.1 hchange
      exact List.any_eq_true.2 ⟨m, List.mem_of_mem_filter hm, hsix⟩
    obtain ⟨⟨c, v⟩, hrest⟩ := List.length_eq_one_iff.1 hone
    have hmem := List.mem_of_find?_eq_some hfind
    have hletter : k.1 = 'T' := by simpa using List.find?_some hfind
    rw [hrest, List.mem_singleton] at hmem
    subst hmem
    obtain rfl : c = 'T' := hletter
    exact ⟨v, hrest, hv⟩
  · rintro ⟨v, hrest, hv⟩
    rw [hrest]
    exact ⟨ht, ⟨('T', v), by simp, hv⟩, .inr rfl⟩

end Keys

/-- Taking the end words out of a line leaves nothing just where the other words are line numbers.
What is left is of the kind that the parts beside the end words are of. Where it is code, and no
numeral goes on into what moves up to it, it is read as the other words, unless a tool word is left
alone whose number has no whole part. -/
theorem strip_keeps {l : Line α} (hl : l.IsSound) (he : l.isProgramEnd = true) :
    (strip l = none ↔ ∀ k ∈ l.keys, isEndKey k = true ∨ k.1 = 'N') ∧
      ∀ t, strip l = some t →
        Line.kindOf t = Line.kindOf (others α l.text) ∧ Line.kindOf t ≠ .blank ∧
          (JoinsNothing α l.text → Line.kindOf t = .code →
            ((∃ r : Line α, Line.readAt l.index t = .ok r) ↔
              ¬ ∃ v, rest l = [('T', v)] ∧ Coordinate.trunc? v = none) ∧
            ∀ r : Line α, Line.readAt l.index t = .ok r → r.kind = .code ∧ r.keys = rest l) := by
  have hk := kind_of_isProgramEnd hl.1 he
  have hcode := hl.1.kind_eq.symm.trans hk
  have hwords : l.words = Word.ofLine l.text := by
    rw [(Line.readAt_fields hl.1).2.2.2, if_pos hcode]
  refine ⟨strip_eq_none_iff, ?_⟩
  intro t hs
  refine ⟨kindOf_of_strip hs, kindOf_ne_blank hwords hs, ?_⟩
  intro hjoins ht
  have hkeys : Piece.keysOf α (Piece.ofLine t) = rest l :=
    keysOf_of_strip hl hjoins.rereads hk hs
  constructor
  · rw [Line.exists_readAt_iff, overflows_rest_iff hl.1 hk hkeys ht]
  · intro r hr
    refine ⟨(Line.readAt_fields hr).2.2.1.trans ht, ?_⟩
    rw [Line.keys_of_readAt hr, if_pos ht, ← hkeys]
    rfl

section Home

def readsLine (t : Text) (p : Line Float → Bool) : Bool :=
  match (Line.readAt 0 t : Except LineFault (Line Float)) with
  | .ok l => p l
  | .error _ => false

theorem exists_of_readsLine {t : Text} {p : Line Float → Bool} (h : readsLine t p = true) :
    ∃ l, Line.readAt 0 t = .ok l ∧ p l = true := by
  unfold readsLine at h
  split at h
  next l hl => exact ⟨l, hl, h⟩
  next => cases h

def homeLine : Text := "N10 T3 M06 X-1.5M30 (home) Y2 M2".toList

def homeLeft : Text := "N10 T3 M06 X-1.5(home) Y2".toList

theorem readsLine_homeLine : readsLine homeLine (fun l ↦
    l.isProgramEnd && strip l = some homeLeft && (rest l).length = 5) = true := by
  decide +kernel

theorem joinsNothing_homeLine : JoinsNothing Float homeLine := by
  decide +kernel

theorem strip_keeps_homeLine :
    ∃ l r : Line Float, Line.readAt 0 homeLine = .ok l ∧ l.isProgramEnd = true ∧
      strip l = some homeLeft ∧ Line.readAt l.index homeLeft = .ok r ∧ r.kind = .code ∧
      r.keys = rest l := by
  obtain ⟨l, hl, htest⟩ := exists_of_readsLine readsLine_homeLine
  simp only [Bool.and_eq_true, decide_eq_true_eq] at htest
  obtain ⟨⟨he, hs⟩, hlength⟩ := htest
  have hsound : l.IsSound := Line.isSound_of_readAt (by decide) hl
  have hjoins : JoinsNothing Float l.text := by
    rw [(Line.readAt_fields hl).2.1]
    exact joinsNothing_homeLine
  obtain ⟨-, -, hreads⟩ := (strip_keeps hsound he).2 homeLeft hs
  obtain ⟨hread, hkeeps⟩ := hreads hjoins (by decide)
  have hmany : ¬ ∃ v, rest l = [('T', v)] ∧ Coordinate.trunc? v = none := by
    rintro ⟨v, hv, -⟩
    simp [hv] at hlength
  obtain ⟨r, hr⟩ := hread.2 hmany
  exact ⟨l, r, hl, he, hs, hr, hkeeps r hr⟩

def KeepsAll (l : Line Float) : Prop :=
  match strip l with
  | none => ∀ k ∈ l.keys, isEndKey k = true ∨ k.1 = 'N'
  | some t =>
    match (Line.readAt l.index t : Except LineFault (Line Float)) with
    | .ok r => r.kind = .code ∧ r.keys = rest l
    | .error _ => False

instance (l : Line Float) : Decidable (KeepsAll l) := by
  unfold KeepsAll
  split
  · infer_instance
  · split <;> infer_instance

theorem readsLine_not_keepsAll :
    readsLine "M30 (end) T1 M6".toList (fun l ↦ l.isProgramEnd && !decide (KeepsAll l)) = true ∧
      readsLine "T1 M6M2 0".toList (fun l ↦ l.isProgramEnd && !decide (KeepsAll l)) = true := by
  decide +kernel

/-- A comment that comes first takes the words with it, and a digit that moves up makes another
number. -/
theorem not_keepsAll :
    (∃ l, Line.readAt 0 "M30 (end) T1 M6".toList = .ok l ∧ l.isProgramEnd = true ∧ ¬ KeepsAll l) ∧
      ∃ l, Line.readAt 0 "T1 M6M2 0".toList = .ok l ∧ l.isProgramEnd = true ∧ ¬ KeepsAll l := by
  obtain ⟨hcomment, hdigit⟩ := readsLine_not_keepsAll
  obtain ⟨l, hl, htest⟩ := exists_of_readsLine hcomment
  obtain ⟨k, hk, htest'⟩ := exists_of_readsLine hdigit
  simp only [Bool.and_eq_true, Bool.not_eq_true', decide_eq_false_iff_not] at htest htest'
  exact ⟨⟨l, hl, htest⟩, k, hk, htest'⟩

end Home

end Ending

end StepAndRepeat
