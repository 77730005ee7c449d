import StepAndRepeat.Program.Token
import StepAndRepeat.Proofs.Number.Numerals

namespace StepAndRepeat.Token

open Text

def textOf (ts : List Token) : Text := ts.flatMap text

@[simp] theorem textOf_nil : textOf [] = [] := rfl

@[simp] theorem textOf_other (c : Char) (ts : List Token) :
    textOf (other c :: ts) = c :: textOf ts := rfl

@[simp] theorem textOf_word (l : Char) (n : Text) (ts : List Token) :
    textOf (word l n :: ts) = l :: (n ++ textOf ts) := rfl

/-- Tokens that the scanner makes of their text; the mark says whether a letter stands before. -/
inductive Fits : Bool → List Token → Prop
  | nil {glued : Bool} : Fits glued []
  | other {glued : Bool} {c : Char} {ts : List Token} :
      (isLetter c = true → glued = false → Numeral.begins (textOf ts) = false) →
      Fits (isLetter c) ts → Fits glued (other c :: ts)
  | word {l : Char} {n : Text} {pointed : Bool} {ts : List Token} : isLetter l = true →
      Numeral.Shape n pointed → Numeral.Stops pointed (textOf ts) → Fits false ts →
      Fits false (word l n :: ts)

theorem scan_eq_none {t : Text} : Numeral.scan t = none ↔ Numeral.begins t = false := by
  rw [← Numeral.isSome_scan, Option.isSome_eq_false_iff, Option.isNone_iff_eq_none]

theorem scanFrom_of_fits {glued : Bool} {ts : List Token} (h : Fits glued ts) :
    scanFrom 0 glued (textOf ts) = ts := by
  induction h with
  | nil => rfl
  | @other glued c ts hn _ ih =>
    have hs : (if isLetter c && !glued then Numeral.scan (textOf ts) else none) = none := by
      split
      next hc =>
        simp only [Bool.and_eq_true, Bool.not_eq_true'] at hc
        exact scan_eq_none.2 (hn hc.1 hc.2)
      next => rfl
    rw [textOf_other, scanFrom, hs, ih]
  | @word l n pointed ts hl hn hr _ ih =>
    rw [textOf_word, scanFrom, hl, Bool.not_false, Bool.and_true, if_pos rfl,
      Numeral.scan_eq_some hn hr]
    dsimp only
    rw [scanFrom_drop, List.drop_left, ih]

theorem fits_scanFrom (glued : Bool) (t : Text) : Fits glued (scanFrom 0 glued t) := by
  generalize hn : t.length = n
  induction n using Nat.strongRecOn generalizing glued t with
  | ind n ih =>
    cases t with
    | nil => exact .nil
    | cons c t =>
      have hlt : t.length < n := by
        rw [← hn]
        exact Nat.lt_succ_self _
      unfold scanFrom
      split
      next m r h =>
        split at h
        next hc =>
          simp only [Bool.and_eq_true, Bool.not_eq_true'] at hc
          obtain ⟨pointed, hm, hr⟩ := Numeral.shape_of_scan h
          have hlr := Numeral.length_lt_of_scan h
          have hrest : scanFrom m.length false t = scanFrom 0 false r := by
            rw [scanFrom_drop, ← Numeral.scan_append h, List.drop_left]
          have htext : textOf (scanFrom 0 false r) = r := flatMap_text_scanFrom false r
          rw [hrest, hc.2]
          exact .word hc.1 hm (htext.symm ▸ hr) (ih r.length (by omega) false r rfl)
        next => cases h
      next h =>
        have htext : textOf (scanFrom 0 (isLetter c) t) = t := flatMap_text_scanFrom _ t
        refine .other (fun hc hg ↦ ?_) (ih t.length hlt (isLetter c) t rfl)
        rw [htext, ← scan_eq_none]
        simpa [hc, hg] using h

theorem Fits.of_mem {glued : Bool} {ts : List Token} (h : Fits glued ts) {l : Char}
    {n : Text} (hw : Token.word l n ∈ ts) :
    isLetter l = true ∧ ∃ pointed, Numeral.Shape n pointed := by
  induction h with
  | nil => simp at hw
  | other _ _ ih => exact ih (by simpa using hw)
  | word hl hn _ _ ih =>
    rcases List.mem_cons.1 hw with he | hw
    · cases he
      exact ⟨hl, _, hn⟩
    · exact ih hw

theorem Fits.isLetter_of_mem {glued : Bool} {ts : List Token} (h : Fits glued ts) {l : Char}
    {n : Text} (hw : Token.word l n ∈ ts) : isLetter l = true := (h.of_mem hw).1

inductive Changes : Token → Token → Prop
  | same (k : Token) : Changes k k
  | word {l l' : Char} {n n' : Text} : isLetter l' = true → Numeral.Shape n' true →
      Changes (word l n) (word l' n')

variable {f : Token → Token} {glued : Bool} {ts : List Token}

/-- Changed tokens begin as before, up to the first word that is changed. -/
theorem follows_map (h : Fits glued ts) (hf : ∀ k ∈ ts, Changes k (f k)) :
    Numeral.Follows (textOf ts) (textOf (ts.map f)) := by
  induction h with
  | nil => exact .stops (by simp [Numeral.Stops])
  | @other _ c ts _ _ ih =>
    have hk := hf (.other c) (by simp)
    rw [List.map_cons]
    generalize f (.other c) = k at hk
    cases hk
    exact .cons c (ih fun k hk ↦ hf k (by simp [hk]))
  | @word l n _ ts hl _ _ _ _ =>
    have hk := hf (.word l n) (by simp)
    rw [List.map_cons]
    generalize f (.word l n) = k at hk
    cases hk with
    | same => exact .stops (.of_isLetter hl false _)
    | word hl' _ => exact .stops (.of_isLetter hl' false _)

theorem not_begins_map (h : Fits glued ts) (hf : ∀ k ∈ ts, Changes k (f k))
    (hb : Numeral.begins (textOf ts) = false) : Numeral.begins (textOf (ts.map f)) = false := by
  cases h with
  | nil => exact hb
  | @other _ c ts _ hts =>
    have hk := hf (.other c) (by simp)
    rw [List.map_cons]
    generalize f (.other c) = k at hk
    cases hk
    exact (follows_map hts fun k hk ↦ hf k (by simp [hk])).not_begins hb
  | @word l n _ ts hl _ _ _ =>
    have hk := hf (.word l n) (by simp)
    rw [List.map_cons]
    generalize f (.word l n) = k at hk
    cases hk with
    | same => exact Numeral.not_begins_of_isLetter hl _
    | word hl' _ => exact Numeral.not_begins_of_isLetter hl' _

theorem Fits.map (h : Fits glued ts) (hf : ∀ k ∈ ts, Changes k (f k)) :
    Fits glued (ts.map f) := by
  induction h with
  | nil => exact .nil
  | @other glued c ts hn hts ih =>
    have hrest : ∀ k ∈ ts, Changes k (f k) := fun k hk ↦ hf k (by simp [hk])
    have hk := hf (.other c) (by simp)
    rw [List.map_cons]
    generalize f (.other c) = k at hk
    cases hk
    exact .other (fun hc hg ↦ not_begins_map hts hrest (hn hc hg)) (ih hrest)
  | @word l n pointed ts hl hn hr hts ih =>
    have hrest : ∀ k ∈ ts, Changes k (f k) := fun k hk ↦ hf k (by simp [hk])
    have hfollows := follows_map hts hrest
    have hk := hf (.word l n) (by simp)
    rw [List.map_cons]
    generalize f (.word l n) = k at hk
    cases hk with
    | same => exact .word hl hn (hfollows.keepsStops hr) (ih hrest)
    | word hl' hn' =>
      have hr' : Numeral.Stops true (textOf ts) := fun c hc ↦ ⟨(hr c hc).1, by simp⟩
      exact .word hl' hn' (hfollows.keepsStops hr') (ih hrest)

end StepAndRepeat.Token
