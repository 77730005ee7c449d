import Mathlib.Data.Nat.Init
import StepAndRepeat.Proofs.Text.Lines
import StepAndRepeat.Proofs.Text.Trimming
import StepAndRepeat.Text.Digit
import StepAndRepeat.Text.Letter

namespace StepAndRepeat.Text

/-- The text in capitals. Only plain Latin letters have one here. -/
def upper (t : Text) : Text := t.map Char.toUpper

@[simp] theorem upper_nil : upper [] = [] := rfl

@[simp] theorem upper_cons (c : Char) (t : Text) : upper (c :: t) = c.toUpper :: upper t := rfl

@[simp] theorem upper_append (t u : Text) : upper (t ++ u) = upper t ++ upper u := List.map_append

@[simp] theorem length_upper (t : Text) : (upper t).length = t.length := List.length_map _

def Caseless {β : Type} (f : Char → β) : Prop := ∀ c, f c.toUpper = f c

section Caseless

variable {β : Type} {f : Char → β} {c d : Char}

theorem caseless_of_small
    (h : ∀ n, 0x61 ≤ n → n ≤ 0x7A → f (Char.ofNat n).toUpper = f (Char.ofNat n)) :
    Caseless f := by
  intro c
  by_cases hc : 'a'.val ≤ c.val ∧ c.val ≤ 'z'.val
  · have hsmall := h c.toNat hc.1 hc.2
    rwa [Char.ofNat_toNat] at hsmall
  · have hsame : c.toUpper = c := dif_neg hc
    rw [hsame]

theorem caseless_toUpper : Caseless Char.toUpper := caseless_of_small (by decide)

theorem caseless_isLetter : Caseless isLetter := caseless_of_small (by decide)

theorem caseless_capital : Caseless capital := caseless_of_small (by decide)

theorem caseless_isBlank : Caseless isBlank := caseless_of_small (by decide)

theorem caseless_isBreak : Caseless isBreak := caseless_of_small (by decide)

theorem caseless_digitValue? : Caseless digitValue? := caseless_of_small (by decide +kernel)

theorem caseless_isDigit : Caseless isDigit := fun c ↦ by
  rw [isDigit, caseless_digitValue?, isDigit]

theorem toUpper_of_not_isLetter (h : isLetter c = false) : c.toUpper = c := by
  have hc : ¬ ('a'.val ≤ c.val ∧ c.val ≤ 'z'.val) := by
    rintro ⟨hlow, hhigh⟩
    have hlow' : 0x61 ≤ c.toNat := hlow
    have hhigh' : c.toNat ≤ 0x7A := hhigh
    simp [isLetter, within, letterRanges, hlow', hhigh'] at h
  exact dif_neg hc

theorem toUpper_eq_iff (hd : isLetter d = false) : c.toUpper = d ↔ c = d := by
  constructor
  · rintro rfl
    rw [caseless_isLetter] at hd
    exact (toUpper_of_not_isLetter hd).symm
  · rintro rfl
    exact toUpper_of_not_isLetter hd

theorem caseless_ne (hd : isLetter d = false) : Caseless fun c ↦ decide (c ≠ d) := fun c ↦ by
  simp only [ne_eq, toUpper_eq_iff hd]

theorem Caseless.comp {γ : Type} (h : Caseless f) (g : β → γ) : Caseless (g ∘ f) :=
  fun c ↦ congrArg g (h c)

theorem Caseless.comp_toUpper (h : Caseless f) : f ∘ Char.toUpper = f := funext h

end Caseless

section Lists

variable {p : Char → Bool} (h : Caseless p) (t : Text)
include h

theorem takeWhile_upper : (upper t).takeWhile p = upper (t.takeWhile p) := by
  rw [upper, List.takeWhile_map, h.comp_toUpper, upper]

theorem dropWhile_upper : (upper t).dropWhile p = upper (t.dropWhile p) := by
  rw [upper, List.dropWhile_map, h.comp_toUpper, upper]

theorem find?_upper : (upper t).find? p = (t.find? p).map Char.toUpper := by
  rw [upper, List.find?_map, h.comp_toUpper]

theorem countP_upper : (upper t).countP p = t.countP p := by
  rw [upper, List.countP_map, h.comp_toUpper]

theorem all_upper : (upper t).all p = t.all p := by
  rw [upper, List.all_map, h.comp_toUpper]

end Lists

@[simp] theorem upper_upper (t : Text) : upper (upper t) = upper t := by
  rw [upper, upper, List.map_map, caseless_toUpper.comp_toUpper]

theorem head?_upper_eq_iff {d : Char} (hd : isLetter d = false) (t : Text) :
    (upper t).head? = some d ↔ t.head? = some d := by
  cases t with
  | nil => simp
  | cons c t => simp [toUpper_eq_iff hd]

theorem getLast?_upper_eq_iff {d : Char} (hd : isLetter d = false) (t : Text) :
    (upper t).getLast? = some d ↔ t.getLast? = some d := by
  rw [upper, List.getLast?_map, Option.map_eq_some_iff]
  simp [toUpper_eq_iff hd]

theorem upper_flatMap {β : Type} (f : β → Text) (bs : List β) :
    upper (bs.flatMap f) = bs.flatMap fun b ↦ upper (f b) := List.map_flatMap

theorem digitsToNat_upper (t : Text) : digitsToNat (upper t) = digitsToNat t := by
  have hfrom (n : Nat) : digitsFrom n (upper t) = digitsFrom n t := by
    induction t generalizing n with
    | nil => rfl
    | cons c t ih => rw [upper_cons, digitsFrom, digitsFrom, caseless_digitValue?, ih]
  exact hfrom 0

theorem trimEnd_upper (t : Text) : trimEnd (upper t) = upper (trimEnd t) := by
  simp only [trimEnd, dropEndWhile_eq, List.rdropWhile, upper, ← List.map_reverse,
    List.dropWhile_map, caseless_isBlank.comp_toUpper]

theorem trim_upper (t : Text) : trim (upper t) = upper (trim t) := by
  rw [trim, trimStart, dropWhile_upper caseless_isBlank, trimEnd_upper]
  rfl

theorem upper_join {sep : Char} (hs : isLetter sep = false) (ts : List Text) :
    upper (join [sep] ts) = join [sep] (ts.map upper) := by
  fun_induction join [sep] ts with
  | case1 => rfl
  | case2 t => rfl
  | case3 t ts hne ih =>
    obtain ⟨u, us, rfl⟩ := List.exists_cons_of_ne_nil hne
    rw [upper_append, upper_append, upper_cons, toUpper_of_not_isLetter hs, ih]
    rfl

theorem consFirst_upper (c : Char) (ts : List Text) :
    consFirst c.toUpper (ts.map upper) = (consFirst c ts).map upper := by
  cases ts <;> rfl

theorem cut_upper {sep : Char} (hs : isLetter sep = false) (t : Text) :
    cut sep (upper t) = (cut sep t).map upper := by
  induction t with
  | nil => rfl
  | cons c t ih =>
    rw [upper_cons, cut, cut, ih]
    simp only [toUpper_eq_iff hs]
    split
    · rfl
    · rw [consFirst_upper]

theorem lines_upper (t : Text) : lines (upper t) = (lines t).map upper := by
  have hpair {c : Char} {t : Text} (h : ∀ u, c = '\r' → t = '\n' :: u → False) :
      ∀ u, c.toUpper = '\r' → upper t = '\n' :: u → False := by
    intro u hc hu
    have hhead : t.head? = some '\n' := (head?_upper_eq_iff (by decide) t).1 (by simp [hu])
    obtain ⟨v, hv⟩ := List.head?_eq_some_iff.1 hhead
    exact h v ((toUpper_eq_iff (by decide)).1 hc) hv
  fun_induction lines t with
  | case1 => rfl
  | case2 t ih => exact congrArg ([] :: ·) ih
  | case3 c t hfeed hbreak ih =>
    rw [upper_cons, lines.eq_3 _ _ (hpair hfeed), caseless_isBreak, if_pos hbreak, ih]
    rfl
  | case4 c t hfeed hbreak ih =>
    rw [upper_cons, lines.eq_3 _ _ (hpair hfeed), caseless_isBreak, if_neg hbreak, ih,
      consFirst_upper]

end StepAndRepeat.Text
