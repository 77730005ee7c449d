import StepAndRepeat.Number.Coordinate
import StepAndRepeat.Proofs.Number.Numerals
import StepAndRepeat.Proofs.Text.Lines

namespace StepAndRepeat

namespace Text

def isNumeric (c : Char) : Bool := c.isDigit || c = '.' || c = '-'

theorem isBreak_of_isNumeric {c : Char} (h : isNumeric c = true) : isBreak c = false := by
  have hn : ∀ r ∈ breakRanges, r.2 < 0x20 ∨ 0x80 ≤ r.1 := by decide
  have hc : 0x20 ≤ c.toNat ∧ c.toNat < 0x80 := by
    simp only [isNumeric, Bool.or_eq_true, decide_eq_true_eq] at h
    rcases h with (h | rfl) | rfl
    · simp only [Char.isDigit, Bool.and_eq_true, decide_eq_true_eq] at h
      have h₁ : 48 ≤ c.toNat := h.1
      have h₂ : c.toNat ≤ 57 := h.2
      omega
    · decide
    · decide
  rw [isBreak, within, List.any_eq_false]
  intro r hr
  have := hn r hr
  simp only [Bool.and_eq_true, decide_eq_true_eq]
  omega

theorem isDigit_of_mem_ofNat {n : Nat} {c : Char} (h : c ∈ ofNat n) : c.isDigit = true :=
  Nat.isDigit_of_mem_toDigits (by decide) (by decide) h

theorem unbroken_ofNat (n : Nat) : Unbroken (ofNat n) := fun c hc ↦
  isBreak_of_isNumeric (by simp [isNumeric, isDigit_of_mem_ofNat hc])

theorem unbroken_ofInt (n : Int) : Unbroken (ofInt n) := by
  unfold ofInt
  split
  · exact unbroken_cons.2 ⟨by decide, unbroken_ofNat _⟩
  · exact unbroken_ofNat _

theorem digitValue?_of_isDigit {c : Char} (h : c.isDigit = true) :
    digitValue? c = some (c.toNat - 48) := by
  simp only [Char.isDigit, Bool.and_eq_true, decide_eq_true_eq] at h
  have h₁ : 48 ≤ c.toNat := h.1
  have h₂ : c.toNat ≤ 57 := h.2
  have hz : zeros.find? (fun z ↦ z ≤ c.toNat && c.toNat < z + 10) = some 48 := by
    rw [zeros, List.find?_cons_of_pos]
    simp only [Bool.and_eq_true, decide_eq_true_eq]
    omega
  rw [digitValue?, hz, Option.map_some]

theorem digitsFrom_cons_of_not {c : Char} (h : digitValue? c = none) (n : Nat) (t : Text) :
    digitsFrom n (c :: t) = digitsFrom n t := by
  rw [digitsFrom, h]

theorem digitsFrom_append (n : Nat) (t u : Text) :
    digitsFrom n (t ++ u) = digitsFrom (digitsFrom n t) u := by
  induction t generalizing n with
  | nil => rfl
  | cons c t ih => exact ih _

theorem digitsFrom_eq {t : Text} (h : ∀ c ∈ t, c.isDigit = true) (n : Nat) :
    digitsFrom n t = Nat.ofDigitChars 10 t n := by
  induction t generalizing n with
  | nil => rfl
  | cons c t ih =>
    rw [digitsFrom, digitValue?_of_isDigit (h c (by simp)), ih fun d hd ↦ h d (by simp [hd]),
      Nat.ofDigitChars_cons]
    rfl

theorem countP_isDigit {t : Text} (h : ∀ c ∈ t, c.isDigit = true) :
    t.countP isDigit = t.length :=
  List.countP_eq_length.2 fun c hc ↦ isDigit_of_isDigit (h c hc)

theorem digitsToNat_ofNat (n : Nat) : digitsToNat (ofNat n) = n := by
  rw [digitsToNat, digitsFrom_eq fun c hc ↦ isDigit_of_mem_ofNat hc, ofNat,
    Nat.ofDigitChars_ten_toDigits]

end Text

namespace Numeral

open Text

theorem ofText_ofInt (n : Int) : ofText (ofInt n) = ⟨decide (n < 0), n.natAbs, 0⟩ := by
  have hdigit : ∀ c ∈ Text.ofNat n.natAbs, c ≠ '.' ∧ c ≠ '-' := by
    intro c hc
    have hd := isDigit_of_mem_ofNat hc
    constructor <;> rintro rfl <;> exact absurd hd (by decide)
  have hdrop : (Text.ofNat n.natAbs).dropWhile (· ≠ '.') = [] := by
    rw [← List.append_nil (Text.ofNat n.natAbs), List.dropWhile_append_of_pos]
    · rfl
    · intro c hc
      exact decide_eq_true (hdigit c hc).1
  unfold ofInt
  split
  next hn =>
    rw [ofText, List.dropWhile_cons_of_pos (by decide), hdrop, digitsToNat,
      digitsFrom_cons_of_not (by decide), ← digitsToNat, digitsToNat_ofNat, decide_eq_true hn]
    rfl
  next hn =>
    have hhead : (Text.ofNat n.natAbs).head? ≠ some '-' := fun h ↦
      (hdigit '-' (List.mem_of_head? h)).2 rfl
    rw [ofText, hdrop, digitsToNat_ofNat, decide_eq_false hn, decide_eq_false hhead]
    rfl

/-- Digits around a point behind an optional minus, with a digit before the point. -/
def Decimal (t : Text) : Prop :=
  ∃ negative whole places, t = Binary.signed negative (whole ++ '.' :: places) ∧ whole ≠ [] ∧
    (∀ c ∈ whole, c.isDigit = true) ∧ ∀ c ∈ places, c.isDigit = true

def padded (places n : Nat) : Text :=
  List.replicate (places + 1 - (Text.ofNat n).length) '0' ++ Text.ofNat n

theorem isDigit_of_mem_padded {places n : Nat} {c : Char} (h : c ∈ padded places n) :
    c.isDigit = true := by
  rcases List.mem_append.1 h with h | h
  · rw [(List.mem_replicate.1 h).2]
    decide
  · exact isDigit_of_mem_ofNat h

theorem lt_length_padded (places n : Nat) : places < (padded places n).length := by
  rw [padded, List.length_append, List.length_replicate]
  omega

theorem pointed_eq {places : Nat} (hp : 0 < places) (n : Nat) :
    pointed places n = (padded places n).take ((padded places n).length - places) ++
      '.' :: (padded places n).drop ((padded places n).length - places) := by
  rw [pointed, if_neg (by omega)]
  rfl

theorem decimal_pointed {places : Nat} (hp : 0 < places) (negative : Bool) (n : Nat) :
    Decimal (Binary.signed negative (pointed places n)) := by
  have hl := lt_length_padded places n
  rw [pointed_eq hp]
  refine ⟨negative, _, _, rfl, fun hn ↦ ?_,
    fun c hc ↦ isDigit_of_mem_padded (List.mem_of_mem_take hc),
    fun c hc ↦ isDigit_of_mem_padded (List.mem_of_mem_drop hc)⟩
  rcases List.take_eq_nil_iff.1 hn with h | h
  · omega
  · rw [h, List.length_nil] at hl
    omega

theorem Decimal.shape {t : Text} (h : Decimal t) : Shape t true := by
  obtain ⟨negative, whole, places, rfl, hne, hw, hp⟩ := h
  have hu : Unsigned (whole ++ '.' :: places) true :=
    .pointed (.inl hne) (fun c hc ↦ isDigit_of_isDigit (hw c hc))
      fun c hc ↦ isDigit_of_isDigit (hp c hc)
  cases negative with
  | true => exact .signed (by decide) hu
  | false => exact .unsigned hu

theorem Decimal.isNumeric {t : Text} (h : Decimal t) : ∀ c ∈ t, isNumeric c = true := by
  obtain ⟨negative, whole, places, rfl, -, hw, hp⟩ := h
  have hu : ∀ c ∈ whole ++ '.' :: places, Text.isNumeric c = true := by
    intro c hc
    rcases List.mem_append.1 hc with h | h
    · simp [Text.isNumeric, hw c h]
    · rcases List.mem_cons.1 h with rfl | h
      · decide
      · simp [Text.isNumeric, hp c h]
  cases negative with
  | true =>
    intro c hc
    rcases List.mem_cons.1 hc with rfl | hc
    · decide
    · exact hu c hc
  | false => exact hu

end Numeral

section OneLine

open Text

/-- Numbers are written without line ends. -/
class OneLine (α : Type) [Coordinate α] : Prop where
  unbroken_fixed : ∀ (places : Nat) (x : α), Text.Unbroken (Coordinate.fixed places x)

theorem unbroken_signed {t : Text} (h : Unbroken t) (negative : Bool) :
    Unbroken (Binary.signed negative t) := by
  cases negative with
  | true => exact unbroken_cons.2 ⟨by decide, h⟩
  | false => exact h

theorem unbroken_pointed (places n : Nat) : Unbroken (pointed places n) := by
  have hds : Unbroken (Numeral.padded places n) := fun c hc ↦
    isBreak_of_isNumeric (by simp [isNumeric, Numeral.isDigit_of_mem_padded hc])
  by_cases hp : 0 < places
  · rw [Numeral.pointed_eq hp]
    exact unbroken_append.2 ⟨hds.mono (List.take_subset _ _),
      unbroken_cons.2 ⟨by decide, hds.mono (List.drop_subset _ _)⟩⟩
  · rw [pointed, if_pos (by omega)]
    exact hds

theorem unbroken_nan : Unbroken Binary.nanText := by decide

theorem unbroken_inf : Unbroken Binary.infText := by decide

instance : OneLine Float where
  unbroken_fixed places x := by
    change Unbroken (Binary.fixed places x)
    unfold Binary.fixed
    split
    · exact unbroken_nan
    · exact unbroken_signed unbroken_inf _
    · exact unbroken_signed (unbroken_pointed _ _) _

theorem decimal_fixed {x : Float} {m : Nat} {q : Int} (h : Binary.magnitude x = .finite m q) :
    Numeral.Decimal (Coordinate.fixed 3 x) := by
  change Numeral.Decimal (Binary.fixed 3 x)
  rw [Binary.fixed, h]
  exact Numeral.decimal_pointed (by decide) _ _

end OneLine

namespace Binary

def IsFinite (x : Float) : Prop := ∃ m q, magnitude x = .finite m q

instance (x : Float) : Decidable (IsFinite x) :=
  match h : magnitude x with
  | .finite m q => .isTrue ⟨m, q, h⟩
  | .infinite => .isFalse fun ⟨_, _, he⟩ ↦ nomatch h.symm.trans he
  | .nan => .isFalse fun ⟨_, _, he⟩ ↦ nomatch h.symm.trans he

end Binary

end StepAndRepeat
