import Mathlib.Algebra.Order.Floor.Semiring
import Mathlib.Analysis.SpecialFunctions.Complex.Arg
import StepAndRepeat.Extent.Arc
import StepAndRepeat.Proofs.Number.Decimals
import StepAndRepeat.Proofs.Program.Reading

namespace StepAndRepeat

namespace Numeral

open Text

theorem digitsToNat_padded (places n : Nat) : digitsToNat (padded places n) = n := by
  rw [digitsToNat, digitsFrom_eq fun c hc ↦ isDigit_of_mem_padded hc, padded,
    Nat.ofDigitChars_append, Nat.ofDigitChars_replicate_zero, Nat.mul_zero, Text.ofNat,
    Nat.ofDigitChars_ten_toDigits]

theorem ofText_signed_pointed {places : Nat} (hp : 0 < places) (negative : Bool) (n : Nat) :
    Numeral.ofText (Binary.signed negative (pointed places n)) = ⟨negative, n, places⟩ := by
  have hlen := lt_length_padded places n
  have hd := digitsToNat_padded places n
  have hcut := List.take_append_drop ((padded places n).length - places) (padded places n)
  have hdrop : ((padded places n).drop ((padded places n).length - places)).length = places := by
    rw [List.length_drop]
    omega
  have hdigit : ∀ c ∈ padded places n, c.isDigit = true := fun c hc ↦ isDigit_of_mem_padded hc
  rw [pointed_eq hp]
  generalize (padded places n).take ((padded places n).length - places) = whole at *
  generalize (padded places n).drop ((padded places n).length - places) = rest at *
  rw [← hcut] at hd hdigit hlen
  have hw : ∀ c ∈ whole, c.isDigit = true := fun c hc ↦ hdigit c (List.mem_append_left _ hc)
  have hr : ∀ c ∈ rest, c.isDigit = true := fun c hc ↦ hdigit c (List.mem_append_right _ hc)
  have hdigits : digitsToNat (whole ++ '.' :: rest) = n := by
    rw [digitsToNat, digitsFrom_append, digitsFrom_cons_of_not (by decide), ← digitsFrom_append]
    exact hd
  have hplaces : ((whole ++ '.' :: rest).dropWhile (· ≠ '.')).countP isDigit = places := by
    rw [List.dropWhile_append_of_pos, List.dropWhile_cons_of_neg (by decide),
      List.countP_cons_of_neg (by decide), countP_isDigit hr, hdrop]
    intro c hc
    apply decide_eq_true
    intro h
    exact absurd (hw c hc) (h ▸ by decide)
  cases negative with
  | true =>
    have hdash : digitsToNat ('-' :: (whole ++ '.' :: rest)) = n := by
      rw [digitsToNat, digitsFrom_cons_of_not (by decide)]
      exact hdigits
    have hskip : (('-' :: (whole ++ '.' :: rest)).dropWhile (· ≠ '.')).countP isDigit = places := by
      rw [List.dropWhile_cons_of_pos (by decide)]
      exact hplaces
    rw [Binary.signed, if_pos rfl, ofText, hdash, hskip]
    rfl
  | false =>
    rw [Binary.signed, if_neg (by decide), ofText, hdigits, hplaces]
    congr 1
    cases whole with
    | nil =>
      rw [List.nil_append, hdrop] at hlen
      exact absurd hlen (Nat.lt_irrefl _)
    | cons c whole =>
      apply decide_eq_false
      intro h
      rw [List.cons_append, List.head?_cons, Option.some_inj] at h
      exact absurd (hw c (by simp)) (h ▸ by decide)

end Numeral

noncomputable section

/-- The natural number nearest to a number, ties to even. -/
def nearest (x : ℝ) : ℕ :=
  if x - ⌊x⌋₊ < 1 / 2 then ⌊x⌋₊
  else if 1 / 2 < x - ⌊x⌋₊ then ⌊x⌋₊ + 1
  else if ⌊x⌋₊ % 2 = 0 then ⌊x⌋₊ else ⌊x⌋₊ + 1

theorem nearest_natCast (n : ℕ) : nearest n = n := by
  rw [nearest, Nat.floor_natCast, sub_self, if_pos (by norm_num)]

def towardZero (x : ℝ) : ℤ := if x < 0 then ⌈x⌉ else ⌊x⌋

instance : Coordinate ℝ where
  ofInt n := n
  ofNumeral n := (if n.negative then -1 else 1) * n.digits / 10 ^ n.places
  lt a b := decide (a < b)
  le a b := decide (a ≤ b)
  same a b := decide (a = b)
  fixed places x :=
    Binary.signed (decide (x < 0)) (pointed places (nearest (|x| * 10 ^ places)))
  trunc? x := some (towardZero x)
  belowTop _ := true
  aboveBottom _ := true

instance : Circular ℝ where
  pi := Real.pi
  sin := Real.sin
  cos := Real.cos
  angle y x := Complex.arg ⟨x, y⟩
  radius x y := √(x ^ 2 + y ^ 2)
  remainder x y := x - y * towardZero (x / y)
  isInfinite _ := false

instance : OneLine ℝ where
  unbroken_fixed places _ := unbroken_signed (unbroken_pointed places _) _

theorem decimal_fixed_real (x : ℝ) : Numeral.Decimal (Coordinate.fixed 3 x) :=
  Numeral.decimal_pointed (by decide) _ _

/-- A number with no more places than are written is read back as it was. -/
theorem ofNumeral_fixed {places : Nat} (hp : 0 < places) {x : ℝ} {n : ℕ}
    (h : |x| * 10 ^ places = n) :
    Coordinate.ofNumeral (.ofText (Coordinate.fixed places x)) = x := by
  have hpow : (10 : ℝ) ^ places ≠ 0 := by positivity
  have habs : |x| = n / 10 ^ places := by rw [← h, mul_div_cancel_right₀ _ hpow]
  have hfixed : Coordinate.fixed places x =
      Binary.signed (decide (x < 0)) (pointed places n) := by
    change Binary.signed (decide (x < 0)) (pointed places (nearest (|x| * 10 ^ places))) = _
    rw [h, nearest_natCast]
  rw [hfixed, Numeral.ofText_signed_pointed hp]
  change (if decide (x < 0) = true then (-1 : ℝ) else 1) * n / 10 ^ places = x
  rw [mul_div_assoc, ← habs]
  simp only [decide_eq_true_eq]
  split
  next hx => rw [abs_of_neg hx, neg_one_mul, neg_neg]
  next hx => rw [abs_of_nonneg (not_lt.1 hx), one_mul]

def whole (n : ℕ) : ℝ := Coordinate.ofNumeral (.ofNat n)

theorem whole_eq (n : ℕ) : whole n = n := by
  change (1 : ℝ) * n / 10 ^ 0 = n
  simp

theorem isNat_whole (n m : ℕ) : Coordinate.isNat n (whole m) = decide (m = n) := by
  change decide (whole m = whole n) = decide (m = n)
  rw [whole_eq, whole_eq]
  simp

theorem ofNumeral_fixed_whole (n m : ℕ) :
    Coordinate.ofNumeral (.ofText (Coordinate.fixed 3 (whole n + whole m))) =
      whole n + whole m := by
  refine ofNumeral_fixed (by decide) (n := (n + m) * 1000) ?_
  rw [whole_eq, whole_eq, abs_of_nonneg (by positivity)]
  push_cast
  ring

namespace Line

theorem exists_readAt (i : Nat) (t : Text) : ∃ l : Line ℝ, readAt i t = .ok l := by
  have htool (ws : List (Word ℝ)) : ∃ tool, toolOf ws = .ok tool := by
    unfold toolOf
    split
    · exact ⟨_, rfl⟩
    · split
      · exact ⟨_, rfl⟩
      · exact ⟨_, rfl⟩
  unfold readAt
  split
  · obtain ⟨tool, h⟩ := htool (Word.ofLine t)
    dsimp only
    rw [h]
    exact ⟨_, rfl⟩
  · exact ⟨_, rfl⟩

theorem exists_readFrom (i : Nat) (ts : List Text) :
    ∃ ls : List (Line ℝ), readFrom i ts = .ok ls :=
  exists_readFrom_of_forall (fun t _ ↦ exists_readAt 0 t) i

theorem exists_readAll (program : Text) : ∃ ls : List (Line ℝ), readAll program = .ok ls :=
  exists_readFrom 0 _

end Line

theorem Word.isCode_whole (c d : Char) (n m start stop : ℕ) :
    (⟨c, whole n, start, stop⟩ : Word ℝ).isCode d m = (decide (c = d) && decide (n = m)) := by
  rw [isCode, isNat_whole]

end

end StepAndRepeat
