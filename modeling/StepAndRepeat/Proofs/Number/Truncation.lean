import StepAndRepeat.Proofs.Number.Arithmetic
import StepAndRepeat.Proofs.Number.Digits

namespace StepAndRepeat

open Text

namespace Binary

variable {x : Float} {r : ℝ}

theorem trunc?_eq_none_iff : trunc? x = none ↔ ¬ IsFinite x := by
  unfold trunc? IsFinite
  cases magnitude x <;> simp

theorem Stores.not_isFinite_iff (h : Stores x r) : ¬ IsFinite x ↔ threshold ≤ |r| := by
  have hfin : IsFinite x ↔ stored r ≠ ⊤ ∧ stored r ≠ ⊥ := by
    rw [← h.extended_eq]
    refine ⟨fun hx ↦ ?_, fun hx ↦ isFinite_of_extended h.isNumber hx.1 hx.2⟩
    rw [extended_of_isFinite hx]
    exact ⟨EReal.coe_ne_top _, EReal.coe_ne_bot _⟩
  have hbot : stored r = ⊥ ↔ threshold ≤ -r := by
    rw [← stored_eq_top_iff, stored_neg, EReal.neg_eq_top_iff]
  rw [hfin, not_and_or, not_not, not_not, stored_eq_top_iff, hbot, le_abs]

theorem isNaN_iff : x.isNaN = true ↔ ¬ IsNumber x := by
  change (parts x).isNaN = true ↔ ¬ parts x ≠ .notANumber
  cases parts x <;> simp [Float.Model.UnpackedFloat.isNaN]

theorem parts_eq_infinity_iff {s : Float.Model.UnpackedFloat.Sign} :
    parts x = .infinity s ↔ x = Float.ofModel (.pack (.infinity s)) := by
  refine ⟨fun h ↦ ?_, fun h ↦ h ▸ parts_infinity s⟩
  rw [← h, ofParts_parts]

theorem infinite_iff : IsNumber x ∧ ¬ IsFinite x ↔ x = infinity ∨ x = -infinity := by
  have hinfinity (s : Float.Model.UnpackedFloat.Sign) (h : parts x = .infinity s) :
      IsNumber x ∧ ¬ IsFinite x :=
    ⟨by simp [IsNumber, h], fun hfin ↦ (parts_ne hfin).2 s h⟩
  constructor
  · rintro ⟨hnum, hfin⟩
    rcases parts_of_not_isFinite hfin with hp | ⟨s, hp⟩
    · exact absurd hp hnum
    · cases s with
      | positive => exact .inl (parts_eq_infinity_iff.1 hp)
      | negative => exact .inr (parts_eq_infinity_iff.1 hp)
  · rintro (h | h)
    · exact hinfinity .positive (parts_eq_infinity_iff.2 h)
    · exact hinfinity .negative (parts_eq_infinity_iff.2 h)

theorem ofInt?_eq_none_iff {n : ℤ} : ofInt? n = none ↔ threshold ≤ |(n : ℝ)| := by
  rw [← (stores_ofInt n).not_isFinite_iff]
  have hinf : (ofInt n).isInf = (parts (ofInt n)).isInf := rfl
  have hfin : (ofInt n).isInf = true ↔ ¬ IsFinite (ofInt n) := by
    rw [hinf]
    refine ⟨fun h hfin ↦ ?_, fun h ↦ ?_⟩
    · cases hp : parts (ofInt n) with
      | infinity s => exact (parts_ne hfin).2 s hp
      | _ => simp [hp, Float.Model.UnpackedFloat.isInf] at h
    · rcases parts_of_not_isFinite h with hp | ⟨s, hp⟩
      · exact absurd hp (stores_ofInt n).isNumber
      · rw [hp]
        rfl
  rw [← hfin]
  unfold ofInt?
  split <;> simp_all

/-- A numeral has a whole part unless it is too large. -/
theorem trunc?_ofNumeral_iff (n : Numeral) :
    trunc? (Coordinate.ofNumeral n) = none ↔ threshold ≤ (n.digits : ℝ) / 10 ^ n.places := by
  have hvalue : |(Coordinate.ofNumeral n : ℝ)| = (n.digits : ℝ) / 10 ^ n.places := by
    change |(if n.negative then (-1 : ℝ) else 1) * n.digits / 10 ^ n.places| = _
    rw [abs_div, abs_mul, Nat.abs_cast, abs_of_pos (by positivity : (0 : ℝ) < 10 ^ n.places)]
    split <;> simp
  rw [trunc?_eq_none_iff, (stores_ofNumeral n).not_isFinite_iff, hvalue]

theorem ten_pow_lt_threshold : (10 : ℝ) ^ 308 < threshold := by
  have hnat : 10 ^ 308 + 2 ^ 970 < 2 ^ 1024 := by decide +kernel
  have hreal : (10 : ℝ) ^ 308 + 2 ^ 970 < 2 ^ 1024 := by
    rw [← Nat.cast_lt (α := ℝ)] at hnat
    rwa [Nat.cast_add, Nat.cast_pow, Nat.cast_pow, Nat.cast_pow, Nat.cast_ofNat,
      Nat.cast_ofNat] at hnat
  have hbound : bound = 2 ^ 1024 := zpow_natCast (2 : ℝ) 1024
  have hunit : (2 : ℝ) ^ (970 : ℤ) = 2 ^ 970 := zpow_natCast (2 : ℝ) 970
  rw [threshold_def, hbound, hunit]
  exact lt_sub_iff_add_lt.2 hreal

theorem length_of_trunc? {t : Text} (h : trunc? (Coordinate.ofNumeral (.ofText t)) = none) :
    308 < t.length := by
  have hlarge := (trunc?_ofNumeral_iff (.ofText t)).1 h
  have hdigits : (Numeral.ofText t).digits < 10 ^ t.length := by
    have hlt := digitsFrom_lt 0 t
    rwa [Nat.zero_add, Nat.one_mul] at hlt
  have hpow : (10 : ℝ) ^ 308 < 10 ^ t.length :=
    calc (10 : ℝ) ^ 308 < threshold := ten_pow_lt_threshold
      _ ≤ (Numeral.ofText t).digits / 10 ^ (Numeral.ofText t).places := hlarge
      _ ≤ (Numeral.ofText t).digits :=
        div_le_self (Nat.cast_nonneg _) (one_le_pow₀ (by norm_num))
      _ < 10 ^ t.length := by exact_mod_cast hdigits
  exact (pow_lt_pow_iff_right₀ (by norm_num : (1 : ℝ) < 10)).1 hpow

end Binary

end StepAndRepeat
