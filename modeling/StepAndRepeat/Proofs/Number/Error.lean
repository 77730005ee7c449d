import StepAndRepeat.Proofs.Number.Magnitude

namespace StepAndRepeat.Binary

noncomputable section

variable {x : Float} {r : ℝ}

section Bits

theorem abs_nearest_sub_le {v : ℝ} (h : 0 ≤ v) : |(nearest v : ℝ) - v| ≤ 1 / 2 := by
  have hle := Nat.floor_le h
  have hlt := Nat.lt_floor_add_one v
  unfold nearest
  rw [abs_le]
  split_ifs <;> push_cast <;> constructor <;> linarith

theorem half_lastBit_le (hr : 0 < r) :
    1 / 2 * (2 : ℝ) ^ lastBit r ≤ 2 ^ (-53 : ℤ) * r + 2 ^ (-1075 : ℤ) := by
  have hhalf (e : ℤ) : 1 / 2 * (2 : ℝ) ^ e = 2 ^ (e - 1) := by
    rw [zpow_sub_one₀ two_ne_zero]
    ring
  rw [hhalf]
  rcases (least_le_lastBit r).eq_or_lt with hleast | hlt
  · rw [← hleast]
    have hpart : (0 : ℝ) ≤ 2 ^ (-53 : ℤ) * r := by positivity
    norm_num at hpart ⊢
    linarith
  · have hlarge := two_zpow_le hr hlt
    calc (2 : ℝ) ^ (lastBit r - 1) = 2 ^ (-53 : ℤ) * 2 ^ (lastBit r + (52 : ℕ)) := by
          rw [← zpow_add₀ two_ne_zero]
          congr 1
          push_cast
          ring
      _ ≤ 2 ^ (-53 : ℤ) * r := mul_le_mul_of_nonneg_left hlarge (two_zpow_pos _).le
      _ ≤ 2 ^ (-53 : ℤ) * r + 2 ^ (-1075 : ℤ) := le_add_of_nonneg_right (two_zpow_pos _).le

theorem abs_rounded_sub_le (hr : 0 ≤ r) :
    |rounded r - r| ≤ 2 ^ (-53 : ℤ) * r + 2 ^ (-1075 : ℤ) := by
  rcases hr.eq_or_lt with rfl | hpos
  · rw [rounded_zero, sub_zero, abs_zero]
    positivity
  have hp := two_zpow_pos (lastBit r)
  have hv : 0 ≤ r / 2 ^ lastBit r := div_nonneg hr hp.le
  have hsplit : rounded r - r = ((nearest (r / 2 ^ lastBit r) : ℝ) - r / 2 ^ lastBit r) *
      2 ^ lastBit r := by
    rw [rounded_def, digits_def, sub_mul, div_mul_cancel₀ r hp.ne']
  rw [hsplit, abs_mul, abs_of_pos hp]
  exact (mul_le_mul_of_nonneg_right (abs_nearest_sub_le hv) hp.le).trans (half_lastBit_le hpos)

theorem abs_rounding_sub_le (r : ℝ) :
    |rounding r - r| ≤ 2 ^ (-53 : ℤ) * |r| + 2 ^ (-1075 : ℤ) := by
  rcases le_or_gt 0 r with hr | hr
  · rw [rounding_of_nonneg hr, abs_of_nonneg hr]
    exact abs_rounded_sub_le hr
  · have hflip : rounding r - r = -(rounded (-r) - -r) := by
      rw [rounding, if_pos hr]
      ring
    rw [hflip, abs_neg, abs_of_neg hr]
    exact abs_rounded_sub_le (neg_nonneg.2 hr.le)

theorem stored_of_abs_lt (h : |r| < threshold) : stored r = rounding r := by
  obtain ⟨hlow, hhigh⟩ := abs_lt.1 h
  rw [stored, overflow_of_abs_lt]
  rcases le_or_gt 0 r with hr | hr
  · rw [rounding_of_nonneg hr, abs_of_nonneg (rounded_nonneg r)]
    exact rounded_lt_bound hr hhigh
  · rw [rounding, if_pos hr, abs_neg, abs_of_nonneg (rounded_nonneg _)]
    exact rounded_lt_bound (neg_nonneg.2 hr.le) (neg_lt.1 hlow)

theorem Stores.abs_value_sub_le (h : Stores x r) (hr : |r| < threshold) :
    IsFinite x ∧ |value x - r| ≤ 2 ^ (-53 : ℤ) * |r| + 2 ^ (-1075 : ℤ) := by
  obtain ⟨hfin, hvalue⟩ := h.value_eq (stored_of_abs_lt hr)
  exact ⟨hfin, hvalue ▸ abs_rounding_sub_le r⟩

theorem lt_threshold (h : |r| ≤ 2 ^ 60) : |r| < threshold :=
  calc |r| ≤ 2 ^ 60 := h
    _ ≤ 10 ^ 60 := pow_le_pow_left₀ two_pos.le (by norm_num) 60
    _ ≤ 10 ^ 308 := pow_le_pow_right₀ (by norm_num) (by norm_num)
    _ < threshold := ten_pow_lt_threshold

/-- What is stored of a number up to a bound misses it by no more than a small part of the bound. -/
theorem Stores.abs_value_sub_le_of_le {w : ℝ} (h : Stores x r) (hr : |r| ≤ w) (hlow : 1 ≤ w)
    (hhigh : w ≤ 2 ^ 60) : IsFinite x ∧ |value x - r| ≤ w / 2 ^ 52 := by
  obtain ⟨hfin, hnear⟩ := h.abs_value_sub_le (lt_threshold (hr.trans hhigh))
  have hleast : (2 : ℝ) ^ (-1075 : ℤ) ≤ 2 ^ (-53 : ℤ) := two_zpow_mono (by decide)
  refine ⟨hfin, ?_⟩
  calc |value x - r| ≤ 2 ^ (-53 : ℤ) * |r| + 2 ^ (-1075 : ℤ) := hnear
    _ ≤ 2 ^ (-53 : ℤ) * w + 2 ^ (-53 : ℤ) * w := by
      have hpart := mul_le_mul_of_nonneg_left hr (two_zpow_pos (-53)).le
      have hwhole := mul_le_mul_of_nonneg_left hlow (two_zpow_pos (-53)).le
      linarith
    _ = w / 2 ^ 52 := by
      norm_num
      ring

end Bits

section Decimals

theorem abs_roundDiv_sub_le (n : ℕ) {d : ℕ} (hd : 0 < d) :
    |(roundDiv n d : ℝ) - n / d| ≤ 1 / 2 := by
  obtain ⟨hlow, hhigh⟩ := roundDiv_near n d hd
  have hpos : (0 : ℝ) < d := by exact_mod_cast hd
  have hlow' : (2 : ℝ) * n ≤ 2 * d * roundDiv n d + d := by exact_mod_cast hlow
  have hhigh' : (2 : ℝ) * d * roundDiv n d ≤ 2 * n + d := by exact_mod_cast hhigh
  have hsplit : (roundDiv n d : ℝ) - n / d = (d * roundDiv n d - n) / d := by field_simp
  rw [hsplit, abs_div, abs_of_pos hpos, div_le_iff₀ hpos, abs_le]
  constructor <;> linarith

theorem abs_scaled_sub_le (places m : ℕ) (q : ℤ) :
    |(scaled places m q : ℝ) - m * 2 ^ q * 10 ^ places| ≤ 1 / 2 := by
  unfold scaled
  split
  next hq =>
    have hpow : (2 : ℝ) ^ q = (2 ^ q.natAbs)⁻¹ := by
      rw [← zpow_natCast, ← zpow_neg, Int.ofNat_natAbs_of_nonpos hq.le, neg_neg]
    have hquotient : ((m * 10 ^ places : ℕ) : ℝ) / (2 ^ q.natAbs : ℕ) =
        m * 2 ^ q * 10 ^ places := by
      rw [hpow]
      push_cast
      ring
    rw [← hquotient]
    exact abs_roundDiv_sub_le _ (Nat.two_pow_pos _)
  next hq =>
    have hpow : (2 : ℝ) ^ q = 2 ^ q.natAbs := by
      rw [← zpow_natCast, Int.natAbs_of_nonneg (not_lt.1 hq)]
    have hexact : ((m * Nat.pow 2 q.natAbs * Nat.pow 10 places : ℕ) : ℝ) =
        m * 2 ^ q * 10 ^ places := by
      rw [hpow]
      change ((m * 2 ^ q.natAbs * 10 ^ places : ℕ) : ℝ) = _
      push_cast
      rfl
    rw [hexact, sub_self, abs_zero]
    norm_num

def units (n : Numeral) : ℤ := if n.negative then -n.digits else n.digits

theorem ofNumeral_eq (n : Numeral) :
    (Coordinate.ofNumeral n : ℝ) = units n / 10 ^ n.places := by
  change (if n.negative then -1 else 1) * (n.digits : ℝ) / 10 ^ n.places = _
  unfold units
  split <;> simp

/-- A finite number is rounded to the decimal nearest to its value. -/
theorem exists_roundTo (h : IsFinite x) (places : ℕ) : ∃ n : ℕ,
    roundTo places x = Coordinate.ofNumeral ⟨isNegative x, n, places⟩ ∧
      |(units ⟨isNegative x, n, places⟩ : ℝ) - value x * 10 ^ places| ≤ 1 / 2 := by
  obtain ⟨m, q, hm⟩ := h
  refine ⟨scaled places m q, by rw [roundTo, hm]; rfl, ?_⟩
  have hnear := abs_scaled_sub_le places m q
  rw [value_of_magnitude hm, side, units]
  cases isNegative x with
  | false => simpa [onSide] using hnear
  | true =>
    rw [← abs_neg] at hnear
    convert hnear using 2
    simp [onSide]
    ring

end Decimals

end

end StepAndRepeat.Binary
