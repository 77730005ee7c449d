import StepAndRepeat.Grid.Plan
import StepAndRepeat.Proofs.Number.Arithmetic
import StepAndRepeat.Proofs.Number.Places

namespace StepAndRepeat.Layout

open Binary

section Counts

theorem extended_ofInt (n : ℤ) : extended (ofInt n) = stored n := (stores_ofInt n).extended_eq

theorem value_ofInt_mono {k n : ℤ} (hk : 0 ≤ k) (h : k ≤ n) (hn : IsFinite (ofInt n)) :
    IsFinite (ofInt k) ∧ 0 ≤ value (ofInt k) ∧ value (ofInt k) ≤ value (ofInt n) := by
  have hlow : 0 ≤ extended (ofInt k) := by
    rw [extended_ofInt]
    exact stored_nonneg (by exact_mod_cast hk)
  have hhigh : extended (ofInt k) ≤ value (ofInt n) := by
    rw [← extended_of_isFinite hn, extended_ofInt, extended_ofInt]
    exact stored_mono (by exact_mod_cast h)
  have hfin : IsFinite (ofInt k) := isFinite_of_extended (stores_ofInt k).isNumber
    (hhigh.trans_lt (EReal.coe_lt_top _)).ne (bot_lt_iff_ne_bot.1 (EReal.bot_lt_zero.trans_le hlow))
  rw [extended_of_isFinite hfin] at hlow hhigh
  exact ⟨hfin, by exact_mod_cast hlow, by exact_mod_cast hhigh⟩

theorem value_one : IsFinite (ofInt 1) ∧ value (ofInt 1) = 1 := by
  have hone := stores_ofInt 1
  rw [Int.cast_one] at hone
  refine hone.value_eq ?_
  have h := stored_two_zpow (e := 0) (by decide) (by decide)
  rwa [zpow_zero] at h

theorem one_le_value_ofInt {n : ℤ} (h : 0 < n) (hn : IsFinite (ofInt n)) :
    1 ≤ value (ofInt n) := by
  have hle := (value_ofInt_mono zero_le_one (by omega : 1 ≤ n) hn).2.2
  rwa [value_one.2] at hle

end Counts

section Row

variable {w g : Float} {n : ℕ}

/-- Parts in a row, as wide as `w` and with gaps of `g` between them, whose spacing does not pass
for zero or less. -/
structure Row (n : ℕ) (w g : Float) : Prop where
  many : 1 < n
  wide : IsNumber w ∧ 0 ≤ extended w
  apart : Coordinate.le (w + g) Coordinate.zero = false
  counts : IsFinite (ofInt n)

variable (r : Row n w g)

def Row.length (n : ℕ) (w g : Float) : Float := span (ofInt n) (ofInt ((n : ℤ) - 1)) w g

include r

theorem Row.value_counts : 1 ≤ value (ofInt n) ∧ IsFinite (ofInt ((n : ℤ) - 1)) ∧
    1 ≤ value (ofInt ((n : ℤ) - 1)) ∧ value (ofInt ((n : ℤ) - 1)) ≤ value (ofInt n) := by
  have hmany := r.many
  obtain ⟨hfin, -, hle⟩ := value_ofInt_mono (by omega : (0 : ℤ) ≤ n - 1) (by omega) r.counts
  exact ⟨one_le_value_ofInt (by omega) r.counts, hfin, one_le_value_ofInt (by omega) hfin, hle⟩

theorem Row.extended_pos (h : IsNumber (w + g)) : 0 < extended (w + g) := by
  have hnum : IsNumber (Coordinate.zero : Float) := (stores_ofInt 0).isNumber
  have hzero : extended (Coordinate.zero : Float) = 0 := by
    change extended (ofInt 0) = 0
    rw [extended_ofInt, Int.cast_zero, stored_zero]
  rw [← hzero, ← extended_lt_iff hnum h]
  by_contra hle
  exact of_decide_eq_false r.apart (le_of_not_lt h hnum hle)

theorem Row.isFinite (hnum : IsNumber (Row.length n w g)) (htop : extended (Row.length n w g) ≠ ⊤) :
    IsFinite w ∧ IsFinite g ∧ extended (ofInt n * w) ≠ ⊤ ∧
      extended (ofInt ((n : ℤ) - 1) * g) ≠ ⊤ := by
  obtain ⟨hN, hcount, hM, -⟩ := r.value_counts
  obtain ⟨-, hgaps⟩ := isNumber_of_add hnum
  -- an infinite summand makes the length infinite
  have hsum (h : parts (ofInt n * w) = .infinity .positive ∨
      parts (ofInt ((n : ℤ) - 1) * g) = .infinity .positive) : False := by
    have hpart : parts (Row.length n w g) = .infinity .positive := parts_add_infinity hnum h
    apply htop
    rw [extended, hpart]
    rfl
  have hw : IsFinite w := by
    refine isFinite_of_extended r.wide.1 (fun h ↦ hsum (.inl ?_))
      (bot_lt_iff_ne_bot.1 (EReal.bot_lt_zero.trans_le r.wide.2))
    exact parts_mul_infinity r.counts (by linarith) (parts_of_top h)
  have hg : IsFinite g := by
    refine isFinite_of_extended (isNumber_of_mul hgaps).2 (fun h ↦ hsum (.inr ?_)) fun h ↦ ?_
    · exact parts_mul_infinity hcount (by linarith) (parts_of_top h)
    · have hback := parts_add_of_isFinite hw (parts_of_bot h)
      have hpos := r.extended_pos (by rw [IsNumber, hback]; simp)
      rw [extended, hback] at hpos
      exact absurd hpos (not_lt_bot)
  exact ⟨hw, hg, fun h ↦ hsum (.inl (parts_of_top h)), fun h ↦ hsum (.inr (parts_of_top h))⟩

theorem Row.spacing_le {q : ℝ} (hw : IsFinite w) (hg : IsFinite g) (hq : stored q = (q : EReal))
    (hle : value w + value g ≤ q) :
    IsFinite (w + g) ∧ 0 < value (w + g) ∧ value (w + g) ≤ q := by
  have hs := stores_add hw hg
  have hpos := r.extended_pos hs.isNumber
  have hext : extended (w + g) ≤ (q : EReal) := by
    rw [hs.extended_eq, ← hq]
    exact stored_mono hle
  have hfin : IsFinite (w + g) := isFinite_of_extended hs.isNumber
    (hext.trans_lt (EReal.coe_lt_top _)).ne (bot_lt_iff_ne_bot.1 (EReal.bot_lt_zero.trans hpos))
  rw [extended_of_isFinite hfin] at hpos hext
  exact ⟨hfin, by exact_mod_cast hpos, by exact_mod_cast hext⟩

/-- A gap that is not positive brings the parts no farther apart than they are wide. -/
theorem Row.isFinite_mul_of_nonpos {k : ℕ} (hk : k < n) (hw : IsFinite w) (hg : IsFinite g)
    (hA : extended (ofInt n * w) ≠ ⊤) (hG : value g ≤ 0) : IsFinite (ofInt k * (w + g)) := by
  obtain ⟨hfin, hpos, hle⟩ := r.spacing_le hw hg (stored_value w) (by linarith)
  obtain ⟨hK, hK₀, hKN⟩ := value_ofInt_mono (Int.natCast_nonneg k) (by omega : (k : ℤ) ≤ n) r.counts
  rw [(stores_mul r.counts hw).extended_eq] at hA
  refine (stores_mul hK hfin).isFinite (mul_nonneg hK₀ hpos.le) ?_ hA
  exact mul_le_mul hKN hle hpos.le (hK₀.trans hKN)

theorem Row.lt_of_length (hw : IsFinite w) (hg : IsFinite g) (hA : extended (ofInt n * w) ≠ ⊤)
    (hB : extended (ofInt ((n : ℤ) - 1) * g) ≠ ⊤) (hG : 0 < value g)
    (hlen : extended (Row.length n w g) < (2 ^ (1022 : ℤ) : ℝ)) :
    value (ofInt n) * value w < 2 ^ (1022 : ℤ) ∧
      value (ofInt ((n : ℤ) - 1)) * value g < 2 ^ (1022 : ℤ) := by
  obtain ⟨hN, hcount, hM, -⟩ := r.value_counts
  have hW : 0 ≤ value w := by
    have h := r.wide.2
    rw [extended_of_isFinite hw] at h
    exact_mod_cast h
  obtain ⟨hfA, hA₀⟩ := (stores_mul r.counts hw).finite_nonneg (mul_nonneg (by linarith) hW) hA
  obtain ⟨hfB, hB₀⟩ := (stores_mul hcount hg).finite_nonneg (mul_nonneg (by linarith) hG.le) hB
  have hsum := (stores_add hfA hfB).lt_two_zpow (by decide) (by decide) hlen
  constructor
  · refine (stores_mul r.counts hw).lt_two_zpow (by decide) (by decide) ?_
    rw [extended_of_isFinite hfA]
    exact_mod_cast (by linarith : value (ofInt n * w) < 2 ^ (1022 : ℤ))
  · refine (stores_mul hcount hg).lt_two_zpow (by decide) (by decide) ?_
    rw [extended_of_isFinite hfB]
    exact_mod_cast (by linarith : value (ofInt ((n : ℤ) - 1) * g) < 2 ^ (1022 : ℤ))

theorem Row.isFinite_mul_of_pos {k : ℕ} (hk : k < n) (hw : IsFinite w) (hg : IsFinite g)
    (hA : value (ofInt n) * value w < 2 ^ (1022 : ℤ))
    (hB : value (ofInt ((n : ℤ) - 1)) * value g < 2 ^ (1022 : ℤ)) (hG : 0 < value g) :
    IsFinite (ofInt k * (w + g)) := by
  obtain ⟨hN, hcount, hM, hMN⟩ := r.value_counts
  obtain ⟨hK, hK₀, hKM⟩ :=
    value_ofInt_mono (Int.natCast_nonneg k) (by omega : (k : ℤ) ≤ n - 1) hcount
  obtain ⟨x, hWx, hGx, hMx⟩ : ∃ x, value w ≤ value x ∧ value g ≤ value x ∧
      value (ofInt ((n : ℤ) - 1)) * value x < 2 ^ (1022 : ℤ) := by
    rcases le_total (value w) (value g) with h | h
    · exact ⟨g, h, le_rfl, hB⟩
    · refine ⟨w, le_rfl, h, ?_⟩
      exact (mul_le_mul_of_nonneg_right hMN (hG.le.trans h)).trans_lt hA
  have hx₀ : 0 < value x := hG.trans_le hGx
  have hone : (2 : ℝ) ^ (1023 : ℤ) = 2 * 2 ^ (1022 : ℤ) := by
    rw [show (1023 : ℤ) = 1022 + (1 : ℕ) by norm_num, two_zpow_add]
    norm_num
  have hxlt : value x < 2 ^ (1022 : ℤ) := (le_mul_of_one_le_left hx₀.le hM).trans_lt hMx
  -- twice the greater of the two is no more than one binary place away from it
  have hdouble := stored_double x (by rw [abs_of_pos hx₀]; exact hxlt)
  obtain ⟨hfin, hpos, hle⟩ := r.spacing_le hw hg hdouble (by linarith)
  refine (stores_mul hK hfin).isFinite (q := 2 ^ (1023 : ℤ)) (mul_nonneg hK₀ hpos.le) ?_ ?_
  · calc value (ofInt k) * value (w + g)
        ≤ value (ofInt ((n : ℤ) - 1)) * (2 * value x) :=
          mul_le_mul hKM hle hpos.le (hK₀.trans hKM)
      _ = 2 * (value (ofInt ((n : ℤ) - 1)) * value x) := by ring
      _ ≤ 2 ^ (1023 : ℤ) := by
          rw [hone]
          linarith
  · rw [stored_two_zpow (by decide) (by decide)]
    exact EReal.coe_ne_top _

theorem Row.isFinite_mul {k : ℕ} (hk : k < n) (hnum : IsNumber (Row.length n w g))
    (hlen : extended (Row.length n w g) < (2 ^ (1022 : ℤ) : ℝ)) :
    IsFinite (ofInt k * (w + g)) := by
  obtain ⟨hw, hg, hA, hB⟩ := r.isFinite hnum (hlen.trans (EReal.coe_lt_top _)).ne
  rcases le_or_gt (value g) 0 with hG | hG
  · exact r.isFinite_mul_of_nonpos hk hw hg hA hG
  · obtain ⟨hlow, hhigh⟩ := r.lt_of_length hw hg hA hB hG hlen
    exact r.isFinite_mul_of_pos hk hw hg hlow hhigh hG

end Row

section Displacement

variable {k : ℕ} {x : Float}

theorem value_minus_one : IsFinite (ofInt (-1)) ∧ value (ofInt (-1)) = -1 := by
  have hone : stored (-1) = ((-1 : ℝ) : EReal) := by
    have h := stored_value (ofInt 1)
    rw [value_one.2] at h
    rw [stored_neg, h, EReal.coe_neg]
  have hsign := stores_ofInt (-1)
  rw [Int.cast_neg, Int.cast_one] at hsign
  exact hsign.value_eq hone

theorem value_sign (d : Direction) :
    IsFinite (ofInt d.sign) ∧ (value (ofInt d.sign) = 1 ∨ value (ofInt d.sign) = -1) := by
  cases d with
  | positive => exact ⟨value_one.1, .inl value_one.2⟩
  | negative => exact ⟨value_minus_one.1, .inr value_minus_one.2⟩

theorem isFinite_mul_sign (hx : IsFinite x) (d : Direction) : IsFinite (x * ofInt d.sign) := by
  obtain ⟨hd, hvalue⟩ := value_sign d
  have hmul := stores_mul hx hd
  rcases hvalue with h | h <;> rw [h] at hmul
  · rw [mul_one] at hmul
    exact (hmul.value_eq (stored_value x)).1
  · rw [mul_neg_one] at hmul
    refine (hmul.value_eq (q := -value x) ?_).1
    rw [stored_neg, stored_value, EReal.coe_neg]

theorem displacement_zero (spacing : Float) (d : Direction) :
    IsFinite (displacement 0 spacing d) := by
  have h := (stores_ofInt 0).value_eq (q := 0) (by rw [Int.cast_zero, stored_zero, EReal.coe_zero])
  exact h.1

theorem Row.isFinite_displacement {w g : Float} {n : ℕ} (r : Row n w g) (hk : k < n)
    (hnum : IsNumber (Row.length n w g))
    (hlen : extended (Row.length n w g) < (2 ^ (1022 : ℤ) : ℝ)) (d : Direction) :
    IsFinite (displacement k (w + g) d) := by
  rcases Nat.eq_zero_or_pos k with rfl | hpos
  · exact displacement_zero _ d
  · rw [displacement, if_neg hpos.ne']
    exact isFinite_mul_sign (r.isFinite_mul hk hnum hlen) d

theorem isNumber_displacement_iff {n : ℕ} (hk : k < n) (hn : IsFinite (ofInt n))
    (spacing : Float) (d : Direction) :
    IsNumber (displacement k spacing d) ↔ k = 0 ∨ IsNumber spacing := by
  rcases Nat.eq_zero_or_pos k with rfl | hpos
  · exact iff_of_true (parts_ne (displacement_zero spacing d)).1 (.inl rfl)
  obtain ⟨hK, -⟩ := value_ofInt_mono (Int.natCast_nonneg k) (by omega : (k : ℤ) ≤ n) hn
  have hone := one_le_value_ofInt (by omega : (0 : ℤ) < k) hK
  obtain ⟨hd, hsign⟩ := value_sign d
  rw [displacement, if_neg hpos.ne']
  constructor
  · intro h
    exact .inr (isNumber_of_mul (isNumber_of_mul h).1).2
  · rintro (h | h)
    · omega
    · have hproduct := (isNumber_mul hK (by linarith) h).1
      refine (isNumber_mul hd ?_ hproduct).2
      rcases hsign with hs | hs <;> rw [hs] <;> norm_num

end Displacement

end StepAndRepeat.Layout
