import StepAndRepeat.Number.Shortest
import StepAndRepeat.Proofs.Number.Magnitude

namespace StepAndRepeat

noncomputable section

theorem nearest_eq {x : ℝ} {m : ℕ} (hx : 0 ≤ x) (hlow : (m : ℝ) - 1 / 2 ≤ x)
    (hhigh : x ≤ m + 1 / 2) (hends : m % 2 = 0 ∨ (m : ℝ) - 1 / 2 < x ∧ x < m + 1 / 2) :
    nearest x = m := by
  rcases le_or_gt (m : ℝ) x with hge | hlt
  · have hfloor : ⌊x⌋₊ = m := (Nat.floor_eq_iff hx).2 ⟨hge, by linarith⟩
    rw [nearest, hfloor]
    split_ifs with hhalf hmore heven
    · rfl
    · linarith
    · rfl
    · rcases hends with heven' | ⟨-, hstrict⟩
      · exact absurd heven' heven
      · exact absurd (by linarith : x - m < 1 / 2) hhalf
  · have hm : 0 < m := Nat.pos_of_ne_zero fun h ↦ by
      rw [h, Nat.cast_zero] at hlt
      linarith
    obtain ⟨k, rfl⟩ := Nat.exists_eq_succ_of_ne_zero hm.ne'
    push_cast at hlow hhigh hends hlt
    have hfloor : ⌊x⌋₊ = k := (Nat.floor_eq_iff hx).2 ⟨by linarith, by linarith⟩
    rw [nearest, hfloor]
    split_ifs with hhalf hmore heven
    · linarith
    · rfl
    · rcases hends with heven' | ⟨hstrict, -⟩
      · omega
      · exact absurd (by linarith : 1 / 2 < x - k) hmore
    · rfl

namespace Binary

open Text

section Interval

variable {m : ℕ} {q : ℤ} {v : ℝ}

theorem lastBit_eq_of_bounds (hq : -1074 ≤ q) (hlow : 2 ^ (q + (52 : ℕ)) ≤ v ∨ q = -1074) (hv : 0 < v)
    (hhigh : v < 2 ^ (q + (53 : ℕ))) : lastBit v = q := by
  have hlt := (Int.lt_zpow_iff_log_lt (b := 2) (by decide) hv).1 (by exact_mod_cast hhigh)
  unfold lastBit
  rcases hlow with hlow | rfl
  · have hle := (Int.zpow_le_iff_le_log (b := 2) (by decide) hv).1 (by exact_mod_cast hlow)
    omega
  · omega

/-- The numbers that are rounded to `m * 2 ^ q`. Below a power of two the numbers of 53 bits lie
twice as close. -/
structure RoundsTo (m : ℕ) (q : ℤ) (v : ℝ) : Prop where
  low : (m - 1 / 2) * 2 ^ q ≤ v
  high : v ≤ (m + 1 / 2) * 2 ^ q
  narrow : m = 2 ^ 52 → q ≠ -1074 → (m - 1 / 4) * 2 ^ q ≤ v
  ends : m % 2 = 0 ∨ (m - 1 / 2) * 2 ^ q < v ∧ v < (m + 1 / 2) * 2 ^ q

theorem RoundsTo.pos (h : RoundsTo m q v) (hm : 0 < m) : 0 < v := by
  have hm' : (1 : ℝ) ≤ m := by exact_mod_cast hm
  exact (mul_pos (by linarith) (two_zpow_pos q)).trans_le h.low

/-- Where the last bit of the two is the same. -/
theorem RoundsTo.rounded_of_lastBit (h : RoundsTo m q v) (hm : 0 < m) (hq : lastBit v = q) :
    rounded v = m * 2 ^ q := by
  have hp := two_zpow_pos q
  have hdigits : nearest (v / 2 ^ q) = m := by
    refine nearest_eq (div_nonneg (h.pos hm).le hp.le) ((le_div_iff₀ hp).2 h.low)
      ((div_le_iff₀ hp).2 h.high) (h.ends.imp_right fun ⟨hlow, hhigh⟩ ↦ ?_)
    exact ⟨(lt_div_iff₀ hp).2 hlow, (div_lt_iff₀ hp).2 hhigh⟩
  rw [rounded_def, digits_def, hq, hdigits]

theorem rounded_below_power (hq : -1074 < q) (hv : 0 < v) (hlow : (2 ^ 52 - 1 / 4) * 2 ^ q ≤ v)
    (hbelow : v < 2 ^ 52 * 2 ^ q) : rounded v = 2 ^ 52 * 2 ^ q := by
  have hp := two_zpow_pos (q - 1)
  have hhalf : (2 : ℝ) ^ q = 2 * 2 ^ (q - 1) := by
    rw [zpow_sub_one₀ two_ne_zero]
    ring
  rw [hhalf, ← mul_assoc] at hlow hbelow
  have hlast : lastBit v = q - 1 := by
    refine lastBit_eq_of_bounds (by omega) (.inl ?_) hv ?_
    · rw [two_zpow_add]
      exact hlow.trans' (mul_le_mul_of_nonneg_right (by norm_num) hp.le)
    · rw [two_zpow_add]
      refine hbelow.trans_eq ?_
      norm_num
  have hdigits : nearest (v / 2 ^ (q - 1)) = 2 ^ 53 := by
    refine nearest_eq (div_nonneg hv.le hp.le) ((le_div_iff₀ hp).2 ?_)
      ((div_le_iff₀ hp).2 ?_) (.inl (by decide))
    · refine hlow.trans' (le_of_eq ?_)
      norm_num
    · exact hbelow.le.trans (mul_le_mul_of_nonneg_right (by norm_num) hp.le)
  rw [rounded_def, digits_def, hlast, hdigits, hhalf]
  push_cast
  ring

theorem RoundsTo.rounded_eq (h : RoundsTo m q v) (hc : Canonical m q) (hm : 0 < m) :
    rounded v = m * 2 ^ q := by
  have hp := two_zpow_pos q
  have hv := h.pos hm
  have hlt : v < 2 ^ (q + (53 : ℕ)) := by
    rw [two_zpow_add]
    refine h.high.trans_lt (mul_lt_mul_of_pos_right ?_ hp)
    have hm' : ((m + 1 : ℕ) : ℝ) ≤ ((2 ^ 53 : ℕ) : ℝ) := Nat.cast_le.2 hc.lt
    push_cast at hm' ⊢
    linarith
  by_cases hlow : 2 ^ (q + (52 : ℕ)) ≤ v ∨ q = -1074
  · exact h.rounded_of_lastBit hm (lastBit_eq_of_bounds hc.least hlow hv hlt)
  obtain ⟨hbelow, hq⟩ := not_or.1 hlow
  rw [not_le, two_zpow_add] at hbelow
  -- the number is a power of two, and what is below it has one more bit
  have hpower : m = 2 ^ 52 := by
    refine le_antisymm ?_ (hc.full.resolve_right hq)
    by_contra hgt
    have hm' : ((2 ^ 52 + 1 : ℕ) : ℝ) ≤ m := Nat.cast_le.2 (not_le.1 hgt)
    have hlt' := lt_of_mul_lt_mul_right (h.low.trans_lt hbelow) hp.le
    push_cast at hm' hlt'
    linarith
  have hnarrow := h.narrow hpower hq
  subst hpower
  rw [Nat.cast_pow, Nat.cast_ofNat] at hnarrow hbelow ⊢
  exact rounded_below_power (lt_of_le_of_ne hc.least (Ne.symm hq)) hv hnarrow hbelow

end Interval

section Search

variable {m num den : ℕ} {q k : ℤ} {c : ℕ} {e : ℤ}

/-- A fraction of whole numbers whose value is `m * 2 ^ q`, and whose denominator counts the last
bits in `num / m`. -/
structure IsFraction (m : ℕ) (q : ℤ) (num den : ℕ) : Prop where
  num_eq : num = m * (num / m)
  unit_eq : ((num / m : ℕ) : ℝ) = den * 2 ^ q
  den_pos : 0 < den

theorem isFraction (hm : 0 < m) (q : ℤ) :
    IsFraction m q (if q < 0 then m else m * Nat.pow 2 q.natAbs)
      (if q < 0 then Nat.pow 2 q.natAbs else 1) := by
  split
  next hq =>
    have hone : m / m = 1 := Nat.div_self hm
    refine ⟨by rw [hone, Nat.mul_one], ?_, Nat.pow_pos (by decide)⟩
    have hpow : ((Nat.pow 2 q.natAbs : ℕ) : ℝ) = 2 ^ (-q) := by
      rw [show -q = (q.natAbs : ℤ) by omega, zpow_natCast]
      exact Nat.cast_pow 2 _
    rw [hone, hpow, ← zpow_add₀ two_ne_zero, neg_add_cancel, zpow_zero, Nat.cast_one]
  next hq =>
    have hdiv : m * Nat.pow 2 q.natAbs / m = Nat.pow 2 q.natAbs := Nat.mul_div_cancel_left _ hm
    refine ⟨by rw [hdiv], ?_, one_pos⟩
    rw [hdiv, Nat.cast_one, one_mul, show q = (q.natAbs : ℤ) by omega, zpow_natCast]
    exact Nat.cast_pow 2 _

theorem IsFraction.value_eq (h : IsFraction m q num den) : (num : ℝ) / den = m * 2 ^ q := by
  have hden : (0 : ℝ) < den := Nat.cast_pos.2 h.den_pos
  have hnum : (num : ℝ) = m * ((num / m : ℕ) : ℝ) := by exact_mod_cast h.num_eq
  rw [hnum, h.unit_eq, div_eq_iff hden.ne']
  ring

theorem ten_zpow_pos (e : ℤ) : (0 : ℝ) < 10 ^ e := by positivity

theorem cast_pow_ten (n : ℕ) : ((Nat.pow 10 n : ℕ) : ℝ) = 10 ^ n := Nat.cast_pow 10 n

theorem inside_iff {lo hi unit : ℕ} {closed : Bool} : inside lo hi unit closed c e = true ↔
    if closed then lo ≤ (c * 10 ^ e * unit : ℝ) ∧ (c * 10 ^ e * unit : ℝ) ≤ hi
    else lo < (c * 10 ^ e * unit : ℝ) ∧ (c * 10 ^ e * unit : ℝ) < hi := by
  have hscale : ∃ value low high : ℕ, (∃ s : ℝ, 0 < s ∧ (value : ℝ) = c * 10 ^ e * unit * s ∧
      (low : ℝ) = lo * s ∧ (high : ℝ) = hi * s) ∧ inside lo hi unit closed c e =
        if closed then decide (low ≤ value ∧ value ≤ high)
        else decide (low < value ∧ value < high) := by
    by_cases he : e < 0
    · refine ⟨c * unit, lo * Nat.pow 10 e.natAbs, hi * Nat.pow 10 e.natAbs,
        ⟨10 ^ e.natAbs, by positivity, ?_, ?_, ?_⟩, ?_⟩
      · have hcancel : (10 : ℝ) ^ e * 10 ^ e.natAbs = 1 := by
          rw [← zpow_natCast, ← zpow_add₀ (by norm_num), show e + (e.natAbs : ℤ) = 0 by omega,
            zpow_zero]
        rw [Nat.cast_mul, mul_right_comm _ (unit : ℝ), mul_assoc (c : ℝ), hcancel, mul_one]
      · rw [Nat.cast_mul, cast_pow_ten]
      · rw [Nat.cast_mul, cast_pow_ten]
      · simp only [inside, if_pos he]
    · refine ⟨c * unit * Nat.pow 10 e.natAbs, lo, hi, ⟨1, one_pos, ?_, (mul_one _).symm,
        (mul_one _).symm⟩, ?_⟩
      · rw [Nat.cast_mul, Nat.cast_mul, cast_pow_ten, ← zpow_natCast,
          show (e.natAbs : ℤ) = e by omega]
        ring
      · simp only [inside, if_neg he]
  obtain ⟨value, low, high, ⟨s, hs, hvalue, hlow, hhigh⟩, hinside⟩ := hscale
  rw [hinside]
  cases closed with
  | true =>
    simp only [if_true, decide_eq_true_eq]
    rw [← Nat.cast_le (α := ℝ), ← Nat.cast_le (α := ℝ), hvalue, hlow, hhigh,
      mul_le_mul_iff_of_pos_right hs, mul_le_mul_iff_of_pos_right hs]
  | false =>
    simp only [Bool.false_eq_true, if_false, decide_eq_true_eq]
    rw [← Nat.cast_lt (α := ℝ), ← Nat.cast_lt (α := ℝ), hvalue, hlow, hhigh,
      mul_lt_mul_iff_of_pos_right hs, mul_lt_mul_iff_of_pos_right hs]

def lowEnd (m : ℕ) (q : ℤ) (num : ℕ) : ℕ :=
  4 * num - (if decide (m = Nat.pow 2 52 ∧ q ≠ -1074) then num / m else 2 * (num / m))

def highEnd (m num : ℕ) : ℕ := 4 * num + 2 * (num / m)

def Lies (m : ℕ) (q : ℤ) (num den c : ℕ) (e : ℤ) : Prop :=
  inside (lowEnd m q num) (highEnd m num) (4 * den) (m % 2 == 0) c e = true

instance : Decidable (Lies m q num den c e) := inferInstanceAs (Decidable (_ = true))

theorem IsFraction.ends (h : IsFraction m q num den) :
    (lowEnd m q num : ℝ) =
        (m - if m = 2 ^ 52 ∧ q ≠ -1074 then 1 / 4 else 1 / 2) * 2 ^ q * (4 * den : ℕ) ∧
      (highEnd m num : ℝ) = (m + 1 / 2) * 2 ^ q * (4 * den : ℕ) := by
  have hnum : (num : ℝ) = m * (den * 2 ^ q) := by
    rw [← h.unit_eq]
    exact_mod_cast h.num_eq
  have hle : num / m ≤ num := Nat.div_le_self num m
  constructor
  · unfold lowEnd
    split_ifs with hnarrow hnarrow' hnarrow'
    · rw [Nat.cast_sub (by omega)]
      push_cast
      rw [hnum, h.unit_eq]
      ring
    · exact absurd (of_decide_eq_true hnarrow) hnarrow'
    · exact absurd (decide_eq_true hnarrow') hnarrow
    · rw [Nat.cast_sub (by omega)]
      push_cast
      rw [hnum, h.unit_eq]
      ring
  · unfold highEnd
    push_cast
    rw [hnum, h.unit_eq]
    ring

theorem IsFraction.lies_iff (h : IsFraction m q num den) : Lies m q num den c e ↔
    if m % 2 == 0 then
      (m - if m = 2 ^ 52 ∧ q ≠ -1074 then 1 / 4 else 1 / 2) * 2 ^ q ≤ (c * 10 ^ e : ℝ) ∧
        (c * 10 ^ e : ℝ) ≤ (m + 1 / 2) * 2 ^ q
    else
      (m - if m = 2 ^ 52 ∧ q ≠ -1074 then 1 / 4 else 1 / 2) * 2 ^ q < (c * 10 ^ e : ℝ) ∧
        (c * 10 ^ e : ℝ) < (m + 1 / 2) * 2 ^ q := by
  obtain ⟨hlow, hhigh⟩ := h.ends
  have hden : (0 : ℝ) < (4 * den : ℕ) := Nat.cast_pos.2 (Nat.mul_pos (by decide) h.den_pos)
  rw [Lies, inside_iff, hlow, hhigh]
  simp only [mul_le_mul_iff_of_pos_right hden, mul_lt_mul_iff_of_pos_right hden]

/-- What lies in the interval is rounded to the number. -/
theorem Lies.roundsTo (h : Lies m q num den c e) (hf : IsFraction m q num den) :
    RoundsTo m q (c * 10 ^ e) := by
  have hp := two_zpow_pos q
  have hclosed : (m - if m = 2 ^ 52 ∧ q ≠ -1074 then 1 / 4 else 1 / 2) * 2 ^ q ≤
      (c * 10 ^ e : ℝ) ∧ (c * 10 ^ e : ℝ) ≤ (m + 1 / 2) * 2 ^ q := by
    have hlies := hf.lies_iff.1 h
    split_ifs at hlies ⊢ <;> first | exact hlies | exact ⟨hlies.1.le, hlies.2.le⟩
  have hhalf : ((m : ℝ) - 1 / 2) * 2 ^ q ≤
      (m - if m = 2 ^ 52 ∧ q ≠ -1074 then 1 / 4 else 1 / 2) * 2 ^ q :=
    mul_le_mul_of_nonneg_right (by split_ifs <;> linarith) hp.le
  refine ⟨hhalf.trans hclosed.1, hclosed.2, fun hm hq ↦ ?_, ?_⟩
  · have hlow := hclosed.1
    rwa [if_pos ⟨hm, hq⟩] at hlow
  · rw [or_iff_not_imp_left]
    intro hodd
    have hlies := hf.lies_iff.1 h
    rw [if_neg (by simpa using hodd)] at hlies
    exact ⟨hhalf.trans_lt hlies.1, hlies.2⟩

/-- What is close enough to the number lies in the interval. -/
theorem IsFraction.lies_of_near (h : IsFraction m q num den)
    (hclose : |(c * 10 ^ e : ℝ) - m * 2 ^ q| <
      (if m = 2 ^ 52 ∧ q ≠ -1074 then 1 / 4 else 1 / 2) * 2 ^ q) : Lies m q num den c e := by
  have hp := two_zpow_pos q
  obtain ⟨hlow, hhigh⟩ := abs_lt.1 hclose
  have hstrict : (m - if m = 2 ^ 52 ∧ q ≠ -1074 then 1 / 4 else 1 / 2) * 2 ^ q <
      (c * 10 ^ e : ℝ) ∧ (c * 10 ^ e : ℝ) < (m + 1 / 2) * 2 ^ q := by
    constructor
    · linarith
    · have hwidth : (if m = 2 ^ 52 ∧ q ≠ -1074 then 1 / 4 else 1 / 2) * (2 : ℝ) ^ q ≤
          1 / 2 * 2 ^ q := mul_le_mul_of_nonneg_right (by split_ifs <;> norm_num) hp.le
      linarith
  rw [h.lies_iff]
  split
  · exact ⟨hstrict.1.le, hstrict.2.le⟩
  · exact hstrict

theorem lt_ten_pow_length (n : ℕ) : n < 10 ^ (Text.ofNat n).length :=
  (Nat.length_toDigits_le_iff (by decide) Nat.length_toDigits_pos).1 le_rfl

theorem ten_pow_le_of_length {n : ℕ} (hn : 0 < n) : 10 ^ ((Text.ofNat n).length - 1) ≤ n := by
  rcases Nat.eq_zero_or_pos ((Text.ofNat n).length - 1) with hzero | hpos
  · rw [hzero]
    exact hn
  · by_contra hlt
    have hle := (Nat.length_toDigits_le_iff (by decide) hpos).2 (not_le.1 hlt)
    change (Text.ofNat n).length ≤ _ at hle
    omega

theorem leadingPlace_le (hnum : 0 < num) (hden : 0 < den) :
    (10 : ℝ) ^ (leadingPlace num den - 1) ≤ num / den := by
  have hden' : (0 : ℝ) < den := Nat.cast_pos.2 hden
  unfold leadingPlace
  split
  next hle =>
    have hquot : 0 < num / den := Nat.div_pos hle hden
    have hlen : 0 < (Text.ofNat (num / den)).length := Nat.length_toDigits_pos
    have hpow := ten_pow_le_of_length hquot
    calc (10 : ℝ) ^ (((Text.ofNat (num / den)).length : ℤ) - 1)
        = ((10 ^ ((Text.ofNat (num / den)).length - 1) : ℕ) : ℝ) := by
          rw [Nat.cast_pow, Nat.cast_ofNat, ← zpow_natCast]
          congr 1
          omega
      _ ≤ ((num / den : ℕ) : ℝ) := Nat.cast_le.2 hpow
      _ ≤ num / den := Nat.cast_div_le
  next hlt =>
    have hpow := lt_ten_pow_length ((den - 1) / num)
    have hbelow : den ≤ 10 ^ (Text.ofNat ((den - 1) / num)).length * num := by
      have hdiv := Nat.lt_mul_of_div_lt hpow hnum
      omega
    rw [show (1 - ((Text.ofNat ((den - 1) / num)).length : ℤ) - 1) =
      -((Text.ofNat ((den - 1) / num)).length : ℤ) by omega, zpow_neg, zpow_natCast,
      inv_le_iff_one_le_mul₀ (by positivity), div_mul_eq_mul_div, le_div_iff₀ hden', one_mul,
      mul_comm]
    exact_mod_cast hbelow

def above (num : ℕ) (e : ℤ) : ℕ := if e < 0 then num * Nat.pow 10 e.natAbs else num

def below (den : ℕ) (e : ℤ) : ℕ := if e < 0 then den else den * Nat.pow 10 e.natAbs

def nearby (num den : ℕ) (e : ℤ) : ℕ := roundDiv (above num e) (below den e)

def beside (num den : ℕ) (e : ℤ) : ℕ :=
  if nearby num den e = above num e / below den e then above num e / below den e + 1
  else above num e / below den e

theorem above_div_below (num den : ℕ) (e : ℤ) :
    (above num e : ℝ) / below den e = num / den / 10 ^ e := by
  unfold above below
  split
  next he =>
    rw [Nat.cast_mul, cast_pow_ten, show e = -(e.natAbs : ℤ) by omega, zpow_neg, zpow_natCast,
      Int.natAbs_neg, Int.natAbs_natCast, div_inv_eq_mul]
    ring
  next he =>
    rw [Nat.cast_mul, cast_pow_ten, show e = (e.natAbs : ℤ) by omega, zpow_natCast,
      Int.natAbs_natCast, div_mul_eq_div_div]

theorem IsFraction.near (h : IsFraction m q num den) (e : ℤ) :
    |(nearby num den e : ℝ) * 10 ^ e - m * 2 ^ q| ≤ 10 ^ e / 2 := by
  have hbelow : 0 < below den e := by
    unfold below
    split
    · exact h.den_pos
    · exact Nat.mul_pos h.den_pos (Nat.pow_pos (by decide))
  have hb : (0 : ℝ) < below den e := Nat.cast_pos.2 hbelow
  have hp := ten_zpow_pos e
  obtain ⟨hhigh, hlow⟩ := roundDiv_near (above num e) (below den e) hbelow
  have hquot : |(nearby num den e : ℝ) - above num e / below den e| ≤ 1 / 2 := by
    unfold nearby
    rw [← Nat.cast_le (α := ℝ)] at hhigh hlow
    push_cast at hhigh hlow
    rw [abs_le, sub_div' hb.ne', le_div_iff₀ hb, div_le_iff₀ hb]
    constructor <;> linarith
  rw [above_div_below, h.value_eq] at hquot
  have hscaled := mul_le_mul_of_nonneg_right hquot hp.le
  rw [← abs_of_pos hp, ← abs_mul, abs_of_pos hp, sub_mul, div_mul_cancel₀ _ hp.ne'] at hscaled
  linarith

theorem lies_of_seventeen (h : IsFraction m q num den) (hc : Canonical m q) (hm : 0 < m)
    (hk : 10 ^ (k - 1) ≤ (m * 2 ^ q : ℝ)) :
    nearby num den (k - (17 : ℕ)) ≠ 0 ∧
      Lies m q num den (nearby num den (k - (17 : ℕ))) (k - (17 : ℕ)) := by
  have hp := two_zpow_pos q
  have hten := ten_zpow_pos (k - (17 : ℕ))
  have hnear := h.near (k - (17 : ℕ))
  have hscale : (10 : ℝ) ^ (k - (17 : ℕ)) * 10 ^ 16 ≤ m * 2 ^ q := by
    rw [← zpow_natCast, ← zpow_add₀ (by norm_num)]
    have hsum : k - (17 : ℕ) + ((16 : ℕ) : ℤ) = k - 1 := by push_cast; ring
    rwa [hsum]
  have hwide : (m : ℝ) * 2 ^ q < 2 ^ 53 * 2 ^ q :=
    mul_lt_mul_of_pos_right (by exact_mod_cast hc.lt) hp
  generalize hplace : (10 : ℝ) ^ (k - (17 : ℕ)) = place at hten hnear hscale
  constructor
  · intro hzero
    rw [hzero, Nat.cast_zero, zero_mul, zero_sub, abs_neg,
      abs_of_pos (mul_pos (Nat.cast_pos.2 hm) hp)] at hnear
    linarith
  · refine h.lies_of_near ?_
    rw [hplace]
    refine hnear.trans_lt ?_
    split_ifs with hnarrow
    · rw [hnarrow.1] at hscale
      push_cast at hscale
      linarith
    · linarith

theorem search_succ (fuel n : ℕ) : search m q num den k (fuel + 1) n =
    if nearby num den (k - n) ≠ 0 ∧ Lies m q num den (nearby num den (k - n)) (k - n) then
      (nearby num den (k - n), k - n)
    else if beside num den (k - n) ≠ 0 ∧ Lies m q num den (beside num den (k - n)) (k - n) then
      (beside num den (k - n), k - n)
    else search m q num den k fuel (n + 1) := rfl

/-- What the search finds lies in the interval. -/
theorem lies_of_search (h : IsFraction m q num den) (hc : Canonical m q) (hm : 0 < m)
    (hk : 10 ^ (k - 1) ≤ (m * 2 ^ q : ℝ)) (fuel n : ℕ) (hn : n + fuel = 17) :
    (search m q num den k (fuel + 1) n).1 ≠ 0 ∧
      Lies m q num den (search m q num den k (fuel + 1) n).1
        (search m q num den k (fuel + 1) n).2 := by
  induction fuel generalizing n with
  | zero =>
    have hnear := lies_of_seventeen h hc hm hk
    obtain rfl : n = 17 := by omega
    rw [search_succ, if_pos hnear]
    exact hnear
  | succ fuel ih =>
    rw [search_succ]
    split
    next hnear => exact hnear
    next =>
      split
      next hother => exact hother
      next => exact ih (n + 1) (by omega)

end Search

section Digits

variable {m : ℕ} {q : ℤ}

def natOfDigits (t : Text) : ℕ := Nat.ofDigitChars 10 t 0

def Digits.value (d : Digits) : ℝ :=
  natOfDigits d.digits * ((10 : ℕ) : ℝ) ^ (d.point - d.digits.length)

theorem Digits.value_eq (d : Digits) :
    d.value = natOfDigits d.digits * 10 ^ (d.point - d.digits.length) := by
  rw [value, Nat.cast_ofNat]

theorem natOfDigits_append (t u : Text) :
    natOfDigits (t ++ u) = 10 ^ u.length * natOfDigits t + natOfDigits u := by
  rw [natOfDigits, Nat.ofDigitChars_append, Nat.ofDigitChars_eq_ofDigitChars_zero]
  rfl

theorem natOfDigits_zeros (n : ℕ) : natOfDigits (List.replicate n '0') = 0 := by
  rw [natOfDigits, Nat.ofDigitChars_replicate_zero, Nat.mul_zero]

theorem natOfDigits_ofNat (n : ℕ) : natOfDigits (Text.ofNat n) = n :=
  Nat.ofDigitChars_ten_toDigits

theorem exists_dropZeros (t : Text) : ∃ n, t = dropZeros t ++ List.replicate n '0' := by
  have hzeros : t.rtakeWhile (· = '0') =
      List.replicate (t.rtakeWhile (· = '0')).length '0' :=
    List.eq_replicate_of_mem fun c hc ↦ by simpa using List.mem_rtakeWhile_imp hc
  refine ⟨(t.rtakeWhile (· = '0')).length, ?_⟩
  rw [← hzeros]
  exact (List.rdropWhile_append_rtakeWhile).symm

structure Digits.Proper (d : Digits) : Prop where
  isDigit : ∀ c ∈ d.digits, c.isDigit = true
  exists_cons : ∃ c t, d.digits = c :: t ∧ c ≠ '0'

theorem natOfDigits_lt {t : Text} (h : ∀ c ∈ t, c.isDigit = true) :
    natOfDigits t < 10 ^ t.length := by
  rw [natOfDigits, ← digitsFrom_eq h]
  have hlt := digitsFrom_lt 0 t
  rwa [Nat.zero_add, Nat.one_mul] at hlt

theorem exists_ofNat_eq {n : ℕ} (hn : 0 < n) : ∃ c t, Text.ofNat n = c :: t ∧ c ≠ '0' := by
  cases ht : Text.ofNat n with
  | nil => exact absurd ht Nat.toDigits_ne_nil
  | cons c t =>
    refine ⟨c, t, rfl, ?_⟩
    rintro rfl
    have hpow := ten_pow_le_of_length hn
    have hdigits : ∀ c ∈ t, c.isDigit = true := fun c hc ↦
      isDigit_of_mem_ofNat (n := n) (ht ▸ List.mem_cons_of_mem _ hc)
    have hvalue := natOfDigits_ofNat n
    rw [ht] at hpow hvalue
    have hzero := natOfDigits_append (List.replicate 1 '0') t
    rw [natOfDigits_zeros, Nat.mul_zero, Nat.zero_add] at hzero
    have hlt := natOfDigits_lt hdigits
    rw [← hzero] at hlt
    exact absurd (hvalue ▸ hlt) (not_lt.2 hpow)

theorem value_dropZeros (n : ℕ) (e : ℤ) :
    Digits.value ⟨dropZeros (Text.ofNat n), (Text.ofNat n).length + e⟩ = n * 10 ^ e := by
  obtain ⟨k, hk⟩ := exists_dropZeros (Text.ofNat n)
  have hlen : (Text.ofNat n).length = (dropZeros (Text.ofNat n)).length + k := by
    conv_lhs => rw [hk, List.length_append, List.length_replicate]
  have hvalue : (n : ℝ) = 10 ^ k * natOfDigits (dropZeros (Text.ofNat n)) := by
    conv_lhs => rw [← natOfDigits_ofNat n, hk, natOfDigits_append, natOfDigits_zeros,
      List.length_replicate, Nat.add_zero]
    push_cast
    rfl
  rw [Digits.value_eq]
  dsimp only
  rw [hlen, show (((dropZeros (Text.ofNat n)).length + k : ℕ) : ℤ) + e -
    (dropZeros (Text.ofNat n)).length = k + e by push_cast; ring, zpow_add₀ (by norm_num),
    zpow_natCast, hvalue]
  ring

theorem proper_dropZeros {n : ℕ} (hn : 0 < n) (p : ℤ) :
    Digits.Proper ⟨dropZeros (Text.ofNat n), p⟩ := by
  obtain ⟨k, hk⟩ := exists_dropZeros (Text.ofNat n)
  refine ⟨fun c hc ↦ isDigit_of_mem_ofNat (n := n) (hk ▸ List.mem_append_left _ hc), ?_⟩
  obtain ⟨c, t, ht, hc⟩ := exists_ofNat_eq hn
  dsimp only
  cases hd : dropZeros (Text.ofNat n) with
  | nil =>
    rw [hd, List.nil_append, ht] at hk
    cases k with
    | zero => cases hk
    | succ k => exact absurd (List.cons.inj hk).1 hc
  | cons d u =>
    rw [hd, ht] at hk
    obtain ⟨rfl, -⟩ := List.cons.inj hk
    exact ⟨c, u, rfl, hc⟩

theorem shortest_spec (hc : Canonical m q) (hm : 0 < m) :
    (shortest m q).Proper ∧ rounded (shortest m q).value = m * 2 ^ q := by
  have hf := isFraction hm q
  have hnum : 0 < if q < 0 then m else m * Nat.pow 2 q.natAbs := by
    split
    · exact hm
    · exact Nat.mul_pos hm (Nat.pow_pos (by decide))
  have hk := leadingPlace_le hnum hf.den_pos
  rw [hf.value_eq] at hk
  obtain ⟨hne, hlies⟩ := lies_of_search hf hc hm hk 16 1 rfl
  refine ⟨proper_dropZeros (Nat.pos_of_ne_zero hne) _, ?_⟩
  rw [shortest]
  exact (congrArg rounded (value_dropZeros _ _)).trans ((hlies.roundsTo hf).rounded_eq hc hm)

end Digits

section Reading

variable {x : Float} {m : ℕ} {q : ℤ}

/-- A decimal number with the value of the shortest digits is read as the number itself. -/
theorem ofDecimal_of_shortest {c : ℕ} {e : ℤ} (h : magnitude x = .finite m q) (hm : 0 < m)
    (hvalue : (c * 10 ^ e : ℝ) = (shortest m q).value) :
    (if isNegative x then -(ofDecimal c e) else ofDecimal c e) = x := by
  have hparts := parts_of_magnitude hm h
  obtain ⟨hc, hq⟩ := canonical_of_parts hparts
  have hpos : (0 : ℝ) < m * 2 ^ q := mul_pos (Nat.cast_pos.2 hm) (two_zpow_pos q)
  have hfin := isFinite_of_parts hparts
  have hread := stores_ofDecimal_zpow c e
  have hstored : stored (c * 10 ^ e) = ((m * 2 ^ q : ℝ) : EReal) := by
    rw [stored, rounding_of_nonneg (by positivity), hvalue, (shortest_spec hc hm).2]
    exact overflow_of_abs_lt (by rw [abs_of_pos hpos]; exact hc.abs_lt hq)
  have hne : ((m * 2 ^ q : ℝ) : EReal) ≠ 0 := EReal.coe_ne_zero.2 hpos.ne'
  have hx : extended x = (onSide (side x) (m * 2 ^ q) : ℝ) := by
    rw [extended_of_isFinite hfin, value_of_magnitude h]
  unfold side at hx
  split
  next hneg =>
    rw [if_pos hneg] at hx
    refine Stores.eq hread.neg ⟨(parts_ne hfin).1, ?_⟩ ?_
    · rw [hx, stored_neg, hstored]
      rfl
    · rw [stored_neg, hstored]
      simpa using hne
  next hnonneg =>
    rw [if_neg hnonneg] at hx
    refine Stores.eq hread ⟨(parts_ne hfin).1, ?_⟩ ?_
    · rw [hx, hstored]
      rfl
    · rw [hstored]
      exact hne

theorem eq_of_magnitude_zero (h : magnitude x = .finite 0 q) :
    (if isNegative x then -0 else 0) = x := by
  rw [← ofParts_parts x, parts_eq_together, h, together, dif_neg (Nat.lt_irrefl 0), side]
  split <;> rfl

theorem eq_of_magnitude_infinite (h : magnitude x = .infinite) :
    (if isNegative x then -infinity else infinity) = x := by
  rw [← ofParts_parts x, parts_eq_together, h, together, side]
  split <;> rfl

theorem eq_of_magnitude_nan (h : magnitude x = .nan) : 0 / 0 = x := by
  rw [← ofParts_parts x, parts_eq_together, h, together]
  rfl

end Reading

end Binary

end

end StepAndRepeat
