import Mathlib.Data.EReal.Basic
import Mathlib.Data.Int.Log
import StepAndRepeat.Proofs.Number.Exact

namespace StepAndRepeat

noncomputable section

section Nearest

variable {x y : ℝ}

theorem floor_le_nearest (x : ℝ) : ⌊x⌋₊ ≤ nearest x := by
  unfold nearest
  split_ifs <;> omega

theorem nearest_le_floor (x : ℝ) : nearest x ≤ ⌊x⌋₊ + 1 := by
  unfold nearest
  split_ifs <;> omega

theorem nearest_mono : Monotone nearest := by
  intro x y h
  rcases (Nat.floor_mono h).lt_or_eq with hlt | heq
  · calc nearest x ≤ ⌊x⌋₊ + 1 := nearest_le_floor x
      _ ≤ ⌊y⌋₊ := hlt
      _ ≤ nearest y := floor_le_nearest y
  · -- between the same whole numbers it is the distance from the lower that decides
    unfold nearest
    rw [← heq]
    split_ifs <;> first | omega | (exfalso; linarith)

theorem nearest_le {n : ℕ} (h : x < n + 1 / 2) : nearest x ≤ n := by
  have hfloor : ⌊x⌋₊ < n + 1 := by
    refine (Nat.floor_lt' (by omega)).2 (h.trans ?_)
    push_cast
    linarith
  rcases (Nat.lt_succ_iff.1 hfloor).lt_or_eq with hlt | heq
  · exact (nearest_le_floor x).trans hlt
  · rw [nearest, heq, if_pos (by linarith)]

end Nearest

namespace Binary

/-- The exponent of the last bit that is kept of a number. -/
def lastBit (r : ℝ) : ℤ := max (Int.log 2 r - 52) (-1074)

/-- The bits that are kept of a number without sign, as a whole number. -/
def digits (r : ℝ) : ℕ := nearest (r / (2 : ℕ) ^ lastBit r)

def rounded (r : ℝ) : ℝ := digits r * (2 : ℕ) ^ lastBit r

section Rounded

variable {r s : ℝ}

theorem digits_def (r : ℝ) : digits r = nearest (r / 2 ^ lastBit r) := rfl

theorem rounded_def (r : ℝ) : rounded r = digits r * 2 ^ lastBit r := rfl

theorem two_zpow_pos (e : ℤ) : (0 : ℝ) < 2 ^ e := by positivity

theorem two_zpow_mono {d e : ℤ} (h : d ≤ e) : (2 : ℝ) ^ d ≤ 2 ^ e :=
  zpow_le_zpow_right₀ one_le_two h

theorem two_zpow_add (e : ℤ) (k : ℕ) : (2 : ℝ) ^ (e + k) = ((2 ^ k : ℕ) : ℝ) * 2 ^ e := by
  rw [zpow_add₀ two_ne_zero, zpow_natCast, mul_comm, Nat.cast_pow, Nat.cast_ofNat]

theorem least_le_lastBit (r : ℝ) : -1074 ≤ lastBit r := le_max_right _ _

theorem lastBit_mono (hr : 0 < r) (h : r ≤ s) : lastBit r ≤ lastBit s :=
  max_le_max (Int.sub_le_sub_right (Int.log_mono_right hr h) _) le_rfl

theorem lt_two_zpow (r : ℝ) : r < 2 ^ (lastBit r + (53 : ℕ)) :=
  calc r < (2 : ℕ) ^ (Int.log 2 r + 1) := Int.lt_zpow_succ_log_self (by decide) r
    _ ≤ 2 ^ (lastBit r + (53 : ℕ)) := by
      have hle : Int.log 2 r - 52 ≤ lastBit r := le_max_left _ _
      rw [Nat.cast_ofNat]
      exact two_zpow_mono (by omega)

theorem two_zpow_le (hr : 0 < r) (h : -1074 < lastBit r) : 2 ^ (lastBit r + (52 : ℕ)) ≤ r := by
  have hlog : lastBit r = Int.log 2 r - 52 := by
    unfold lastBit at h ⊢
    omega
  have hle := Int.zpow_log_le_self (b := 2) (by decide) hr
  rw [Nat.cast_ofNat] at hle
  rwa [hlog, show Int.log 2 r - 52 + (52 : ℕ) = Int.log 2 r by omega]

theorem digits_le {n : ℕ} (h : r ≤ n * 2 ^ lastBit r) : digits r ≤ n := by
  have hn := nearest_mono ((div_le_iff₀ (two_zpow_pos _)).2 h)
  rwa [nearest_natCast] at hn

theorem le_digits {n : ℕ} (h : n * 2 ^ lastBit r ≤ r) : n ≤ digits r := by
  have hn := nearest_mono ((le_div_iff₀ (two_zpow_pos _)).2 h)
  rwa [nearest_natCast] at hn

/-- One more than 53 bits can be reached by rounding up. -/
theorem digits_le_two_pow (r : ℝ) : digits r ≤ 2 ^ 53 := by
  apply digits_le
  rw [← two_zpow_add]
  exact (lt_two_zpow r).le

theorem two_pow_le_digits (hr : 0 < r) (h : -1074 < lastBit r) : 2 ^ 52 ≤ digits r := by
  apply le_digits
  rw [← two_zpow_add]
  exact two_zpow_le hr h

theorem rounded_zero : rounded 0 = 0 := by
  have h := digits_le (r := 0) (n := 0) (by simp)
  rw [rounded_def, Nat.le_zero.1 h, Nat.cast_zero, zero_mul]

theorem rounded_nonneg (r : ℝ) : 0 ≤ rounded r :=
  mul_nonneg (Nat.cast_nonneg _) (two_zpow_pos _).le

theorem rounded_le_two_zpow (r : ℝ) : rounded r ≤ 2 ^ (lastBit r + (53 : ℕ)) := by
  rw [two_zpow_add]
  exact mul_le_mul_of_nonneg_right (by exact_mod_cast digits_le_two_pow r) (two_zpow_pos _).le

theorem two_zpow_le_rounded (hr : 0 < r) (h : -1074 < lastBit r) :
    2 ^ (lastBit r + (52 : ℕ)) ≤ rounded r := by
  rw [two_zpow_add]
  exact mul_le_mul_of_nonneg_right (by exact_mod_cast two_pow_le_digits hr h) (two_zpow_pos _).le

theorem rounded_mono (hr : 0 ≤ r) (h : r ≤ s) : rounded r ≤ rounded s := by
  rcases hr.eq_or_lt with rfl | hr
  · rw [rounded_zero]
    exact rounded_nonneg s
  rcases (lastBit_mono hr h).lt_or_eq with hlt | heq
  · -- the two lie on different sides of a power of two
    have hs := two_zpow_le_rounded (hr.trans_le h) ((least_le_lastBit r).trans_lt hlt)
    exact (rounded_le_two_zpow r).trans ((two_zpow_mono (by omega)).trans hs)
  · have hp := two_zpow_pos (lastBit s)
    rw [rounded_def, rounded_def, digits_def, digits_def, heq]
    refine mul_le_mul_of_nonneg_right ?_ hp.le
    exact_mod_cast nearest_mono (div_le_div_of_nonneg_right h hp.le)

/-- A number with 53 bits. -/
def Dyadic (r : ℝ) : Prop := ∃ (m : ℕ) (e : ℤ), m < 2 ^ 53 ∧ -1074 ≤ e ∧ r = m * (2 : ℕ) ^ e

theorem Dyadic.nonneg (h : Dyadic r) : 0 ≤ r := by
  obtain ⟨m, e, -, -, rfl⟩ := h
  positivity

theorem dyadic_two_zpow {e : ℤ} (h : -1074 ≤ e) : Dyadic (2 ^ e) :=
  ⟨1, e, by norm_num, h, by rw [Nat.cast_one, one_mul, Nat.cast_ofNat]⟩

theorem dyadic_zero : Dyadic 0 := ⟨0, 0, by norm_num, by norm_num, by simp⟩

theorem Dyadic.rounded_eq (h : Dyadic r) : rounded r = r := by
  rcases h.nonneg.eq_or_lt with rfl | hpos
  · exact rounded_zero
  obtain ⟨m, e, hm, he, rfl⟩ := h
  rw [Nat.cast_ofNat] at hpos ⊢
  have hlt : (m : ℝ) * 2 ^ e < (2 : ℕ) ^ (e + (53 : ℕ)) := by
    rw [Nat.cast_ofNat, two_zpow_add]
    exact mul_lt_mul_of_pos_right (by exact_mod_cast hm) (two_zpow_pos e)
  have hlog := (Int.lt_zpow_iff_log_lt (by decide) hpos).1 hlt
  have hle : lastBit ((m : ℝ) * 2 ^ e) ≤ e := max_le (by omega) he
  obtain ⟨k, hk⟩ := Int.le.dest hle
  -- the number is a whole number of last bits
  have hwhole : (m : ℝ) * 2 ^ e = ((m * 2 ^ k : ℕ) : ℝ) * 2 ^ lastBit ((m : ℝ) * 2 ^ e) := by
    conv_lhs => rw [← hk, two_zpow_add]
    push_cast
    ring
  have hdigits := (digits_le hwhole.le).antisymm (le_digits hwhole.ge)
  rw [rounded_def, hdigits, ← hwhole]

theorem rounded_tiny (hr : 0 ≤ r) (h : r < 2 ^ (-1075 : ℤ)) : rounded r = 0 := by
  rcases hr.eq_or_lt with rfl | hr
  · exact rounded_zero
  have hlog := (Int.lt_zpow_iff_log_lt (b := 2) (by decide) hr).1 (by exact_mod_cast h)
  have hlast : lastBit r = -1074 := by
    unfold lastBit
    omega
  have hhalf : (2 : ℝ) ^ (-1075 : ℤ) = (0 + 1 / 2) * 2 ^ (-1074 : ℤ) := by
    rw [show (-1075 : ℤ) = -1 + -1074 by norm_num, zpow_add₀ two_ne_zero]
    norm_num
  have hdigits : digits r ≤ 0 := by
    rw [digits_def, hlast]
    refine nearest_le ((div_lt_iff₀ (two_zpow_pos _)).2 ?_)
    rwa [Nat.cast_zero, ← hhalf]
  rw [rounded_def, Nat.le_zero.1 hdigits, Nat.cast_zero, zero_mul]

def bound : ℝ := (2 : ℕ) ^ (1024 : ℤ)

theorem bound_pos : 0 < bound := two_zpow_pos _

theorem two_zpow_lt_bound {e : ℤ} (h : e < 1024) : 2 ^ e < bound :=
  zpow_lt_zpow_right₀ one_lt_two h

/-- Halfway from the greatest number of 53 bits that is not too large to the least that is. -/
def threshold : ℝ := bound - (2 : ℕ) ^ (970 : ℤ)

theorem threshold_def : threshold = bound - 2 ^ (970 : ℤ) := rfl

theorem threshold_eq : threshold = (((2 ^ 53 - 1 : ℕ) : ℝ) + 1 / 2) * 2 ^ (971 : ℤ) := by
  have hbound : bound = ((2 ^ 54 : ℕ) : ℝ) * 2 ^ (970 : ℤ) := two_zpow_add 970 54
  have hunit : (2 : ℝ) ^ (971 : ℤ) = ((2 ^ 1 : ℕ) : ℝ) * 2 ^ (970 : ℤ) := two_zpow_add 970 1
  rw [threshold_def, hbound, hunit]
  push_cast
  ring

theorem threshold_pos : 0 < threshold := by
  rw [threshold_eq]
  exact mul_pos (by positivity) (two_zpow_pos _)

theorem nearest_half_max : nearest (((2 ^ 53 - 1 : ℕ) : ℝ) + 1 / 2) = 2 ^ 53 := by
  have hfloor : ⌊((2 ^ 53 - 1 : ℕ) : ℝ) + 1 / 2⌋₊ = 2 ^ 53 - 1 := by
    rw [Nat.floor_eq_iff (by positivity)]
    constructor <;> linarith
  rw [nearest, hfloor, add_sub_cancel_left, if_neg (lt_irrefl _), if_neg (lt_irrefl _),
    if_neg (by decide)]
  rfl

theorem lastBit_threshold : lastBit threshold = 971 := by
  have hlow : ((2 : ℕ) : ℝ) ^ (1023 : ℤ) ≤ threshold := by
    rw [threshold_eq]
    exact (two_zpow_add 971 52).trans_le
      (mul_le_mul_of_nonneg_right (by norm_num) (two_zpow_pos _).le)
  have hhigh : threshold < ((2 : ℕ) : ℝ) ^ (1024 : ℤ) := sub_lt_self bound (two_zpow_pos 970)
  have hge := (Int.zpow_le_iff_le_log (by decide) threshold_pos).1 hlow
  have hlt := (Int.lt_zpow_iff_log_lt (by decide) threshold_pos).1 hhigh
  unfold lastBit
  omega

theorem rounded_threshold : rounded threshold = bound := by
  rw [rounded_def, digits_def, lastBit_threshold, threshold_eq,
    mul_div_cancel_right₀ _ (two_zpow_pos _).ne', nearest_half_max, ← two_zpow_add]
  rfl

theorem rounded_lt_bound (hr : 0 ≤ r) (h : r < threshold) : rounded r < bound := by
  rcases hr.eq_or_lt with rfl | hr
  · rw [rounded_zero]
    exact bound_pos
  have hle := lastBit_mono hr h.le
  rw [lastBit_threshold] at hle
  rcases hle.lt_or_eq with hlt | heq
  · exact (rounded_le_two_zpow r).trans_lt (two_zpow_lt_bound (by omega))
  · rw [threshold_eq, ← div_lt_iff₀ (two_zpow_pos _)] at h
    have hn : (digits r : ℝ) < ((2 ^ 53 : ℕ) : ℝ) := by
      rw [digits_def, heq]
      exact_mod_cast (nearest_le h).trans_lt (by decide)
    rw [rounded_def]
    refine (mul_lt_mul_of_pos_right hn (two_zpow_pos _)).trans_eq ?_
    rw [← two_zpow_add, heq]
    rfl

theorem bound_le_rounded_iff (hr : 0 ≤ r) : bound ≤ rounded r ↔ threshold ≤ r := by
  constructor
  · intro h
    exact not_lt.1 fun hlt ↦ (rounded_lt_bound hr hlt).not_ge h
  · intro h
    rw [← rounded_threshold]
    exact rounded_mono threshold_pos.le h

end Rounded

section Stored

variable {r s : ℝ}

/-- A number with the bits that are kept of it. -/
def rounding (r : ℝ) : ℝ := if r < 0 then -rounded (-r) else rounded r

theorem rounding_of_nonneg (h : 0 ≤ r) : rounding r = rounded r := if_neg h.not_gt

theorem rounding_neg (r : ℝ) : rounding (-r) = -rounding r := by
  rcases lt_trichotomy r 0 with h | rfl | h
  · rw [rounding_of_nonneg (by linarith), rounding, if_pos h, neg_neg]
  · rw [neg_zero, rounding_of_nonneg le_rfl, rounded_zero, neg_zero]
  · rw [rounding_of_nonneg h.le, rounding, if_pos (by linarith), neg_neg]

theorem rounding_mono : Monotone rounding := by
  intro r s h
  rcases le_or_gt 0 r with hr | hr
  · rw [rounding_of_nonneg hr, rounding_of_nonneg (hr.trans h)]
    exact rounded_mono hr h
  · rw [rounding, if_pos hr]
    rcases le_or_gt 0 s with hs | hs
    · rw [rounding_of_nonneg hs]
      linarith [rounded_nonneg (-r), rounded_nonneg s]
    · rw [rounding, if_pos hs]
      exact neg_le_neg (rounded_mono (by linarith) (by linarith))

def overflow (v : ℝ) : EReal := if bound ≤ v then ⊤ else if v ≤ -bound then ⊥ else v

theorem overflow_of_abs_lt {v : ℝ} (h : |v| < bound) : overflow v = v := by
  obtain ⟨hlow, hhigh⟩ := abs_lt.1 h
  rw [overflow, if_neg hhigh.not_ge, if_neg hlow.not_ge]

theorem overflow_of_le {v : ℝ} (h : bound ≤ v) : overflow v = ⊤ := if_pos h

theorem overflow_of_le_neg {v : ℝ} (h : v ≤ -bound) : overflow v = ⊥ := by
  rw [overflow, if_neg (by linarith [bound_pos]), if_pos h]

theorem overflow_cases (v : ℝ) : bound ≤ v ∨ v ≤ -bound ∨ |v| < bound := by
  rw [abs_lt]
  rcases le_or_gt bound v with h | h
  · exact .inl h
  · rcases le_or_gt v (-bound) with h' | h'
    · exact .inr (.inl h')
    · exact .inr (.inr ⟨h', h⟩)

theorem overflow_eq_top {v : ℝ} : overflow v = ⊤ ↔ bound ≤ v := by
  refine ⟨fun h ↦ ?_, overflow_of_le⟩
  rcases overflow_cases v with hv | hv | hv
  · exact hv
  · rw [overflow_of_le_neg hv] at h
    exact absurd h (by simp)
  · rw [overflow_of_abs_lt hv] at h
    exact absurd h (EReal.coe_ne_top v)

theorem overflow_mono : Monotone overflow := by
  intro v w h
  rcases overflow_cases w with hw | hw | hw
  · rw [overflow_of_le hw]
    exact le_top
  · rw [overflow_of_le_neg (h.trans hw)]
    exact bot_le
  · rcases overflow_cases v with hv | hv | hv
    · exact absurd (hv.trans h) (abs_lt.1 hw).2.not_ge
    · rw [overflow_of_le_neg hv]
      exact bot_le
    · rw [overflow_of_abs_lt hv, overflow_of_abs_lt hw]
      exact EReal.coe_le_coe_iff.2 h

theorem overflow_neg (v : ℝ) : overflow (-v) = -overflow v := by
  rcases overflow_cases v with h | h | h
  · rw [overflow_of_le h, overflow_of_le_neg (neg_le_neg h), EReal.neg_top]
  · rw [overflow_of_le_neg h, overflow_of_le (le_neg_of_le_neg h), EReal.neg_bot]
  · rw [overflow_of_abs_lt h, overflow_of_abs_lt (by rwa [abs_neg]), EReal.coe_neg]

/-- The value that a number is stored as. -/
def stored (r : ℝ) : EReal := overflow (rounding r)

theorem stored_mono : Monotone stored := overflow_mono.comp rounding_mono

theorem stored_neg (r : ℝ) : stored (-r) = -stored r := by
  rw [stored, rounding_neg, overflow_neg, stored]

theorem stored_of_dyadic (h : Dyadic |r|) (hlt : |r| < bound) : stored r = r := by
  have hr : rounding r = r := by
    rcases le_or_gt 0 r with hr | hr
    · rw [abs_of_nonneg hr] at h
      rw [rounding_of_nonneg hr, h.rounded_eq]
    · rw [abs_of_neg hr] at h
      rw [rounding, if_pos hr, h.rounded_eq, neg_neg]
  rw [stored, hr, overflow_of_abs_lt hlt]

theorem stored_two_zpow {e : ℤ} (h : -1074 ≤ e) (h' : e < 1024) :
    stored (2 ^ e) = ((2 ^ e : ℝ) : EReal) := by
  apply stored_of_dyadic <;> rw [abs_of_pos (two_zpow_pos e)]
  · exact dyadic_two_zpow h
  · exact two_zpow_lt_bound h'

theorem stored_zero : stored 0 = 0 := by
  apply stored_of_dyadic <;> rw [abs_zero]
  · exact dyadic_zero
  · exact bound_pos

theorem stored_nonneg (h : 0 ≤ r) : 0 ≤ stored r := by
  rw [← stored_zero]
  exact stored_mono h

/-- Only what is too large by half a unit is stored as an infinity. -/
theorem stored_eq_top_iff : stored r = ⊤ ↔ threshold ≤ r := by
  rw [stored, overflow_eq_top]
  rcases le_or_gt 0 r with hr | hr
  · rw [rounding_of_nonneg hr, bound_le_rounded_iff hr]
  · constructor <;> intro h
    · rw [rounding, if_pos hr] at h
      linarith [rounded_nonneg (-r), bound_pos]
    · linarith [threshold_pos]

end Stored

end Binary

end

end StepAndRepeat
