import StepAndRepeat.Proofs.Number.Error
import StepAndRepeat.Settings.Units

namespace StepAndRepeat.Units

open Binary

/-- The thousandths of a unit nearest to so many of the other one, up to a thousand millimetres. There
are no ties, since an inch has 254 tenths of a millimetre. -/
def thousandths : Units → ℤ → ℤ
  | metric, z => max (-10 ^ 6) (min ((254 * z + 5) / 10) (10 ^ 6))
  | imperial, z => (10 * z + 127) / 254

/-- The thousandths of the unit chosen last, when units are chosen one after another. -/
def thousandthsAfter : Units → List Units → ℤ → ℤ
  | _, [], z => z
  | u, v :: us, z => thousandthsAfter v us (if u = v then z else v.thousandths z)

section Whole

variable {z : ℤ}

theorem abs_thousandths_imperial_le (h : |z| ≤ 10 ^ 6) : |imperial.thousandths z| ≤ 39370 := by
  rw [abs_le] at h ⊢
  rw [thousandths]
  omega

theorem abs_thousandths_metric_le (z : ℤ) : |metric.thousandths z| ≤ 10 ^ 6 := by
  rw [abs_le, thousandths]
  omega

/-- Inches are not changed by millimetres, of which there are more. -/
theorem thousandths_thousandths (h : |z| ≤ 39370) :
    imperial.thousandths (metric.thousandths z) = z := by
  rw [abs_le] at h
  rw [thousandths, thousandths]
  omega

theorem thousandths_eq_iff (h : |z| ≤ 10 ^ 6) :
    metric.thousandths (imperial.thousandths z) = z ↔
      ∃ n, |n| ≤ 39370 ∧ metric.thousandths n = z := by
  refine ⟨fun hz ↦ ⟨_, abs_thousandths_imperial_le h, hz⟩, ?_⟩
  rintro ⟨n, hn, rfl⟩
  rw [thousandths_thousandths hn]

theorem last_cases (us : List Units) :
    us = [] ∨ us.getLast? = some metric ∨ us.getLast? = some imperial ∧ imperial ∈ us := by
  cases h : us.getLast? with
  | none => exact .inl (List.getLast?_eq_none_iff.1 h)
  | some u =>
    cases u with
    | metric => exact .inr (.inl rfl)
    | imperial => exact .inr (.inr ⟨rfl, List.mem_of_getLast? h⟩)

/-- However many units are chosen, what is shown is rounded once for each unit. -/
theorem thousandthsAfter_eq (us : List Units) (z : ℤ) :
    (|z| ≤ 10 ^ 6 → thousandthsAfter metric us z =
      if imperial ∈ us then
        if us.getLast? = some imperial then imperial.thousandths z
        else metric.thousandths (imperial.thousandths z)
      else z) ∧
    (|z| ≤ 39370 → thousandthsAfter imperial us z =
      if us.getLast? = some metric then metric.thousandths z else z) := by
  induction us generalizing z with
  | nil => simp [thousandthsAfter]
  | cons u us ih =>
    rw [List.getLast?_cons]
    constructor
    · intro hz
      cases u with
      | metric =>
        rw [thousandthsAfter, if_pos rfl, (ih z).1 hz]
        rcases last_cases us with rfl | h | ⟨h, -⟩ <;> simp [*]
      | imperial =>
        rw [thousandthsAfter, if_neg (by decide), (ih _).2 (abs_thousandths_imperial_le hz)]
        rcases last_cases us with rfl | h | ⟨h, -⟩ <;> simp [*]
    · intro hz
      cases u with
      | metric =>
        rw [thousandthsAfter, if_neg (by decide), (ih _).1 (abs_thousandths_metric_le z),
          thousandths_thousandths hz]
        rcases last_cases us with rfl | h | ⟨h, hmem⟩ <;> simp [*]
      | imperial =>
        rw [thousandthsAfter, if_pos rfl, (ih z).2 hz]
        rcases last_cases us with rfl | h | ⟨h, -⟩ <;> simp [*]

theorem abs_thousandths_le (v : Units) (h : |z| ≤ 10 ^ 6) : |v.thousandths z| ≤ 10 ^ 6 := by
  cases v with
  | metric => exact abs_thousandths_metric_le z
  | imperial => exact (abs_thousandths_imperial_le h).trans (by norm_num)

def tenths : Units → ℤ
  | metric => 10
  | imperial => 254

theorem abs_tenths_thousandths_sub_le (h : |z| ≤ 10 ^ 6) :
    |imperial.tenths * imperial.thousandths z - metric.tenths * z| ≤ 130 ∧
      |metric.tenths * metric.thousandths (imperial.thousandths z) - metric.tenths * z| ≤ 130 := by
  rw [abs_le] at h
  rw [abs_le, abs_le, tenths, tenths, thousandths, thousandths]
  omega

theorem abs_tenths_metric_sub_le (h : |z| ≤ 39370) :
    |metric.tenths * metric.thousandths z - imperial.tenths * z| ≤ 130 := by
  rw [abs_le] at h
  rw [abs_le, tenths, tenths, thousandths]
  omega

theorem abs_tenths_sub_le (u : Units) (us : List Units) (hz : u.tenths * |z| ≤ 10 ^ 7) :
    |(us.getLast?.getD u).tenths * thousandthsAfter u us z - u.tenths * z| ≤ 130 := by
  obtain ⟨hmetric, himperial⟩ := thousandthsAfter_eq us z
  cases u with
  | metric =>
    rw [tenths] at hz
    have hbound : |z| ≤ 10 ^ 6 := by omega
    obtain ⟨hinches, hback⟩ := abs_tenths_thousandths_sub_le hbound
    rw [hmetric hbound]
    rcases last_cases us with rfl | h | ⟨h, hmem⟩
    · simp
    · rw [h, Option.getD_some, if_neg (by decide : some metric ≠ some imperial)]
      split
      next => exact hback
      next => simp
    · rwa [if_pos hmem, if_pos h, h, Option.getD_some]
  | imperial =>
    rw [tenths] at hz
    have hbound : |z| ≤ 39370 := by omega
    rw [himperial hbound]
    rcases last_cases us with rfl | h | ⟨h, -⟩
    · simp
    · rw [if_pos h, h, Option.getD_some]
      exact abs_tenths_metric_sub_le hbound
    · simp [h]

end Whole

section PerInch

theorem stores_perInch : Stores perInch (254 / 10) := by
  have hread : perInch = ofDecimal 254 (-(1 : ℕ)) := by decide +kernel
  have h := stores_ofDecimal 254 1
  rw [hread]
  norm_num at h ⊢
  exact h

theorem value_perInch : IsFinite perInch ∧ |value perInch - 254 / 10| ≤ 32 / 2 ^ 52 := by
  refine stores_perInch.abs_value_sub_le_of_le ?_ (by norm_num) (by norm_num)
  rw [abs_of_pos (by norm_num)]
  norm_num

theorem perInch_bounds : 25 ≤ value perInch ∧ value perInch ≤ 26 := by
  have h := abs_le.1 value_perInch.2
  norm_num at h
  constructor <;> linarith

theorem perInch_pos : 0 < value perInch := by linarith [perInch_bounds.1]

end PerInch

/-- The number is so many thousandths, as a decimal is read. -/
def Shows (y : Float) (z : ℤ) : Prop :=
  ∃ negative n, units ⟨negative, n, 3⟩ = z ∧ y = Coordinate.ofNumeral ⟨negative, n, 3⟩

def length (u : Units) (z : ℤ) : Float :=
  u.toMetric (Coordinate.ofNumeral ⟨decide (z < 0), z.natAbs, 3⟩)

section Shown

variable {x y y' : Float} {z : ℤ}

theorem shows_ofNumeral (z : ℤ) : Shows (Coordinate.ofNumeral ⟨decide (z < 0), z.natAbs, 3⟩) z := by
  refine ⟨_, _, ?_, rfl⟩
  unfold units
  rcases lt_or_ge z 0 with hz | hz
  · simp [hz, abs_of_neg hz]
  · simp [hz.not_gt, abs_of_nonneg hz]

theorem Shows.stores (h : Shows y z) : Stores y (z / 1000) := by
  obtain ⟨negative, n, rfl, rfl⟩ := h
  have hread := stores_ofNumeral ⟨negative, n, 3⟩
  rw [ofNumeral_eq] at hread
  norm_num at hread ⊢
  exact hread

theorem eq_of_abs_sub_lt {n : ℤ} (h : |(n - z : ℝ)| < 1) : n = z := by
  have hint : |n - z| < 1 := by exact_mod_cast h
  exact sub_eq_zero.1 (Int.abs_lt_one_iff.1 hint)

theorem abs_div_thousand_le (hz : |z| ≤ 10 ^ 6) : |(z / 1000 : ℝ)| ≤ 1000 := by
  have hcast : |(z : ℝ)| ≤ 10 ^ 6 := by exact_mod_cast hz
  rw [abs_le] at hcast ⊢
  norm_num at hcast ⊢
  constructor <;> linarith

theorem Shows.near (h : Shows y z) (hz : |z| ≤ 10 ^ 6) :
    IsFinite y ∧ |value y * 1000 - z| ≤ 1 / 2 ^ 30 := by
  obtain ⟨hfin, hnear⟩ := h.stores.abs_value_sub_le_of_le (abs_div_thousand_le hz) (by norm_num)
    (by norm_num)
  refine ⟨hfin, ?_⟩
  rw [abs_le] at hnear ⊢
  norm_num at hnear ⊢
  constructor <;> linarith

theorem value_eq_of_stores {r : ℝ} (h : Stores y r) (h' : Stores y' r) (hr : |r| ≤ 2 ^ 60) :
    value y = value y' := by
  have hstored := stored_of_abs_lt (lt_threshold hr)
  rw [(h.value_eq hstored).2, (h'.value_eq hstored).2]

theorem Shows.abs_value_le (h : Shows y z) (hz : |z| ≤ 10 ^ 6) : |value y| ≤ 1024 := by
  have hcast : |(z : ℝ)| ≤ 10 ^ 6 := by exact_mod_cast hz
  have hnear := (h.near hz).2
  rw [abs_le] at hnear hcast ⊢
  norm_num at hnear hcast
  constructor <;> linarith

theorem abs_sub_mul_perInch_le {v : ℝ} (h : |v| ≤ 1024) :
    |v * value perInch - v * (254 / 10)| ≤ 1 / 2 ^ 36 := by
  rw [← mul_sub, abs_mul]
  calc |v| * |value perInch - 254 / 10| ≤ 1024 * (32 / 2 ^ 52) :=
        mul_le_mul h value_perInch.2 (abs_nonneg _) (by norm_num)
    _ ≤ 1 / 2 ^ 36 := by norm_num

theorem Shows.toDisplay (h : Shows y z) (hz : |z| ≤ 10 ^ 6) :
    Shows (imperial.toDisplay y) (imperial.thousandths z) := by
  obtain ⟨hfin, hnear⟩ := h.near hz
  have hinches : |value y / value perInch| ≤ 1024 := by
    rw [abs_div, abs_of_pos perInch_pos, div_le_iff₀ perInch_pos]
    linarith [h.abs_value_le hz, perInch_bounds.1]
  have hback := abs_sub_mul_perInch_le hinches
  rw [div_mul_cancel₀ _ perInch_pos.ne'] at hback
  obtain ⟨hfin', hquotient⟩ := (stores_div hfin value_perInch.1 perInch_pos.ne'
    ).abs_value_sub_le_of_le hinches (by norm_num) (by norm_num)
  obtain ⟨n, hround, hn⟩ := exists_roundTo hfin' 3
  refine ⟨_, n, ?_, hround⟩
  generalize units ⟨isNegative (y / perInch), n, 3⟩ = u at hn ⊢
  have hlt : |(254 * u - 10 * z : ℝ)| < 128 := by
    rw [abs_le] at hnear hback hquotient hn
    rw [abs_lt]
    norm_num at hnear hback hquotient hn ⊢
    constructor <;> linarith
  have hint : |254 * u - 10 * z| < 128 := by exact_mod_cast hlt
  rw [abs_lt] at hint
  rw [thousandths]
  omega

theorem Shows.abs_mul_perInch_le (h : Shows y z) (hz : |z| ≤ 10 ^ 6) :
    |value y * value perInch| ≤ 2 ^ 15 := by
  rw [abs_mul, abs_of_pos perInch_pos]
  calc |value y| * value perInch ≤ 1024 * 26 :=
        mul_le_mul (h.abs_value_le hz) perInch_bounds.2 perInch_pos.le (by norm_num)
    _ ≤ 2 ^ 15 := by norm_num

theorem Shows.toMetric (h : Shows y z) (hz : |z| ≤ 10 ^ 6) : IsFinite (imperial.toMetric y) ∧
    |value (imperial.toMetric y) * 1000 - 254 / 10 * z| ≤ 1 / 2 ^ 16 := by
  obtain ⟨hfin, hnear⟩ := h.near hz
  have hfactor := abs_sub_mul_perInch_le (h.abs_value_le hz)
  obtain ⟨hfin', hstored⟩ := (stores_mul hfin value_perInch.1).abs_value_sub_le_of_le
    (h.abs_mul_perInch_le hz) (by norm_num) (by norm_num)
  refine ⟨hfin', ?_⟩
  change |value (y * perInch) * 1000 - 254 / 10 * z| ≤ _
  rw [abs_le] at hnear hfactor hstored ⊢
  norm_num at hnear hfactor hstored ⊢
  constructor <;> linarith

theorem Shows.near_length (h : Shows y z) (hz : |z| ≤ 10 ^ 6) (u : Units) :
    |value (u.toMetric y) * 10 ^ 4 - u.tenths * z| ≤ 1 / 4 := by
  have hnear : |value (u.toMetric y) * 1000 - u.tenths / 10 * z| ≤ 1 / 2 ^ 16 := by
    cases u with
    | metric =>
      rw [tenths, Int.cast_ofNat, div_self (by norm_num), one_mul]
      exact (h.near hz).2.trans (by norm_num)
    | imperial => exact (h.toMetric hz).2
  rw [abs_le] at hnear ⊢
  norm_num at hnear ⊢
  constructor <;> linarith

/-- What shows the same is the same length, though a zero may have either sign. -/
theorem Shows.value_toMetric (h : Shows y z) (hz : |z| ≤ 10 ^ 6) (u : Units) :
    IsFinite (u.toMetric y) ∧ value (u.toMetric y) = value (u.length z) := by
  have h' := shows_ofNumeral z
  have hsame := value_eq_of_stores h.stores h'.stores
    ((abs_div_thousand_le hz).trans (by norm_num))
  cases u with
  | metric => exact ⟨(h.near hz).1, hsame⟩
  | imperial =>
    have hproduct := stores_mul (h.near hz).1 value_perInch.1
    have hproduct' := stores_mul (h'.near hz).1 value_perInch.1
    rw [← hsame] at hproduct'
    exact ⟨(h.toMetric hz).1, value_eq_of_stores hproduct hproduct'
      ((h.abs_mul_perInch_le hz).trans (by norm_num))⟩

theorem eq_of_value_length {n : ℤ} (hz : |z| ≤ 10 ^ 6) (hn : |n| ≤ 10 ^ 6)
    (h : value (metric.length z) = value (metric.length n)) : z = n := by
  have hnear := ((shows_ofNumeral z).near hz).2
  have hnear' := ((shows_ofNumeral n).near hn).2
  change |value (metric.length z) * 1000 - z| ≤ _ at hnear
  change |value (metric.length n) * 1000 - n| ≤ _ at hnear'
  rw [h] at hnear
  rw [abs_le] at hnear hnear'
  norm_num at hnear hnear'
  apply eq_of_abs_sub_lt
  rw [abs_lt]
  constructor <;> linarith

end Shown

end StepAndRepeat.Units
