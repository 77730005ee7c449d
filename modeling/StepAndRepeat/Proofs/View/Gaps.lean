import StepAndRepeat.Proofs.Number.Places
import StepAndRepeat.Proofs.Settings.Inches
import StepAndRepeat.View.Form

namespace StepAndRepeat

open Binary

namespace Fields

/-- A field for gaps shows the thousandths in its range that are nearest to the number put into it,
whichever if there are two of them. -/
def RoundsGaps (k : Fields) : Prop :=
  ∀ x, ∃ z : ℤ, |z| ≤ 10 ^ 6 ∧ Units.Shows (k.gap x) z ∧
    (IsFinite x → ∀ n : ℤ, |n| ≤ 10 ^ 6 → |z - value x * 1000| ≤ |n - value x * 1000|)

/-- What choosing units one after another makes of a gap: each time the unit is another one, the gap
is put into a field and read from it. -/
def carry (k : Fields) : Units → List Units → Float → Float
  | _, [], g => g
  | u, v :: us, g => k.carry v us (if u = v then g else v.toMetric (k.gap (v.toDisplay g)))

variable {k : Fields} {x y g : Float} {z : ℤ} {u v : Units}

theorem RoundsGaps.of_near (h : k.RoundsGaps) (hx : IsFinite x) (hz : |z| ≤ 10 ^ 6)
    (hnear : |value x * 1000 - z| < 1 / 2) : Units.Shows (k.gap x) z := by
  obtain ⟨n, -, hshows, hput⟩ := h x
  suffices hsame : n = z from hsame ▸ hshows
  apply Units.eq_of_abs_sub_lt
  have hfirst := hput hx z hz
  rw [abs_sub_comm (z : ℝ)] at hfirst
  calc |(n - z : ℝ)| ≤ |n - value x * 1000| + |value x * 1000 - z| := abs_sub_le ..
    _ < 1 := by linarith

theorem RoundsGaps.of_beyond (h : k.RoundsGaps) (hx : IsFinite x) :
    (1000 < value x → Units.Shows (k.gap x) (10 ^ 6)) ∧
      (value x < -1000 → Units.Shows (k.gap x) (-10 ^ 6)) := by
  obtain ⟨n, hn, hshows, hput⟩ := h x
  have hreal : |(n : ℝ)| ≤ 10 ^ 6 := by exact_mod_cast hn
  rw [abs_le] at hreal
  constructor
  · intro hhigh
    have hend := hput hx (10 ^ 6) (by norm_num)
    rw [abs_of_neg (by linarith), abs_of_neg (by push_cast; linarith)] at hend
    suffices hsame : n = 10 ^ 6 from hsame ▸ hshows
    push_cast at hend
    exact_mod_cast le_antisymm hreal.2 (by linarith)
  · intro hlow
    have hend := hput hx (-10 ^ 6) (by norm_num)
    rw [abs_of_pos (by linarith), abs_of_pos (by push_cast; linarith)] at hend
    suffices hsame : n = -10 ^ 6 from hsame ▸ hshows
    push_cast at hend
    exact_mod_cast le_antisymm (by linarith : (n : ℝ) ≤ -10 ^ 6) hreal.1

theorem RoundsGaps.shows_inches (h : k.RoundsGaps) (hy : Units.Shows y z) (hz : |z| ≤ 10 ^ 6) :
    Units.Shows (k.gap (Units.imperial.toDisplay y)) (Units.imperial.thousandths z) := by
  have hbound := Units.abs_thousandths_le .imperial hz
  obtain ⟨hfin, hnear⟩ := (hy.toDisplay hz).near hbound
  exact h.of_near hfin hbound (hnear.trans_lt (by norm_num))

theorem RoundsGaps.shows_millimetres (h : k.RoundsGaps) (hy : Units.Shows y z)
    (hz : |z| ≤ 10 ^ 6) :
    Units.Shows (k.gap (Units.imperial.toMetric y)) (Units.metric.thousandths z) := by
  obtain ⟨hfin, hnear⟩ := hy.toMetric hz
  rw [abs_le] at hnear
  norm_num at hnear
  rcases lt_or_ge 39370 z with hhigh | hhigh
  · have hcast : (39371 : ℝ) ≤ z := by exact_mod_cast hhigh
    have hend : Units.metric.thousandths z = 10 ^ 6 := by
      rw [Units.thousandths]
      omega
    rw [hend]
    exact (h.of_beyond hfin).1 (by linarith)
  rcases lt_or_ge z (-39370) with hlow | hlow
  · have hcast : (z : ℝ) ≤ -39371 := by exact_mod_cast Int.le_sub_one_of_lt hlow
    have hend : Units.metric.thousandths z = -10 ^ 6 := by
      rw [Units.thousandths]
      omega
    rw [hend]
    exact (h.of_beyond hfin).2 (by linarith)
  refine h.of_near hfin (Units.abs_thousandths_metric_le z) ?_
  have hround : |254 * z - 10 * Units.metric.thousandths z| ≤ 4 := by
    rw [abs_le, Units.thousandths]
    omega
  have hcast : |(254 * z - 10 * Units.metric.thousandths z : ℝ)| ≤ 4 := by exact_mod_cast hround
  rw [abs_le] at hcast
  rw [abs_lt]
  constructor <;> linarith

theorem RoundsGaps.shows (h : k.RoundsGaps) (hy : Units.Shows y z) (hz : |z| ≤ 10 ^ 6)
    (huv : u ≠ v) : Units.Shows (k.gap (v.toDisplay (u.toMetric y))) (v.thousandths z) := by
  cases v with
  | imperial =>
    cases u with
    | metric => exact h.shows_inches hy hz
    | imperial => exact absurd rfl huv
  | metric =>
    cases u with
    | metric => exact absurd rfl huv
    | imperial => exact h.shows_millimetres hy hz

theorem RoundsGaps.exists_carry (h : k.RoundsGaps) (hy : Units.Shows y z) (hz : |z| ≤ 10 ^ 6)
    (us : List Units) : ∃ y', Units.Shows y' (Units.thousandthsAfter u us z) ∧
      |Units.thousandthsAfter u us z| ≤ 10 ^ 6 ∧
      k.carry u us (u.toMetric y) = (us.getLast?.getD u).toMetric y' := by
  induction us generalizing u y z with
  | nil => exact ⟨y, hy, hz, rfl⟩
  | cons v us ih =>
    rw [carry, Units.thousandthsAfter, List.getLast?_cons, Option.getD_some]
    split
    next huv => exact huv ▸ ih hy hz
    next huv => exact ih (h.shows hy hz huv) (Units.abs_thousandths_le v hz)

/-- A gap is carried to the length of the thousandths shown last, near to where it was. -/
theorem RoundsGaps.value_carry (h : k.RoundsGaps) (hy : Units.Shows y z) (hz : |z| ≤ 10 ^ 6)
    (us : List Units) : IsFinite (k.carry u us (u.toMetric y)) ∧
      value (k.carry u us (u.toMetric y)) =
        value ((us.getLast?.getD u).length (Units.thousandthsAfter u us z)) ∧
      (|value (u.toMetric y)| ≤ 1000 →
        |value (k.carry u us (u.toMetric y)) - value (u.toMetric y)| ≤ 131 / 10000) := by
  obtain ⟨y', hy', hz', hcarry⟩ := h.exists_carry (u := u) hy hz us
  obtain ⟨hfin, hlength⟩ := hy'.value_toMetric hz' (us.getLast?.getD u)
  rw [hcarry]
  refine ⟨hfin, hlength, fun hsize ↦ ?_⟩
  have hbefore := hy.near_length hz u
  have hafter := hy'.near_length hz' (us.getLast?.getD u)
  have hbound : u.tenths * |z| ≤ 10 ^ 7 := by
    have hlt : |(u.tenths * z : ℝ)| < 10 ^ 7 + 1 := by
      rw [abs_le] at hbefore hsize
      rw [abs_lt]
      constructor <;> linarith
    have hint : |u.tenths * z| < 10 ^ 7 + 1 := by exact_mod_cast hlt
    rw [abs_mul] at hint
    cases u <;> exact Int.lt_add_one_iff.1 hint
  have hmoved : |((us.getLast?.getD u).tenths * Units.thousandthsAfter u us z - u.tenths * z : ℝ)| ≤
      130 := by exact_mod_cast Units.abs_tenths_sub_le u us hbound
  rw [abs_le] at hbefore hafter hmoved ⊢
  constructor <;> linarith

section Standard

theorem gap_standard (x : Float) : standard.gap x =
    if roundTo 3 x < -1000 then -1000 else if roundTo 3 x ≤ 1000 then roundTo 3 x else 1000 := rfl

theorem shows_ends : Units.Shows 1000 (10 ^ 6) ∧ Units.Shows (-1000) (-10 ^ 6) :=
  ⟨⟨false, 10 ^ 6, rfl, by decide +kernel⟩, ⟨true, 10 ^ 6, rfl, by decide +kernel⟩⟩

theorem le_of_shows {n : ℤ} (h : Units.Shows x n) (h' : Units.Shows y z) (hle : n ≤ z) : x ≤ y := by
  rw [extended_le_iff h.stores.isNumber h'.stores.isNumber, h.stores.extended_eq,
    h'.stores.extended_eq]
  have hcast : (n : ℝ) ≤ z := by exact_mod_cast hle
  exact stored_mono (by linarith)

theorem lt_neg_thousand (h : Units.Shows x z) (hz : z < -10 ^ 6) : x < -1000 := by
  obtain ⟨y, hy, hlt⟩ : ∃ y, Units.Shows y (-10 ^ 6 - 1) ∧ y < -1000 :=
    ⟨_, ⟨true, 10 ^ 6 + 1, rfl, rfl⟩, by decide +kernel⟩
  exact Binary.lt_of_le_of_lt (le_of_shows h hy (Int.le_sub_one_of_lt hz)) hlt

theorem thousand_lt (h : Units.Shows x z) (hz : 10 ^ 6 < z) : 1000 < x := by
  obtain ⟨y, hy, hlt⟩ : ∃ y, Units.Shows y (10 ^ 6 + 1) ∧ 1000 < y :=
    ⟨_, ⟨false, 10 ^ 6 + 1, rfl, rfl⟩, by decide +kernel⟩
  exact Binary.lt_of_lt_of_le hlt (le_of_shows hy h hz)

/-- The field shows what is rounded, unless that is beyond its range. -/
theorem gap_standard_of_shows (h : Units.Shows (roundTo 3 x) z) :
    Units.Shows (standard.gap x) (max (-10 ^ 6) (min z (10 ^ 6))) := by
  obtain ⟨hhigh, hlow⟩ := shows_ends
  rw [gap_standard]
  rcases lt_or_ge z (-10 ^ 6) with hz | hz
  · rw [if_pos (lt_neg_thousand h hz), min_eq_left (by omega), max_eq_left (by omega)]
    exact hlow
  rw [if_neg (not_lt_of_le (le_of_shows hlow h hz))]
  rcases lt_or_ge (10 ^ 6) z with hz' | hz'
  · rw [if_neg fun hle ↦ not_lt_of_le hle (thousand_lt h hz'), min_eq_right hz'.le,
      max_eq_right (by norm_num)]
    exact hhigh
  · rw [if_pos (le_of_shows h hhigh hz'), min_eq_left hz', max_eq_right hz]
    exact h

theorem gap_standard_of_not_isFinite (hx : ¬ IsFinite x) :
    standard.gap x = 1000 ∨ standard.gap x = -1000 := by
  rcases parts_of_not_isFinite hx with hp | ⟨s, hp⟩
  · rw [← ofParts_parts x, hp]
    decide +kernel
  · rw [← ofParts_parts x, hp]
    cases s <;> decide +kernel

/-- The end of the range is nearest to what is rounded beyond it, since it is so before rounding. -/
theorem abs_clamp_sub_le {r : ℝ} {n : ℤ} (hz : |z - r| ≤ 1 / 2) (hn : |n| ≤ 10 ^ 6) :
    |(max (-10 ^ 6) (min z (10 ^ 6)) : ℤ) - r| ≤ |n - r| := by
  have hbound : |(n : ℝ)| ≤ 10 ^ 6 := by exact_mod_cast hn
  obtain ⟨hbelow, habove⟩ := abs_le.1 hbound
  obtain ⟨hleft, hright⟩ := abs_le.1 hz
  rcases lt_or_ge z (-10 ^ 6) with hlow | hlow
  · have hint : (z : ℝ) ≤ -10 ^ 6 - 1 := by exact_mod_cast Int.le_sub_one_of_lt hlow
    rw [min_eq_left (by omega), max_eq_left (by omega), abs_of_pos (by push_cast; linarith),
      abs_of_pos (by linarith)]
    push_cast
    linarith
  rcases lt_or_ge (10 ^ 6) z with hhigh | hhigh
  · have hint : (10 ^ 6 + 1 : ℝ) ≤ z := by exact_mod_cast hhigh
    rw [min_eq_right hhigh.le, max_eq_right (by norm_num), abs_of_neg (by push_cast; linarith),
      abs_of_neg (by linarith)]
    push_cast
    linarith
  rw [min_eq_left hhigh, max_eq_right hlow]
  rcases eq_or_ne n z with rfl | hne
  · exact le_rfl
  · have hapart : 1 ≤ |(n - z : ℝ)| := by exact_mod_cast Int.one_le_abs (sub_ne_zero.2 hne)
    have htriangle : |(n - z : ℝ)| ≤ |n - r| + |z - r| := abs_sub_comm r z ▸ abs_sub_le ..
    linarith

theorem roundsGaps_standard : standard.RoundsGaps := by
  intro x
  by_cases hx : IsFinite x
  · obtain ⟨n, hround, hn⟩ := exists_roundTo hx 3
    refine ⟨_, ?_, gap_standard_of_shows ⟨_, n, rfl, hround⟩, fun _ m hm ↦ ?_⟩
    · rw [abs_le]
      omega
    · norm_num at hn
      exact abs_clamp_sub_le hn hm
  · rcases gap_standard_of_not_isFinite hx with hgap | hgap
    · exact ⟨10 ^ 6, by norm_num, hgap ▸ shows_ends.1, fun hfin ↦ absurd hfin hx⟩
    · exact ⟨-10 ^ 6, by norm_num, hgap ▸ shows_ends.2, fun hfin ↦ absurd hfin hx⟩

end Standard

end Fields

end StepAndRepeat
