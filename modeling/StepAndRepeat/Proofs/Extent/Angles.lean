import Mathlib.Algebra.Order.ToIntervalMod
import Mathlib.Analysis.SpecialFunctions.Trigonometric.Basic
import StepAndRepeat.Proofs.Number.Exact

namespace StepAndRepeat.Angle

open Real

theorem turn_eq : (turn : ℝ) = 2 * π := by
  change ((2 : ℤ) : ℝ) * π = 2 * π
  norm_num

theorem turn_pos : (0 : ℝ) < turn := turn_eq ▸ two_pi_pos

theorem tiny_pos : (0 : ℝ) < tiny := by
  change (0 : ℝ) < 1 * (1 : ℕ) / 10 ^ 9
  norm_num

theorem distance_eq (a b : ℝ) : distance a b = |a - b| := by
  change (if decide (a - b < ((0 : ℤ) : ℝ)) = true then -(a - b) else a - b) = |a - b|
  simp only [Int.cast_zero, decide_eq_true_eq]
  split
  next h => rw [abs_of_neg h]
  next h => rw [abs_of_nonneg (not_lt.1 h)]

section Directions

theorem right_eq : (right : ℝ) = 0 := Int.cast_zero

theorem up_eq : (up : ℝ) = π / 2 := by
  change π / ((2 : ℤ) : ℝ) = π / 2
  norm_num

theorem left_eq : (left : ℝ) = π := rfl

theorem down_eq : (down : ℝ) = 3 * π / 2 := by
  change ((3 : ℤ) : ℝ) * π / ((2 : ℤ) : ℝ) = 3 * π / 2
  norm_num

theorem cos_sub_right (x : ℝ) : cos (x - right) = cos x := by rw [right_eq, sub_zero]

theorem cos_sub_up (x : ℝ) : cos (x - up) = sin x := by rw [up_eq, cos_sub_pi_div_two]

theorem cos_sub_left (x : ℝ) : cos (x - left) = -cos x := by rw [left_eq, cos_sub_pi]

theorem cos_sub_down (x : ℝ) : cos (x - down) = -sin x := by
  have h : x - down = x - π / 2 - π := by
    rw [down_eq]
    ring
  rw [h, cos_sub_pi, cos_sub_pi_div_two]

theorem right_mem : right ∈ Set.Ico 0 (2 * π) := by
  rw [right_eq]
  exact ⟨le_rfl, two_pi_pos⟩

theorem up_mem : up ∈ Set.Ico 0 (2 * π) := by
  rw [up_eq]
  exact ⟨by linarith [pi_pos], by linarith [pi_pos]⟩

theorem left_mem : left ∈ Set.Ico 0 (2 * π) := by
  rw [left_eq]
  exact ⟨pi_pos.le, by linarith [pi_pos]⟩

theorem down_mem : down ∈ Set.Ico 0 (2 * π) := by
  rw [down_eq]
  exact ⟨by linarith [pi_pos], by linarith [pi_pos]⟩

end Directions

section Normalize

theorem abs_remainder_lt (x : ℝ) : |Circular.remainder x turn| < 2 * π := by
  have hp := two_pi_pos
  have hx : x / (2 * π) * (2 * π) = x := div_mul_cancel₀ x hp.ne'
  have hr : Circular.remainder x turn = (x / (2 * π) - towardZero (x / (2 * π))) * (2 * π) := by
    change x - turn * towardZero (x / turn) = _
    rw [turn_eq, sub_mul, hx, mul_comm (2 * π)]
  have hq : |x / (2 * π) - towardZero (x / (2 * π))| < 1 := by
    rw [towardZero, abs_lt]
    split
    · constructor
      · linarith [Int.ceil_lt_add_one (x / (2 * π))]
      · linarith [Int.le_ceil (x / (2 * π))]
    · constructor
      · linarith [Int.floor_le (x / (2 * π))]
      · linarith [Int.lt_floor_add_one (x / (2 * π))]
  rw [hr, abs_mul, abs_of_pos hp]
  exact (mul_lt_mul_of_pos_right hq hp).trans_eq (one_mul _)

theorem exists_remainder_eq (x : ℝ) : ∃ k : ℤ, Circular.remainder x turn = x - k * (2 * π) := by
  refine ⟨towardZero (x / turn), ?_⟩
  change x - turn * towardZero (x / turn) = _
  rw [turn_eq, mul_comm (2 * π)]

theorem normalize_eq (x : ℝ) : normalize x = toIcoMod two_pi_pos 0 x := by
  obtain ⟨k, hk⟩ := exists_remainder_eq x
  obtain ⟨hlow, hhigh⟩ := abs_lt.1 (abs_remainder_lt x)
  have hn : normalize x =
      (let r := Circular.remainder x turn
       let r := if r < 0 then r + 2 * π else r
       if 2 * π ≤ r then r - 2 * π else r) := by
    change (let r := Circular.remainder x turn
      let r := if decide (r < ((0 : ℤ) : ℝ)) = true then r + turn else r
      if decide (turn ≤ r) = true then r - turn else r) = _
    simp only [Int.cast_zero, decide_eq_true_eq, turn_eq]
  rw [hn, eq_comm, toIcoMod_eq_iff]
  generalize Circular.remainder x turn = r at *
  dsimp only
  split
  next hneg =>
    rw [if_neg (by linarith)]
    refine ⟨⟨by linarith, by linarith⟩, k - 1, ?_⟩
    rw [hk, zsmul_eq_mul]
    push_cast
    ring
  next hnonneg =>
    rw [if_neg (by linarith)]
    refine ⟨⟨not_lt.1 hnonneg, by linarith⟩, k, ?_⟩
    rw [hk, zsmul_eq_mul]
    ring

theorem normalize_mem (x : ℝ) : normalize x ∈ Set.Ico 0 (2 * π) := by
  rw [normalize_eq]
  simpa using toIcoMod_mem_Ico two_pi_pos 0 x

theorem normalize_of_mem {x : ℝ} (h : x ∈ Set.Ico 0 (2 * π)) : normalize x = x := by
  rw [normalize_eq, toIcoMod_eq_self]
  simpa using h

theorem normalize_eq_normalize_iff {x y : ℝ} :
    normalize x = normalize y ↔ ∃ k : ℤ, x = y + k * (2 * π) := by
  rw [normalize_eq, normalize_eq, eq_comm, toIcoMod_eq_toIcoMod]
  refine exists_congr fun k ↦ ?_
  rw [zsmul_eq_mul, sub_eq_iff_eq_add']

theorem normalize_add_turns (x : ℝ) (k : ℤ) : normalize (x + k * (2 * π)) = normalize x :=
  normalize_eq_normalize_iff.2 ⟨k, rfl⟩

theorem exists_normalize_eq (x : ℝ) : ∃ k : ℤ, normalize x = x + k * (2 * π) := by
  rw [← normalize_eq_normalize_iff, normalize_of_mem (normalize_mem x)]

theorem normalize_sub_normalize (x y : ℝ) : normalize (normalize x - normalize y) =
    normalize (x - y) := by
  obtain ⟨k, hk⟩ := exists_normalize_eq x
  obtain ⟨m, hm⟩ := exists_normalize_eq y
  rw [normalize_eq_normalize_iff]
  refine ⟨k - m, ?_⟩
  rw [hk, hm]
  push_cast
  ring

end Normalize

section Rise

theorem normalize_le {t : ℝ} (h : 0 ≤ t) : normalize t ≤ t := by
  rw [normalize_eq, toIcoMod]
  have hdiv : 0 ≤ toIcoDiv two_pi_pos 0 t := by
    rw [toIcoDiv_eq_floor, sub_zero]
    exact Int.floor_nonneg.2 (div_nonneg h two_pi_pos.le)
  exact sub_le_self t (zsmul_nonneg two_pi_pos.le hdiv)

/-- The turn through rising angles that comes to the same as a turn by an angle: more than nothing
and at most a full one. -/
noncomputable def rise (x : ℝ) : ℝ := toIocMod turn_pos 0 x

theorem rise_eq (x : ℝ) : rise x = toIocMod two_pi_pos 0 x := by simp only [rise, turn_eq]

theorem exists_rise_eq (x : ℝ) : ∃ k : ℤ, x = rise x + k * (2 * π) := by
  refine ⟨toIocDiv two_pi_pos 0 x, ?_⟩
  rw [rise_eq, ← zsmul_eq_mul, toIocMod_add_toIocDiv_zsmul]

theorem rise_nonneg (x : ℝ) : 0 ≤ rise x := (toIocMod_mem_Ioc turn_pos 0 x).1.le

theorem rise_of_normalize_eq_zero {x : ℝ} (h : normalize x = 0) : rise x = 2 * π := by
  have h0 : normalize x = normalize 0 := by
    rw [h, normalize_of_mem ⟨le_rfl, two_pi_pos⟩]
  obtain ⟨k, hk⟩ := normalize_eq_normalize_iff.1 h0
  rw [rise_eq, toIocMod_eq_iff]
  refine ⟨⟨two_pi_pos, by rw [zero_add]⟩, k - 1, ?_⟩
  rw [hk, zsmul_eq_mul]
  push_cast
  ring

theorem rise_of_normalize_ne_zero {x : ℝ} (h : normalize x ≠ 0) : rise x = normalize x := by
  obtain ⟨k, hk⟩ := exists_normalize_eq x
  obtain ⟨h0, h1⟩ := normalize_mem x
  rw [rise_eq, toIocMod_eq_iff]
  refine ⟨⟨lt_of_le_of_ne h0 h.symm, by linarith⟩, -k, ?_⟩
  rw [hk, zsmul_eq_mul]
  push_cast
  ring

end Rise

section Sweep

variable {a b s e : ℝ}

theorem normalize_sub_of_le (ha : a ∈ Set.Ico 0 (2 * π)) (hb : b ∈ Set.Ico 0 (2 * π)) (h : a ≤ b) :
    normalize (b - a) = b - a :=
  normalize_of_mem ⟨sub_nonneg.2 h, by linarith [ha.1, hb.2]⟩

theorem normalize_sub_of_lt (ha : a ∈ Set.Ico 0 (2 * π)) (hb : b ∈ Set.Ico 0 (2 * π)) (h : b < a) :
    normalize (b - a) = b - a + 2 * π := by
  have hm : b - a + 2 * π ∈ Set.Ico 0 (2 * π) := ⟨by linarith [hb.1, ha.2], by linarith⟩
  rw [← normalize_of_mem hm, normalize_eq_normalize_iff]
  exact ⟨-1, by push_cast; ring⟩

theorem inSweep_eq (clockwise : Bool) : inSweep a s e clockwise =
    if |s - e| < tiny then true
    else if clockwise then
      if e ≤ s then decide (e ≤ a) && decide (a ≤ s) else decide (a ≤ s) || decide (e ≤ a)
    else if s ≤ e then decide (s ≤ a) && decide (a ≤ e) else decide (s ≤ a) || decide (a ≤ e) := by
  change (if decide (distance s e < tiny) = true then true
    else if clockwise = true then
      if decide (e ≤ s) = true then decide (e ≤ a) && decide (a ≤ s)
      else decide (a ≤ s) || decide (e ≤ a)
    else if decide (s ≤ e) = true then decide (s ≤ a) && decide (a ≤ e)
    else decide (s ≤ a) || decide (a ≤ e)) = _
  simp only [distance_eq, decide_eq_true_eq]

theorem inSweep_of_near {clockwise : Bool} (h : |s - e| < tiny) :
    inSweep a s e clockwise = true := by
  rw [inSweep_eq, if_pos h]

theorem inSweep_reversed (clockwise : Bool) :
    inSweep a e s (!clockwise) = inSweep a s e clockwise := by
  rw [inSweep_eq, inSweep_eq, abs_sub_comm e s]
  cases clockwise <;> simp [Bool.or_comm]

theorem inSweep_rising (ha : a ∈ Set.Ico 0 (2 * π)) (hs : s ∈ Set.Ico 0 (2 * π))
    (he : e ∈ Set.Ico 0 (2 * π)) (h : tiny ≤ |s - e|) :
    inSweep a s e false = true ↔ normalize (a - s) ≤ normalize (e - s) := by
  rw [inSweep_eq, if_neg (not_lt.2 h), if_neg Bool.false_ne_true]
  have ha0 := ha.1
  have ha1 := ha.2
  have he0 := he.1
  have he1 := he.2
  rcases le_or_gt s e with hse | hse
  · rw [if_pos hse, normalize_sub_of_le hs he hse, Bool.and_eq_true, decide_eq_true_eq,
      decide_eq_true_eq]
    rcases le_or_gt s a with hsa | hsa
    · rw [normalize_sub_of_le hs ha hsa, sub_le_sub_iff_right, and_iff_right hsa]
    · rw [normalize_sub_of_lt hs ha hsa]
      exact iff_of_false (fun h ↦ hsa.not_ge h.1) (by linarith)
  · rw [if_neg (not_le.2 hse), normalize_sub_of_lt hs he hse, Bool.or_eq_true,
      decide_eq_true_eq, decide_eq_true_eq]
    rcases le_or_gt s a with hsa | hsa
    · rw [normalize_sub_of_le hs ha hsa]
      exact iff_of_true (.inl hsa) (by linarith)
    · rw [normalize_sub_of_lt hs ha hsa, or_iff_right (not_le.2 hsa), add_le_add_iff_right,
        sub_le_sub_iff_right]

end Sweep

section Cosine

theorem cos_le_max_of_mem {u x v : ℝ} (h0 : 0 ≤ u) (hu : u ≤ x) (hv : x ≤ v) (h1 : v ≤ 2 * π) :
    cos x ≤ max (cos u) (cos v) := by
  rcases le_total x π with hx | hx
  · exact le_max_of_le_left (cos_le_cos_of_nonneg_of_le_pi h0 hx hu)
  · rw [← cos_two_pi_sub x, ← cos_two_pi_sub v]
    exact le_max_of_le_right
      (cos_le_cos_of_nonneg_of_le_pi (by linarith) (by linarith) (by linarith))

/-- Between angles that have no whole number of turns between them, the cosine is greatest at an
end. -/
theorem cos_le_max {u x v : ℝ} (hu : u ≤ x) (hv : x ≤ v)
    (h : ∀ k : ℤ, u ≤ k * (2 * π) → v < k * (2 * π)) : cos x ≤ max (cos u) (cos v) := by
  obtain ⟨k, hk⟩ := exists_normalize_eq u
  obtain ⟨h0, h1⟩ := normalize_mem u
  rw [hk] at h0 h1
  have hend : v < (-k + 1 : ℤ) * (2 * π) := h _ (by push_cast; linarith)
  push_cast at hend
  rw [← cos_add_int_mul_two_pi u k, ← cos_add_int_mul_two_pi x k, ← cos_add_int_mul_two_pi v k]
  exact cos_le_max_of_mem h0 (by linarith) (by linarith) (by linarith)

end Cosine

end StepAndRepeat.Angle
