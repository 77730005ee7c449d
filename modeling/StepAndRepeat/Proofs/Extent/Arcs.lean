import StepAndRepeat.Proofs.Extent.Angles

namespace StepAndRepeat

open Real

namespace Coordinate

theorem least_eq (x y : ℝ) : least x y = min x y := by
  change (if decide (y < x) = true then y else x) = min x y
  simp only [decide_eq_true_eq]
  split
  next h => rw [min_eq_right h.le]
  next h => rw [min_eq_left (not_lt.1 h)]

theorem greatest_eq (x y : ℝ) : greatest x y = max x y := by
  change (if decide (x < y) = true then y else x) = max x y
  simp only [decide_eq_true_eq]
  split
  next h => rw [max_eq_right h.le]
  next h => rw [max_eq_left (not_lt.1 h)]

end Coordinate

namespace Rectangle

def Holds (r : Rectangle ℝ) (p : ℝ × ℝ) : Prop :=
  (r.minX ≤ p.1 ∧ p.1 ≤ r.maxX) ∧ r.minY ≤ p.2 ∧ p.2 ≤ r.maxY

/-- On each of the four sides there is a point of the set. -/
structure TouchedBy (r : Rectangle ℝ) (S : Set (ℝ × ℝ)) : Prop where
  left : ∃ p ∈ S, p.1 = r.minX
  bottom : ∃ p ∈ S, p.2 = r.minY
  right : ∃ p ∈ S, p.1 = r.maxX
  top : ∃ p ∈ S, p.2 = r.maxY

end Rectangle

namespace Arc

variable (a : Arc ℝ)

/-- How far the arc turns from its start to its stop in its own sense; a full turn when the two
have one direction. -/
noncomputable def turned : ℝ :=
  Angle.rise (if a.clockwise then a.start - a.stop else a.stop - a.start)

noncomputable def angleAt (t : ℝ) : ℝ := if a.clockwise then a.start - t else a.start + t

def track : Set (ℝ × ℝ) := (fun t ↦ a.point (a.angleAt t)) '' Set.Icc 0 a.turned

theorem point_eq (θ : ℝ) :
    a.point θ = (a.centerX + a.radius * cos θ, a.centerY + a.radius * sin θ) := rfl

theorem point_eq_of_normalize {θ φ : ℝ} (h : Angle.normalize θ = Angle.normalize φ) :
    a.point θ = a.point φ := by
  obtain ⟨k, rfl⟩ := Angle.normalize_eq_normalize_iff.1 h
  rw [point_eq, point_eq, cos_add_int_mul_two_pi, sin_add_int_mul_two_pi]

theorem turned_of_same (h : Angle.normalize a.start = Angle.normalize a.stop) :
    a.turned = 2 * π := by
  obtain ⟨k, hk⟩ := Angle.normalize_eq_normalize_iff.1 h
  have h0 (m : ℤ) : Angle.normalize (m * (2 * π)) = 0 := by
    rw [← zero_add ((m : ℝ) * (2 * π)), Angle.normalize_add_turns,
      Angle.normalize_of_mem ⟨le_rfl, two_pi_pos⟩]
  rw [turned, hk]
  refine Angle.rise_of_normalize_eq_zero ?_
  split
  · rw [add_sub_cancel_left, h0]
  · have hm : a.stop - (a.stop + k * (2 * π)) = ((-k : ℤ) : ℝ) * (2 * π) := by
      push_cast
      ring
    rw [hm, h0]

theorem track_of_same (h : Angle.normalize a.start = Angle.normalize a.stop) :
    a.track = Set.range a.point := by
  rw [track, a.turned_of_same h]
  refine Set.Subset.antisymm ?_ ?_
  · rintro _ ⟨t, -, rfl⟩
    exact ⟨a.angleAt t, rfl⟩
  · rintro _ ⟨θ, rfl⟩
    have hcover (x : ℝ) : Angle.normalize x ∈ Set.Icc 0 (2 * π) :=
      ⟨(Angle.normalize_mem x).1, (Angle.normalize_mem x).2.le⟩
    cases hc : a.clockwise with
    | false =>
      refine ⟨Angle.normalize (θ - a.start), hcover _, a.point_eq_of_normalize ?_⟩
      obtain ⟨k, hk⟩ := Angle.exists_normalize_eq (θ - a.start)
      rw [angleAt, hc, if_neg Bool.false_ne_true, hk, Angle.normalize_eq_normalize_iff]
      exact ⟨k, by ring⟩
    | true =>
      refine ⟨Angle.normalize (a.start - θ), hcover _, a.point_eq_of_normalize ?_⟩
      obtain ⟨k, hk⟩ := Angle.exists_normalize_eq (a.start - θ)
      rw [angleAt, hc, if_pos rfl, hk, Angle.normalize_eq_normalize_iff]
      exact ⟨-k, by push_cast; ring⟩

theorem cos_sub_of_met {t d : ℝ} (h : Angle.normalize (a.angleAt t) = d) :
    cos (a.angleAt t - d) = 1 := by
  obtain ⟨k, hk⟩ := Angle.exists_normalize_eq (a.angleAt t)
  have hturns : a.angleAt t - d = ((-k : ℤ) : ℝ) * (2 * π) := by
    rw [← h, hk]
    push_cast
    ring
  rw [hturns, cos_int_mul_two_pi]

section Reversed

def reversed : Arc ℝ :=
  { a with start := a.stop, stop := a.start, clockwise := !a.clockwise }

theorem turned_reversed : a.reversed.turned = a.turned := by
  rw [turned, turned]
  cases hc : a.clockwise <;> simp [reversed, hc]

theorem normalize_angleAt_reversed (t : ℝ) :
    Angle.normalize (a.reversed.angleAt (a.turned - t)) = Angle.normalize (a.angleAt t) := by
  rw [Angle.normalize_eq_normalize_iff, turned]
  cases hc : a.clockwise with
  | false =>
    obtain ⟨k, hk⟩ := Angle.exists_rise_eq (a.stop - a.start)
    refine ⟨k, ?_⟩
    simp only [angleAt, reversed, hc, Bool.not_false, ↓reduceIte, Bool.false_eq_true]
    linarith
  | true =>
    obtain ⟨k, hk⟩ := Angle.exists_rise_eq (a.start - a.stop)
    refine ⟨-k, ?_⟩
    simp only [angleAt, reversed, hc, Bool.not_true, ↓reduceIte, Bool.false_eq_true]
    push_cast
    linarith

theorem track_subset_reversed : a.track ⊆ a.reversed.track := by
  rintro _ ⟨t, ⟨h0, h1⟩, rfl⟩
  refine ⟨a.turned - t, ⟨by linarith, ?_⟩, ?_⟩
  · rw [turned_reversed]
    linarith
  · exact a.point_eq_of_normalize (a.normalize_angleAt_reversed t)

theorem track_reversed : a.reversed.track = a.track := by
  have hback : a.reversed.reversed = a := by simp [reversed]
  refine Set.Subset.antisymm ?_ a.track_subset_reversed
  have h := a.reversed.track_subset_reversed
  rwa [hback] at h

end Reversed

section Reach

/-- How far the arc reaches from its centre in a direction. -/
noncomputable def reach (d : ℝ) : ℝ :=
  if a.sweeps d then a.radius
  else max (a.radius * cos (a.start - d)) (a.radius * cos (a.stop - d))

theorem reach_reversed (d : ℝ) : a.reversed.reach d = a.reach d := by
  have hs : a.reversed.sweeps d = a.sweeps d := Angle.inSweep_reversed a.clockwise
  rw [reach, hs, reach, max_comm]
  rfl

theorem low_side_eq {c p q d : ℝ} (hp : p = c - a.radius * cos (a.start - d))
    (hq : q = c - a.radius * cos (a.stop - d)) :
    (if a.sweeps d then c - a.radius else Coordinate.least p q) = c - a.reach d := by
  rw [reach]
  split
  · rfl
  · rw [Coordinate.least_eq, hp, hq, min_sub_sub_left]

theorem high_side_eq {c p q d : ℝ} (hp : p = c + a.radius * cos (a.start - d))
    (hq : q = c + a.radius * cos (a.stop - d)) :
    (if a.sweeps d then c + a.radius else Coordinate.greatest p q) = c + a.reach d := by
  rw [reach]
  split
  · rfl
  · rw [Coordinate.greatest_eq, hp, hq, max_add_add_left]

theorem point_fst_left (θ : ℝ) :
    (a.point θ).1 = a.centerX - a.radius * cos (θ - Angle.left) := by
  rw [Angle.cos_sub_left, mul_neg, sub_neg_eq_add]
  rfl

theorem point_snd_down (θ : ℝ) :
    (a.point θ).2 = a.centerY - a.radius * cos (θ - Angle.down) := by
  rw [Angle.cos_sub_down, mul_neg, sub_neg_eq_add]
  rfl

theorem point_fst_right (θ : ℝ) :
    (a.point θ).1 = a.centerX + a.radius * cos (θ - Angle.right) := by
  rw [Angle.cos_sub_right]
  rfl

theorem point_snd_up (θ : ℝ) : (a.point θ).2 = a.centerY + a.radius * cos (θ - Angle.up) := by
  rw [Angle.cos_sub_up]
  rfl

theorem bounds_eq : a.bounds =
    { minX := a.centerX - a.reach Angle.left
      minY := a.centerY - a.reach Angle.down
      maxX := a.centerX + a.reach Angle.right
      maxY := a.centerY + a.reach Angle.up } := by
  rw [bounds, Rectangle.mk.injEq]
  exact ⟨a.low_side_eq (a.point_fst_left _) (a.point_fst_left _),
    a.low_side_eq (a.point_snd_down _) (a.point_snd_down _),
    a.high_side_eq (a.point_fst_right _) (a.point_fst_right _),
    a.high_side_eq (a.point_snd_up _) (a.point_snd_up _)⟩

theorem bounds_reversed : a.reversed.bounds = a.bounds := by
  rw [bounds_eq, bounds_eq]
  simp only [reach_reversed]
  rfl

end Reach

section Rising

variable {a} {d : ℝ} (hc : a.clockwise = false)
include hc

theorem angleAt_rising (t : ℝ) : a.angleAt t = a.start + t := by
  rw [angleAt, hc, if_neg Bool.false_ne_true]

theorem turned_rising : a.turned = Angle.rise (a.stop - a.start) := by
  rw [turned, hc, if_neg Bool.false_ne_true]

theorem exists_stop_eq : ∃ k : ℤ, a.stop = a.angleAt a.turned + k * (2 * π) := by
  obtain ⟨k, hk⟩ := Angle.exists_rise_eq (a.stop - a.start)
  refine ⟨k, ?_⟩
  rw [angleAt_rising hc, turned_rising hc]
  linarith

theorem exists_angleAt_iff (hd : d ∈ Set.Ico 0 (2 * π)) :
    (∃ t ∈ Set.Icc 0 a.turned, Angle.normalize (a.angleAt t) = d) ↔
      Angle.normalize (d - Angle.normalize a.start) ≤ a.turned := by
  constructor
  · rintro ⟨t, ⟨h0, h1⟩, rfl⟩
    rw [Angle.normalize_sub_normalize, angleAt_rising hc, add_sub_cancel_left]
    exact (Angle.normalize_le h0).trans h1
  · intro h
    refine ⟨_, ⟨(Angle.normalize_mem _).1, h⟩, ?_⟩
    obtain ⟨k, hk⟩ := Angle.exists_normalize_eq (d - Angle.normalize a.start)
    obtain ⟨m, hm⟩ := Angle.exists_normalize_eq a.start
    have hmet : a.angleAt (Angle.normalize (d - Angle.normalize a.start)) =
        d + ((k - m : ℤ) : ℝ) * (2 * π) := by
      rw [angleAt_rising hc, hk, hm]
      push_cast
      ring
    rw [hmet, Angle.normalize_add_turns, Angle.normalize_of_mem hd]

theorem turned_of_apart (h : Angle.normalize a.start ≠ Angle.normalize a.stop) :
    a.turned = Angle.normalize (Angle.normalize a.stop - Angle.normalize a.start) := by
  rw [turned_rising hc, Angle.normalize_sub_normalize]
  refine Angle.rise_of_normalize_ne_zero fun h0 ↦ h ?_
  obtain ⟨k, hk⟩ := Angle.exists_normalize_eq (a.stop - a.start)
  rw [Angle.normalize_eq_normalize_iff]
  exact ⟨k, by linarith⟩

theorem sweeps_iff_of_apart (hd : d ∈ Set.Ico 0 (2 * π))
    (h : Angle.tiny ≤ |Angle.normalize a.start - Angle.normalize a.stop|) :
    a.sweeps d = true ↔ ∃ t ∈ Set.Icc 0 a.turned, Angle.normalize (a.angleAt t) = d := by
  have hne : Angle.normalize a.start ≠ Angle.normalize a.stop := by
    intro he
    rw [he, sub_self, abs_zero] at h
    exact absurd Angle.tiny_pos h.not_gt
  rw [exists_angleAt_iff hc hd, turned_of_apart hc hne, sweeps, hc]
  exact Angle.inSweep_rising hd (Angle.normalize_mem _) (Angle.normalize_mem _) h

theorem sweeps_of_met (hd : d ∈ Set.Ico 0 (2 * π))
    (h : ∃ t ∈ Set.Icc 0 a.turned, Angle.normalize (a.angleAt t) = d) : a.sweeps d = true := by
  rcases lt_or_ge |Angle.normalize a.start - Angle.normalize a.stop| Angle.tiny with hnear | hapart
  · exact Angle.inSweep_of_near hnear
  · exact (sweeps_iff_of_apart hc hd hapart).2 h

/-- A direction counted as swept is met, unless the ends are near each other and not the same. -/
theorem met_of_sweeps (hd : d ∈ Set.Ico 0 (2 * π))
    (h : Angle.normalize a.start = Angle.normalize a.stop ∨
      Angle.tiny ≤ |Angle.normalize a.start - Angle.normalize a.stop|)
    (hs : a.sweeps d = true) :
    ∃ t ∈ Set.Icc 0 a.turned, Angle.normalize (a.angleAt t) = d := by
  rcases h with hsame | hapart
  · rw [exists_angleAt_iff hc hd, a.turned_of_same hsame]
    exact (Angle.normalize_mem _).2.le
  · exact (sweeps_iff_of_apart hc hd hapart).1 hs

theorem cos_stop : cos (a.stop - d) = cos (a.angleAt a.turned - d) := by
  obtain ⟨k, hk⟩ := exists_stop_eq hc
  rw [hk, add_sub_right_comm, cos_add_int_mul_two_pi]

theorem mul_cos_le_reach (hr : 0 ≤ a.radius) (hd : d ∈ Set.Ico 0 (2 * π)) {t : ℝ}
    (ht : t ∈ Set.Icc 0 a.turned) : a.radius * cos (a.angleAt t - d) ≤ a.reach d := by
  rw [reach]
  split
  next hs => exact mul_le_of_le_one_right hr (cos_le_one _)
  next hs =>
    rw [← mul_max_of_nonneg _ _ hr, cos_stop hc]
    refine mul_le_mul_of_nonneg_left ?_ hr
    have h0 : a.start = a.angleAt 0 := by rw [angleAt_rising hc, add_zero]
    rw [h0]
    simp only [angleAt_rising hc] at hs ⊢
    refine Angle.cos_le_max (by linarith [ht.1]) (by linarith [ht.2]) fun k hk ↦ ?_
    -- a whole number of turns in between would be a direction that is met
    by_contra hstop
    refine hs (sweeps_of_met hc hd ⟨d + k * (2 * π) - a.start, ⟨?_, ?_⟩, ?_⟩)
    · linarith
    · linarith
    · rw [angleAt_rising hc, add_sub_cancel, Angle.normalize_add_turns, Angle.normalize_of_mem hd]

theorem exists_eq_reach (hd : d ∈ Set.Ico 0 (2 * π))
    (h : Angle.normalize a.start = Angle.normalize a.stop ∨
      Angle.tiny ≤ |Angle.normalize a.start - Angle.normalize a.stop|) :
    ∃ t ∈ Set.Icc 0 a.turned, a.radius * cos (a.angleAt t - d) = a.reach d := by
  have h0 : 0 ≤ a.turned := by
    rw [turned_rising hc]
    exact Angle.rise_nonneg _
  rw [reach]
  split
  next hs =>
    obtain ⟨t, ht, hmet⟩ := met_of_sweeps hc hd h hs
    exact ⟨t, ht, by rw [a.cos_sub_of_met hmet, mul_one]⟩
  next hs =>
    rcases max_choice (a.radius * cos (a.start - d)) (a.radius * cos (a.stop - d)) with hm | hm
    · exact ⟨0, ⟨le_rfl, h0⟩, by rw [hm, angleAt_rising hc, add_zero]⟩
    · exact ⟨a.turned, ⟨h0, le_rfl⟩, by rw [hm, cos_stop hc]⟩

theorem bounds_of_rising (hr : 0 ≤ a.radius) :
    (∀ p ∈ a.track, a.bounds.Holds p) ∧
      (Angle.normalize a.start = Angle.normalize a.stop ∨
        Angle.tiny ≤ |Angle.normalize a.start - Angle.normalize a.stop| →
        a.bounds.TouchedBy a.track) := by
  rw [bounds_eq]
  constructor
  · rintro _ ⟨t, ht, rfl⟩
    refine ⟨⟨?_, ?_⟩, ?_, ?_⟩
    · rw [point_fst_left]
      exact sub_le_sub_left (mul_cos_le_reach hc hr Angle.left_mem ht) _
    · rw [point_fst_right]
      exact add_le_add_right (mul_cos_le_reach hc hr Angle.right_mem ht) _
    · rw [point_snd_down]
      exact sub_le_sub_left (mul_cos_le_reach hc hr Angle.down_mem ht) _
    · rw [point_snd_up]
      exact add_le_add_right (mul_cos_le_reach hc hr Angle.up_mem ht) _
  · intro h
    obtain ⟨l, hl, hleft⟩ := exists_eq_reach hc Angle.left_mem h
    obtain ⟨b, hb, hdown⟩ := exists_eq_reach hc Angle.down_mem h
    obtain ⟨r, hr, hright⟩ := exists_eq_reach hc Angle.right_mem h
    obtain ⟨u, hu, hup⟩ := exists_eq_reach hc Angle.up_mem h
    constructor
    · exact ⟨_, ⟨l, hl, rfl⟩, by rw [point_fst_left, hleft]⟩
    · exact ⟨_, ⟨b, hb, rfl⟩, by rw [point_snd_down, hdown]⟩
    · exact ⟨_, ⟨r, hr, rfl⟩, by rw [point_fst_right, hright]⟩
    · exact ⟨_, ⟨u, hu, rfl⟩, by rw [point_snd_up, hup]⟩

end Rising

/-- The rectangle of an arc holds every point of the arc, and a point of the arc lies on each of
its sides if the two ends have one direction, when the arc is the whole circle, or directions
that are not close. -/
theorem bounds_track (hr : 0 ≤ a.radius) :
    (∀ p ∈ a.track, a.bounds.Holds p) ∧
      (Angle.normalize a.start = Angle.normalize a.stop ∨
        Angle.tiny ≤ |Angle.normalize a.start - Angle.normalize a.stop| →
        a.bounds.TouchedBy a.track) ∧
      (Angle.normalize a.start = Angle.normalize a.stop → a.track = Set.range a.point) := by
  refine and_assoc.1 ⟨?_, a.track_of_same⟩
  cases hc : a.clockwise with
  | false => exact bounds_of_rising hc hr
  | true =>
    have hback : a.reversed.clockwise = false := by simp [reversed, hc]
    have h := bounds_of_rising hback hr
    rw [track_reversed, bounds_reversed] at h
    refine ⟨h.1, fun hends ↦ h.2 ?_⟩
    rw [abs_sub_comm]
    exact hends.imp Eq.symm id

theorem bounds_track_acrossZero :
    let eighths : Arc ℝ := ⟨0, 0, 1, -(π / 4), π / 4, false⟩
    let around : Arc ℝ := ⟨1, 0, 2, -(π / 2), 3 * π / 2, true⟩
    ((∀ p ∈ eighths.track, eighths.bounds.Holds p) ∧ eighths.bounds.TouchedBy eighths.track) ∧
      (∀ p ∈ around.track, around.bounds.Holds p) ∧ around.bounds.TouchedBy around.track ∧
      around.track = Set.range around.point ∧ around.bounds = ⟨-1, -2, 3, 2⟩ := by
  intro eighths around
  have hpi := two_le_pi
  have hapart : Angle.tiny ≤ |Angle.normalize eighths.start - Angle.normalize eighths.stop| := by
    have hstart : Angle.normalize (-(π / 4)) = 7 * π / 4 := by
      have hmem : 7 * π / 4 ∈ Set.Ico 0 (2 * π) := ⟨by linarith, by linarith⟩
      rw [← Angle.normalize_of_mem hmem, Angle.normalize_eq_normalize_iff]
      exact ⟨-1, by push_cast; ring⟩
    have hstop : Angle.normalize (π / 4) = π / 4 :=
      Angle.normalize_of_mem ⟨by linarith, by linarith⟩
    have htiny : (Angle.tiny : ℝ) ≤ 1 := by
      change (1 : ℝ) * (1 : ℕ) / 10 ^ 9 ≤ 1
      norm_num
    change Angle.tiny ≤ |Angle.normalize (-(π / 4)) - Angle.normalize (π / 4)|
    rw [hstart, hstop, abs_of_nonneg (by linarith)]
    linarith
  have hsame : Angle.normalize around.start = Angle.normalize around.stop := by
    rw [Angle.normalize_eq_normalize_iff]
    exact ⟨-1, by simp only [around]; push_cast; ring⟩
  obtain ⟨heighths, htouch, -⟩ := bounds_track eighths zero_le_one
  obtain ⟨haround, htouched, hcircle⟩ := bounds_track around zero_le_two
  refine ⟨⟨heighths, htouch (.inr hapart)⟩, haround, htouched (.inl hsame), hcircle hsame, ?_⟩
  have hreach (d : ℝ) : around.reach d = 2 := by
    have hs : around.sweeps d = true := by
      refine Angle.inSweep_of_near ?_
      rw [hsame, sub_self, abs_zero]
      exact Angle.tiny_pos
    rw [reach, if_pos hs]
  simp only [bounds_eq, hreach, around]
  norm_num

end Arc

end StepAndRepeat
