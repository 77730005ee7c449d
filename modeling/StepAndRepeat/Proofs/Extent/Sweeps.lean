import StepAndRepeat.Proofs.Extent.Angles

namespace StepAndRepeat.Angle

open Real

variable {a s e : ℝ}

/-- Taken back from an angle, a turn stays short of zero just if it is no longer than the angle. -/
theorem normalize_sub_le_iff (x y : ℝ) :
    normalize (x - y) ≤ normalize x ↔ normalize y ≤ normalize x := by
  obtain ⟨hx0, hx1⟩ := normalize_mem x
  obtain ⟨hy0, hy1⟩ := normalize_mem y
  rw [← normalize_sub_normalize x y]
  rcases le_or_gt (normalize y) (normalize x) with hle | hlt
  · rw [normalize_sub_of_le ⟨hy0, hy1⟩ ⟨hx0, hx1⟩ hle]
    exact iff_of_true (sub_le_self _ hy0) hle
  · rw [normalize_sub_of_lt ⟨hy0, hy1⟩ ⟨hx0, hx1⟩ hlt]
    exact iff_of_false (by linarith) (not_le.2 hlt)

theorem inSweep_falling (ha : a ∈ Set.Ico 0 (2 * π)) (hs : s ∈ Set.Ico 0 (2 * π))
    (he : e ∈ Set.Ico 0 (2 * π)) (h : tiny ≤ |s - e|) :
    inSweep a s e true = true ↔ normalize (s - a) ≤ normalize (s - e) := by
  have hback : inSweep a e s false = inSweep a s e true := inSweep_reversed true
  have hturn : s - a = (s - e) - (a - e) := by ring
  rw [← hback, inSweep_rising ha he hs (abs_sub_comm s e ▸ h), hturn, normalize_sub_le_iff]

section Arcs

/-- The directions that a sweep covers. -/
def swept (s e : ℝ) (clockwise : Bool) : Set ℝ :=
  {a | a ∈ Set.Ico 0 turn ∧ inSweep a s e clockwise = true}

theorem mem_swept {a : ℝ} {clockwise : Bool} : a ∈ swept s e clockwise ↔
    a ∈ Set.Ico 0 (2 * π) ∧ inSweep a s e clockwise = true := by
  rw [swept, turn_eq, Set.mem_ofPred_eq]

theorem swept_reversed (clockwise : Bool) : swept e s (!clockwise) = swept s e clockwise := by
  ext a
  rw [mem_swept, mem_swept, inSweep_reversed]

theorem swept_rising_of_lt (hs : s ∈ Set.Ico 0 (2 * π)) (he : e ∈ Set.Ico 0 (2 * π))
    (h : tiny ≤ |s - e|) (hse : s < e) : swept s e false = Set.Icc s e := by
  ext a
  rw [mem_swept, inSweep_eq, if_neg (not_lt.2 h), if_neg Bool.false_ne_true,
    if_pos hse.le, Bool.and_eq_true, decide_eq_true_eq, decide_eq_true_eq]
  exact and_iff_right_of_imp fun ha ↦ ⟨hs.1.trans ha.1, ha.2.trans_lt he.2⟩

theorem swept_falling_of_lt (hs : s ∈ Set.Ico 0 (2 * π)) (he : e ∈ Set.Ico 0 (2 * π))
    (h : tiny ≤ |s - e|) (hse : s < e) :
    swept s e true = Set.Icc 0 s ∪ Set.Ico e (2 * π) := by
  ext a
  rw [mem_swept, inSweep_eq, if_neg (not_lt.2 h), if_pos rfl,
    if_neg (not_le.2 hse), Bool.or_eq_true, decide_eq_true_eq, decide_eq_true_eq, and_or_left]
  refine or_congr ⟨fun ha ↦ ⟨ha.1.1, ha.2⟩, fun ha ↦ ⟨⟨ha.1, ha.2.trans_lt hs.2⟩, ha.2⟩⟩
    ⟨fun ha ↦ ⟨ha.2, ha.1.2⟩, fun ha ↦ ⟨⟨he.1.trans ha.1, ha.2⟩, ha.1⟩⟩

theorem swept_union_of_lt (hs : s ∈ Set.Ico 0 (2 * π)) (he : e ∈ Set.Ico 0 (2 * π))
    (h : tiny ≤ |s - e|) (hse : s < e) :
    swept s e false ∪ swept s e true = Set.Ico 0 (2 * π) := by
  rw [swept_rising_of_lt hs he h hse, swept_falling_of_lt hs he h hse, ← Set.union_assoc,
    Set.union_comm (Set.Icc s e), Set.Icc_union_Icc_eq_Icc hs.1 hse.le,
    Set.Icc_union_Ico_eq_Ico he.1 he.2]

theorem swept_inter_of_lt (hs : s ∈ Set.Ico 0 (2 * π)) (he : e ∈ Set.Ico 0 (2 * π))
    (h : tiny ≤ |s - e|) (hse : s < e) : swept s e false ∩ swept s e true = {s, e} := by
  rw [swept_rising_of_lt hs he h hse, swept_falling_of_lt hs he h hse]
  ext a
  constructor
  · rintro ⟨⟨hsa, hae⟩, ⟨-, has⟩ | ⟨hea, -⟩⟩
    · exact .inl (le_antisymm has hsa)
    · exact .inr (le_antisymm hae hea)
  · rintro (rfl | rfl)
    · exact ⟨⟨le_rfl, hse.le⟩, .inl ⟨hs.1, le_rfl⟩⟩
    · exact ⟨⟨hse.le, le_rfl⟩, .inr ⟨le_rfl, he.2⟩⟩

theorem swept_union (hs : s ∈ Set.Ico 0 (2 * π)) (he : e ∈ Set.Ico 0 (2 * π))
    (h : tiny ≤ |s - e|) : swept s e false ∪ swept s e true = Set.Ico 0 (2 * π) := by
  have hne : s ≠ e := sub_ne_zero.1 (abs_pos.1 (tiny_pos.trans_le h))
  rcases hne.lt_or_gt with hse | hes
  · exact swept_union_of_lt hs he h hse
  · rw [← swept_reversed false, ← swept_reversed true, Set.union_comm]
    exact swept_union_of_lt he hs (abs_sub_comm s e ▸ h) hes

theorem swept_inter (hs : s ∈ Set.Ico 0 (2 * π)) (he : e ∈ Set.Ico 0 (2 * π))
    (h : tiny ≤ |s - e|) : swept s e false ∩ swept s e true = {s, e} := by
  have hne : s ≠ e := sub_ne_zero.1 (abs_pos.1 (tiny_pos.trans_le h))
  rcases hne.lt_or_gt with hse | hes
  · exact swept_inter_of_lt hs he h hse
  · rw [← swept_reversed false, ← swept_reversed true, Set.inter_comm, Set.pair_comm]
    exact swept_inter_of_lt he hs (abs_sub_comm s e ▸ h) hes

end Arcs

/-- The test for a swept direction is the order of the circle from the start on: turning the way of
the sweep, the direction is met no later than the stop. A sweep one way is the sweep back the other
way, and the two sweeps from one direction to another cover the circle and share only their
ends. -/
theorem inSweep_circular (hs : s ∈ Set.Ico 0 (2 * π)) (he : e ∈ Set.Ico 0 (2 * π))
    (h : tiny ≤ |s - e|) :
    (∀ a ∈ Set.Ico 0 (2 * π),
      (inSweep a s e false = true ↔
        toIcoMod two_pi_pos 0 (a - s) ≤ toIcoMod two_pi_pos 0 (e - s)) ∧
      (inSweep a s e true = true ↔
        toIcoMod two_pi_pos 0 (s - a) ≤ toIcoMod two_pi_pos 0 (s - e))) ∧
      swept s e true = swept e s false ∧
      swept s e false ∪ swept s e true = Set.Ico 0 (2 * π) ∧
      swept s e false ∩ swept s e true = {s, e} := by
  refine ⟨fun a ha ↦ ?_, (swept_reversed true).symm, swept_union hs he h, swept_inter hs he h⟩
  rw [← normalize_eq, ← normalize_eq, ← normalize_eq, ← normalize_eq]
  exact ⟨inSweep_rising ha hs he h, inSweep_falling ha hs he h⟩

theorem inSweep_circular_acrossZero :
    inSweep 0 (π / 4) (7 * π / 4) true = true ∧ inSweep π (π / 4) (7 * π / 4) false = true ∧
      swept (π / 4) (7 * π / 4) false ∩ swept (π / 4) (7 * π / 4) true =
        {π / 4, 7 * π / 4} := by
  have hpi := two_le_pi
  have hs : π / 4 ∈ Set.Ico 0 (2 * π) := ⟨by linarith, by linarith⟩
  have he : 7 * π / 4 ∈ Set.Ico 0 (2 * π) := ⟨by linarith, by linarith⟩
  have htiny : (tiny : ℝ) ≤ 1 := by
    change (1 : ℝ) * (1 : ℕ) / 10 ^ 9 ≤ 1
    norm_num
  have hapart : tiny ≤ |π / 4 - 7 * π / 4| := by
    rw [abs_sub_comm, abs_of_nonneg (by linarith)]
    linarith
  have hzero : (0 : ℝ) ∈ Set.Ico 0 (2 * π) := ⟨le_rfl, two_pi_pos⟩
  have hhalf : π ∈ Set.Ico 0 (2 * π) := left_mem
  obtain ⟨hmem, -, -, hends⟩ := inSweep_circular hs he hapart
  refine ⟨(hmem 0 hzero).2.2 ?_, (hmem π hhalf).1.2 ?_, hends⟩
  · rw [← normalize_eq, ← normalize_eq, sub_zero, normalize_of_mem hs,
      normalize_sub_of_lt he hs (by linarith)]
    linarith
  · rw [← normalize_eq, ← normalize_eq, normalize_sub_of_le hs hhalf (by linarith),
      normalize_sub_of_le hs he (by linarith)]
    linarith

end StepAndRepeat.Angle
