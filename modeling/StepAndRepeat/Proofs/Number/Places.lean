import StepAndRepeat.Proofs.Number.Storing

namespace StepAndRepeat.Binary

open Float.Model Float.Model.UnpackedFloat

variable {x y : Float} {f g : UnpackedFloat} {m n : ℕ} {d e : ℤ}

theorem Canonical.lt_of_lex (h : Canonical m d) (h' : Canonical n e) (hlt : d < e ∨ d = e ∧ m < n) :
    (m : ℝ) * 2 ^ d < n * 2 ^ e := by
  rcases hlt with hlt | ⟨rfl, hlt⟩
  · have hfull : 2 ^ 52 ≤ n := h'.full.resolve_right (by have := h.least; omega)
    calc (m : ℝ) * 2 ^ d < ((2 ^ 53 : ℕ) : ℝ) * 2 ^ d :=
          mul_lt_mul_of_pos_right (by exact_mod_cast h.lt) (two_zpow_pos d)
      _ = 2 ^ (d + 1 + (52 : ℕ)) := by rw [← two_zpow_add]; congr 1; push_cast; ring
      _ = ((2 ^ 52 : ℕ) : ℝ) * 2 ^ (d + 1) := two_zpow_add _ _
      _ ≤ ((2 ^ 52 : ℕ) : ℝ) * 2 ^ e :=
          mul_le_mul_of_nonneg_left (two_zpow_mono hlt) (Nat.cast_nonneg _)
      _ ≤ n * 2 ^ e := mul_le_mul_of_nonneg_right (by exact_mod_cast hfull) (two_zpow_pos e).le
  · exact mul_lt_mul_of_pos_right (by exact_mod_cast hlt) (two_zpow_pos d)

theorem digits_pos (hm : 0 < m) (e : ℤ) : (0 : ℝ) < m * 2 ^ e :=
  mul_pos (by exact_mod_cast hm) (two_zpow_pos e)

theorem amount_lt_of_rank (hf : Settled f) (hg : Settled g) (h : rank f < rank g) :
    amount f < amount g := by
  cases f with
  | zero s =>
    cases g with
    | zero t => exact absurd h (lt_irrefl _)
    | finite t n e hn =>
      cases t with
      | positive => exact digits_pos hn e
      | negative => simp [rank, Prod.Lex.toLex_lt_toLex] at h
    | _ => exact hg.elim
  | finite s m d hm =>
    cases g with
    | zero t =>
      cases s with
      | positive => simp [rank, Prod.Lex.toLex_lt_toLex] at h
      | negative => exact neg_lt_zero.2 (digits_pos hm d)
    | finite t n e hn =>
      cases s <;> cases t
      · simp [rank, Prod.Lex.toLex_lt_toLex] at h
        exact neg_lt_neg (hg.lt_of_lex hf (by omega))
      · exact (neg_lt_zero.2 (digits_pos hm d)).trans (digits_pos hn e)
      · simp [rank, Prod.Lex.toLex_lt_toLex] at h
      · simp [rank, Prod.Lex.toLex_lt_toLex] at h
        exact hf.lt_of_lex hg h
    | _ => exact hg.elim
  | _ => exact hf.elim

theorem rank_finite (s : Sign) (hm : 0 < m) (e : ℤ) :
    rank (.finite s m e hm) = toLex (s.apply 1, toLex (s.apply e, s.apply m)) := by
  cases s <;> rfl

theorem place_eq_of_rank (h : rank f = rank g) : place f = place g := by
  cases f with
  | finite s m d hm =>
    rw [rank_finite] at h
    cases g with
    | finite t n e hn =>
      rw [rank_finite] at h
      cases s <;> cases t <;> simp_all [Sign.apply]
    | infinity t => cases s <;> cases t <;> simp [rank, Sign.apply] at h
    | _ => cases s <;> simp [rank, Sign.apply] at h
  | infinity s =>
    cases g with
    | finite t n e hn => cases s <;> cases t <;> simp [rank] at h
    | infinity t => cases s <;> cases t <;> simp [rank] at h <;> rfl
    | _ => cases s <;> simp [rank] at h
  | _ =>
    cases g with
    | finite t n e hn => cases t <;> simp [rank] at h
    | infinity t => cases t <;> simp [rank] at h
    | _ => rfl

theorem rank_infinity_le (f : UnpackedFloat) :
    rank (.infinity .negative) ≤ rank f ∧ rank f ≤ rank (.infinity .positive) := by
  cases f with
  | infinity s => cases s <;> decide
  | finite s m e hm =>
    cases s <;> simp [rank, Prod.Lex.toLex_le_toLex]
  | _ => simp [rank, Prod.Lex.toLex_le_toLex]

theorem extended_lt_of_rank (hx : IsNumber x) (hy : IsNumber y)
    (h : rank (parts x) < rank (parts y)) : extended x < extended y := by
  unfold extended
  by_cases hfx : IsFinite x
  · by_cases hfy : IsFinite y
    · rw [place_of_settled (settled_parts hfx), place_of_settled (settled_parts hfy)]
      exact EReal.coe_lt_coe_iff.2 (amount_lt_of_rank (settled_parts hfx) (settled_parts hfy) h)
    · obtain ⟨t, ht⟩ := (parts_of_not_isFinite hfy).resolve_left hy
      rw [place_of_settled (settled_parts hfx)]
      rw [ht] at h ⊢
      cases t with
      | positive => exact EReal.coe_lt_top _
      | negative => exact absurd h (rank_infinity_le _).1.not_gt
  · obtain ⟨s, hs⟩ := (parts_of_not_isFinite hfx).resolve_left hx
    rw [hs] at h ⊢
    cases s with
    | positive => exact absurd h (rank_infinity_le _).2.not_gt
    | negative =>
      by_cases hfy : IsFinite y
      · rw [place_of_settled (settled_parts hfy)]
        exact EReal.bot_lt_coe _
      · obtain ⟨t, ht⟩ := (parts_of_not_isFinite hfy).resolve_left hy
        rw [ht] at h ⊢
        cases t with
        | positive => exact bot_lt_top
        | negative => exact absurd h (lt_irrefl _)

/-- Numbers compare as their places do. -/
theorem extended_lt_iff (hx : IsNumber x) (hy : IsNumber y) : x < y ↔ extended x < extended y := by
  rw [← rank_lt_iff hx hy]
  refine ⟨extended_lt_of_rank hx hy, fun h ↦ ?_⟩
  rcases lt_trichotomy (rank (parts x)) (rank (parts y)) with hlt | heq | hgt
  · exact hlt
  · exact absurd h (place_eq_of_rank heq).ge.not_gt
  · exact absurd h (extended_lt_of_rank hy hx hgt).not_gt

theorem extended_le_iff (hx : IsNumber x) (hy : IsNumber y) : x ≤ y ↔ extended x ≤ extended y := by
  rw [← rank_le_iff hx hy, ← not_lt, ← not_lt, rank_lt_iff hy hx, extended_lt_iff hy hx]

end StepAndRepeat.Binary
