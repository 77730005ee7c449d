import Mathlib.Data.Int.Interval
import StepAndRepeat.Proofs.Grid.Numbering
import StepAndRepeat.Proofs.Grid.Reach
import StepAndRepeat.Proofs.Grid.SkipLanguage
import StepAndRepeat.Proofs.Number.Magnitude

namespace StepAndRepeat

/-- A number counted in a direction: the negative direction turns its sign. -/
def Direction.turn : Direction → Float → Float
  | positive, x => x
  | negative, x => -x

namespace Binary

open Float.Model Float.Model.UnpackedFloat

theorem mul_of_not_finite {f : UnpackedFloat} (hf : ∀ s m e hm, f ≠ .finite s m e hm)
    {m : ℕ} {e : ℤ} (hm : 0 < m) :
    UnpackedFloat.mul Format.binary64 f (.finite .positive m e hm) = f ∧
      UnpackedFloat.mul Format.binary64 f (.finite .negative m e hm) = UnpackedFloat.neg f := by
  cases f with
  | finite s n d hn => exact absurd rfl (hf s n d hn)
  | notANumber => exact ⟨rfl, rfl⟩
  | infinity s => cases s <;> exact ⟨rfl, rfl⟩
  | zero s => cases s <;> exact ⟨rfl, rfl⟩

theorem stored_value_ne_zero {x : Float} {s : Sign} {m : ℕ} {e : ℤ} {hm : 0 < m}
    (h : parts x = .finite s m e hm) : stored (value x) ≠ 0 := by
  have hpos : (0 : ℝ) < m * 2 ^ e := by positivity
  rw [stored_value, value, h, amount_finite, EReal.coe_ne_zero]
  cases s with
  | positive => exact hpos.ne'
  | negative => exact (neg_neg_of_pos hpos).ne

theorem mul_sign (x : Float) (d : Direction) : x * ofInt d.sign = d.turn x := by
  obtain ⟨hone, hvalue⟩ := Layout.value_one
  have hneg : ofInt (-1) = -ofInt 1 := rfl
  -- a number with digits is told by its value, which a factor of one or minus one keeps up to sign
  by_cases hx : ∃ s m e hm, parts x = .finite s m e hm
  · obtain ⟨s, m, e, hm, hp⟩ := hx
    have hfin : IsFinite x := isFinite_of_parts hp
    cases d with
    | positive =>
      change x * ofInt 1 = x
      have hmul := stores_mul hfin hone
      rw [hvalue, mul_one] at hmul
      exact hmul.eq (stores_value hfin) (stored_value_ne_zero hp)
    | negative =>
      change x * ofInt (-1) = -x
      obtain ⟨hminus, hvalue'⟩ := Layout.value_minus_one
      have hmul := stores_mul hfin hminus
      rw [hvalue', mul_neg_one] at hmul
      refine hmul.eq (stores_value hfin).neg ?_
      rw [stored_neg]
      simpa using stored_value_ne_zero hp
  · push Not at hx
    obtain ⟨m, e, hm, hp⟩ := positive_parts hone (by rw [hvalue]; exact one_pos)
    obtain ⟨hpos, hminus⟩ := mul_of_not_finite hx (e := e) hm
    cases d with
    | positive =>
      change x * ofInt 1 = x
      rw [parts_mul, hp, hpos, ofParts_parts]
    | negative =>
      change x * ofInt (-1) = -x
      rw [parts_mul, hneg, parts_neg (parts_ne hone).1, hp, parts_neg_eq, ← hminus]
      rfl

end Binary

namespace Layout

section Cells

variable {α : Type} [Coordinate α] {l : Layout α}

theorem mem_map_part_plan {n : ℤ} :
    n ∈ l.plan.map Instance.part ↔ (1 ≤ n ∧ n ≤ l.total) ∧ n ∉ l.skip := by
  rw [map_part_plan, List.mem_filter, SkipText.mem_upTo]
  simp

theorem pairwise_part_plan (l : Layout α) : (l.plan.map Instance.part).Pairwise (· < ·) := by
  rw [map_part_plan]
  exact (SkipText.pairwise_upTo _ _).sublist List.filter_sublist

theorem length_plan (l : Layout α) :
    l.plan.length + ((Finset.Icc 1 (l.total : ℤ)).filter (· ∈ l.skip)).card = l.total := by
  have hplanned : (Finset.Icc 1 (l.total : ℤ)).filter (· ∉ l.skip) =
      (l.plan.map Instance.part).toFinset := by
    ext n
    rw [Finset.mem_filter, Finset.mem_Icc, List.mem_toFinset, mem_map_part_plan]
  have hnodup : (l.plan.map Instance.part).Nodup := l.pairwise_part_plan.imp ne_of_lt
  have hsplit := Finset.card_filter_add_card_filter_not (s := Finset.Icc 1 (l.total : ℤ))
    (· ∈ l.skip)
  rw [hplanned, List.toFinset_card_of_nodup hnodup, List.length_map, Int.card_Icc] at hsplit
  omega

theorem part_cell_div_mod (row : ℕ) {column : ℕ} (h : column < l.columns) :
    ((l.cell row column).part - 1) / l.columns = row ∧
      ((l.cell row column).part - 1) % l.columns = column := by
  have hpart : (l.cell row column).part - 1 = column + l.columns * row := by
    rw [cell]
    push_cast
    ring
  have hpos : (l.columns : ℤ) ≠ 0 := by omega
  rw [hpart, Int.add_mul_ediv_left _ _ hpos, Int.add_mul_emod_self_left,
    Int.ediv_eq_zero_of_lt (by omega) (by omega), Int.emod_eq_of_lt (by omega) (by omega), zero_add]
  exact ⟨rfl, rfl⟩

end Cells

/-- Only the first cell is displaced by nothing; the sign of the others is that of the direction.
Cells are counted from one here. -/
theorem displacement_eq (k : ℕ) (spacing : Float) (d : Direction) :
    displacement k spacing d =
      if (k : ℤ) + 1 = 1 then 0 else d.turn (Binary.ofInt (k + 1 - 1) * spacing) := by
  unfold displacement
  rw [add_sub_cancel_right]
  by_cases hk : k = 0
  · rw [if_pos hk, if_pos (by omega)]
    rfl
  · rw [if_neg hk, if_neg (by omega)]
    exact Binary.mul_sign _ d

/-- The number of an instance gives its cell, and the cell how far it lies from the first. -/
structure Places (l : Layout Float) (i : Instance Float) : Prop where
  row_eq : i.row = (i.part - 1) / l.columns + 1
  column_eq : i.column = (i.part - 1) % l.columns + 1
  x_eq : i.offset.x =
    if i.column = 1 then 0 else l.columnDirection.turn (Binary.ofInt (i.column - 1) * l.spacingX)
  y_eq : i.offset.y =
    if i.row = 1 then 0 else l.rowDirection.turn (Binary.ofInt (i.row - 1) * l.spacingY)

theorem places_cell (l : Layout Float) (row : ℕ) {column : ℕ} (h : column < l.columns) :
    l.Places (l.cell row column) := by
  obtain ⟨hrow, hcolumn⟩ := part_cell_div_mod row h
  constructor
  · rw [hrow]
    rfl
  · rw [hcolumn]
    rfl
  · exact displacement_eq column _ _
  · exact displacement_eq row _ _

/-- A plan has the numbers of all parts but those to skip, each once and rising, and each lies where
its number says. -/
theorem plan_places (l : Layout Float) :
    (l.plan.map Instance.part).Pairwise (· < ·) ∧
      (∀ n, n ∈ l.plan.map Instance.part ↔ (1 ≤ n ∧ n ≤ (l.rows * l.columns : ℤ)) ∧ n ∉ l.skip) ∧
      l.plan.length + ((Finset.Icc 1 (l.rows * l.columns : ℤ)).filter (· ∈ l.skip)).card =
        l.rows * l.columns ∧
      ∀ i ∈ l.plan, l.Places i := by
  have htotal : (l.total : ℤ) = l.rows * l.columns := by rw [total, Nat.cast_mul]
  refine ⟨l.pairwise_part_plan, fun n ↦ ?_, ?_, fun i hi ↦ ?_⟩
  · rw [mem_map_part_plan, htotal]
  · rw [← htotal]
    exact l.length_plan
  · obtain ⟨row, -, column, hcolumn, rfl⟩ := exists_cell_of_mem_plan hi
    exact l.places_cell row hcolumn

-- two of the numbers to skip are none of the grid
example : (Layout.make 2 3 (20 : Float) 15 .positive .negative [2, 9, -1]).toOption.map
    (fun l ↦ l.plan.map Instance.part) = some [1, 3, 4, 5, 6] := by
  decide +kernel

end Layout

end StepAndRepeat
