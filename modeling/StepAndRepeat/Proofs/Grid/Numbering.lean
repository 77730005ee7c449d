import Mathlib.Data.List.Basic
import StepAndRepeat.Grid.Plan
import StepAndRepeat.Grid.SkipText

namespace StepAndRepeat.Layout

variable {α : Type} [Coordinate α] (l : Layout α)

def unskipped : Layout α := { l with skip := [] }

theorem plan_unskipped : l.unskipped.plan = l.cells := by
  rw [plan, List.filter_eq_self.2 fun i _ ↦ by simp [unskipped]]
  rfl

theorem map_part_row (row : Nat) :
    ((List.range l.columns).map (l.cell row)).map Instance.part =
      (List.range l.columns).map fun (k : Nat) ↦ ((row * l.columns + k : Nat) : Int) + 1 := by
  rw [List.map_map]
  refine List.map_congr_left fun k _ ↦ ?_
  simp [cell]

theorem map_part_rows (n : Nat) :
    ((List.range n).flatMap fun row ↦ (List.range l.columns).map (l.cell row)).map Instance.part =
      (List.range (n * l.columns)).map fun (k : Nat) ↦ (k : Int) + 1 := by
  induction n with
  | zero => simp
  | succ n ih =>
    rw [List.range_succ, List.flatMap_append, List.map_append, ih, List.flatMap_singleton,
      map_part_row, Nat.succ_mul, List.range_add, List.map_append, List.map_map]
    rfl

theorem map_part_cells :
    l.cells.map Instance.part = (List.range l.total).map fun (k : Nat) ↦ (k : Int) + 1 :=
  l.map_part_rows l.rows

theorem map_part_plan :
    l.plan.map Instance.part = (SkipText.upTo 1 l.total).filter fun n ↦ !l.skip.contains n := by
  have hcells : l.cells.map Instance.part = SkipText.upTo 1 l.total := by
    rw [map_part_cells, SkipText.upTo]
    have hlen : ((l.total : Int) + 1 - 1).toNat = l.total := by omega
    rw [hlen]
    exact List.map_congr_left fun k _ ↦ Int.add_comm _ _
  rw [plan, ← hcells, List.filter_map]
  rfl

theorem mem_cells {l : Layout α} {i : Instance α} :
    i ∈ l.cells ↔ ∃ row < l.rows, ∃ column < l.columns, l.cell row column = i := by
  simp [cells]

theorem exists_cell_of_mem_plan {l : Layout α} {i : Instance α} (h : i ∈ l.plan) :
    ∃ row < l.rows, ∃ column < l.columns, i = l.cell row column := by
  obtain ⟨row, hrow, column, hcolumn, rfl⟩ := mem_cells.1 (List.mem_of_mem_filter h)
  exact ⟨row, hrow, column, hcolumn, rfl⟩

theorem exists_last_cell : ∃ is i, l.cells = is ++ [i] ∧ i.part = (l.total : Int) := by
  have hpos : 0 < l.total := Nat.mul_pos l.rows_pos l.columns_pos
  have hlast : (l.cells.map Instance.part).getLast? = some (l.total : Int) := by
    obtain ⟨n, hn⟩ := Nat.exists_eq_succ_of_ne_zero (Nat.pos_iff_ne_zero.1 hpos)
    rw [map_part_cells, hn, List.range_succ, List.map_append, List.map_singleton,
      List.getLast?_concat]
    push_cast
    rfl
  rcases List.eq_nil_or_concat' l.cells with hnil | ⟨is, i, hi⟩
  · simp [hnil] at hlast
  · refine ⟨is, i, hi, ?_⟩
    rw [hi, List.map_append, List.map_singleton, List.getLast?_concat] at hlast
    exact Option.some_inj.1 hlast

end StepAndRepeat.Layout
