import StepAndRepeat.Grid.Plan

namespace StepAndRepeat.Layout

variable {α : Type} [Coordinate α] {rows columns : Int} {spacingX spacingY : α}
  {rowDirection columnDirection : Direction} {skip : List Int} {l : Layout α}

structure Answers (l : Layout α) (rows columns : Int) (spacingX spacingY : α)
    (rowDirection columnDirection : Direction) (skip : List Int) : Prop where
  rows_eq : (l.rows : Int) = rows
  columns_eq : (l.columns : Int) = columns
  spacingX_eq : l.spacingX = spacingX
  spacingY_eq : l.spacingY = spacingY
  rowDirection_eq : l.rowDirection = rowDirection
  columnDirection_eq : l.columnDirection = columnDirection
  skip_eq : l.skip = skip

theorem answers_of_make
    (h : make rows columns spacingX spacingY rowDirection columnDirection skip = .ok l) :
    l.Answers rows columns spacingX spacingY rowDirection columnDirection skip := by
  unfold make at h
  repeat' split at h
  all_goals cases h
  next hr hc _ _ =>
    have hrows : (rows.toNat : Int) = rows := by omega
    have hcolumns : (columns.toNat : Int) = columns := by omega
    exact ⟨hrows, hcolumns, rfl, rfl, rfl, rfl, rfl⟩

theorem Answers.total_eq
    (h : l.Answers rows columns spacingX spacingY rowDirection columnDirection skip) :
    (l.total : Int) = rows * columns := by
  rw [total, Int.natCast_mul, h.rows_eq, h.columns_eq]

theorem Answers.plan_eq
    (h : l.Answers rows columns spacingX spacingY rowDirection columnDirection []) :
    l.plan = l.cells := by
  rw [plan, h.skip_eq, List.filter_eq_self.2 fun i _ ↦ by simp]

/-- Skipping parts changes nothing else of a layout, nor whether there is one. -/
theorem make_skip (rows columns : Int) (spacingX spacingY : α)
    (rowDirection columnDirection : Direction) (skip : List Int) :
    make rows columns spacingX spacingY rowDirection columnDirection skip =
      (make rows columns spacingX spacingY rowDirection columnDirection []).map
        fun l ↦ { l with skip := skip } := by
  unfold make
  repeat' split
  all_goals rfl

end StepAndRepeat.Layout
