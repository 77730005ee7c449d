import Mathlib
import StepAndRepeat.Settings.Settings
import StepAndRepeat.Proofs.Grid.Making
import StepAndRepeat.Proofs.Grid.Numbering
import StepAndRepeat.Proofs.Number.Exact

namespace StepAndRepeat

open Set

namespace Layout

section Axis

variable {size spacing : ℝ} {count m n : ℕ} {d : Direction}

theorem displacement_positive (n : ℕ) (spacing : ℝ) :
    displacement n spacing .positive = n * spacing := by
  unfold displacement
  split
  next h =>
    subst h
    change ((0 : ℤ) : ℝ) = (0 : ℕ) * spacing
    simp
  next =>
    change ((n : ℤ) : ℝ) * spacing * ((1 : ℤ) : ℝ) = n * spacing
    simp

theorem displacement_negative (n : ℕ) (spacing : ℝ) :
    displacement n spacing .negative = -(n * spacing) := by
  unfold displacement
  split
  next h =>
    subst h
    change ((0 : ℤ) : ℝ) = -((0 : ℕ) * spacing)
    simp
  next =>
    change ((n : ℤ) : ℝ) * spacing * ((-1 : ℤ) : ℝ) = -(n * spacing)
    simp

/-- What the part in a row or column, counted from zero, takes of an axis. -/
def slot (n : ℕ) (size spacing : ℝ) (d : Direction) : Set ℝ :=
  Icc (displacement n spacing d) (displacement n spacing d + size)

/-- A set reaches from a least number to a greatest one, so far apart. -/
def Measures (s : Set ℝ) (length : ℝ) : Prop :=
  ∃ lo hi, IsLeast s lo ∧ IsGreatest s hi ∧ hi - lo = length

theorem mul_spacing_mem (hs : 1 < count → 0 < spacing) (hn : n < count) :
    0 ≤ n * spacing ∧ n * spacing ≤ ((count - 1 : ℕ) : ℝ) * spacing := by
  rcases Nat.eq_zero_or_pos n with rfl | hpos
  · refine ⟨by simp, ?_⟩
    rcases Nat.lt_or_ge 1 count with hc | hc
    · have hspacing := hs hc
      rw [Nat.cast_zero, zero_mul]
      positivity
    · rw [Nat.sub_eq_zero_of_le hc]
  · have hspacing := hs (by omega)
    refine ⟨by positivity, ?_⟩
    gcongr
    omega

theorem measures_slots (hsize : 0 ≤ size) (hcount : 0 < count) (hs : 1 < count → 0 < spacing)
    (d : Direction) :
    Measures {x | ∃ n < count, x ∈ slot n size spacing d} ((count - 1 : ℕ) * spacing + size) := by
  have hlast : count - 1 < count := by omega
  cases d with
  | positive =>
    refine ⟨0, (count - 1 : ℕ) * spacing + size, ⟨?_, ?_⟩, ⟨?_, ?_⟩, by ring⟩
    · exact ⟨0, hcount, by simp [slot, displacement_positive, hsize]⟩
    · rintro x ⟨n, hn, hx, -⟩
      rw [displacement_positive] at hx
      linarith [(mul_spacing_mem hs hn).1]
    · exact ⟨count - 1, hlast, by simp [slot, displacement_positive, hsize]⟩
    · rintro x ⟨n, hn, -, hx⟩
      rw [displacement_positive] at hx
      linarith [(mul_spacing_mem hs hn).2]
  | negative =>
    refine ⟨-((count - 1 : ℕ) * spacing), size, ⟨?_, ?_⟩, ⟨?_, ?_⟩, by ring⟩
    · exact ⟨count - 1, hlast, by simp [slot, displacement_negative, hsize]⟩
    · rintro x ⟨n, hn, hx, -⟩
      rw [displacement_negative] at hx
      linarith [(mul_spacing_mem hs hn).2]
    · exact ⟨0, hcount, by simp [slot, displacement_negative, hsize]⟩
    · rintro x ⟨n, hn, -, hx⟩
      rw [displacement_negative] at hx
      linarith [(mul_spacing_mem hs hn).1]

theorem disjoint_interior_slot (hsize : 0 ≤ size) (hs : size ≤ spacing) (hmn : m < n) :
    Disjoint (interior (slot m size spacing d)) (interior (slot n size spacing d)) := by
  have hstep : m * spacing + size ≤ n * spacing := by
    have hnext : ((m + 1 : ℕ) : ℝ) ≤ n := by exact_mod_cast hmn
    calc m * spacing + size ≤ m * spacing + spacing := by gcongr
      _ = ((m + 1 : ℕ) : ℝ) * spacing := by push_cast; ring
      _ ≤ n * spacing := by gcongr; exact hsize.trans hs
  rw [slot, slot, interior_Icc, interior_Icc, Set.disjoint_left]
  intro x hm hn
  cases d with
  | positive =>
    rw [displacement_positive] at hm hn
    linarith [hm.2, hn.1]
  | negative =>
    rw [displacement_negative] at hm hn
    linarith [hm.1, hn.2]

end Axis

section Grid

variable {width height : ℝ}

def tile (width height : ℝ) (i : Instance ℝ) : Set (ℝ × ℝ) :=
  Icc i.offset.x (i.offset.x + width) ×ˢ Icc i.offset.y (i.offset.y + height)

/-- What the parts of a plan cover together. -/
def ground (width height : ℝ) (is : List (Instance ℝ)) : Set (ℝ × ℝ) :=
  {p | ∃ i ∈ is, p ∈ tile width height i}

theorem tile_cell (l : Layout ℝ) (row column : ℕ) :
    tile width height (l.cell row column) =
      slot column width l.spacingX l.columnDirection ×ˢ
        slot row height l.spacingY l.rowDirection := rfl

theorem fst_ground_cells (l : Layout ℝ) (hh : 0 ≤ height) :
    Prod.fst '' ground width height l.cells =
      {x | ∃ n < l.columns, x ∈ slot n width l.spacingX l.columnDirection} := by
  ext x
  constructor
  · rintro ⟨p, ⟨i, hi, hp⟩, rfl⟩
    obtain ⟨row, -, column, hcolumn, rfl⟩ := mem_cells.1 hi
    exact ⟨column, hcolumn, hp.1⟩
  · rintro ⟨column, hcolumn, hx⟩
    have hcell : l.cell 0 column ∈ l.cells :=
      mem_cells.2 ⟨0, l.rows_pos, column, hcolumn, rfl⟩
    have hy : (l.cell 0 column).offset.y ≤ (l.cell 0 column).offset.y + height :=
      le_add_of_nonneg_right hh
    exact ⟨(x, (l.cell 0 column).offset.y), ⟨_, hcell, hx, le_rfl, hy⟩, rfl⟩

theorem snd_ground_cells (l : Layout ℝ) (hw : 0 ≤ width) :
    Prod.snd '' ground width height l.cells =
      {y | ∃ n < l.rows, y ∈ slot n height l.spacingY l.rowDirection} := by
  ext y
  constructor
  · rintro ⟨p, ⟨i, hi, hp⟩, rfl⟩
    obtain ⟨row, hrow, column, -, rfl⟩ := mem_cells.1 hi
    exact ⟨row, hrow, hp.2⟩
  · rintro ⟨row, hrow, hy⟩
    have hcell : l.cell row 0 ∈ l.cells := mem_cells.2 ⟨row, hrow, 0, l.columns_pos, rfl⟩
    have hx : (l.cell row 0).offset.x ≤ (l.cell row 0).offset.x + width :=
      le_add_of_nonneg_right hw
    exact ⟨((l.cell row 0).offset.x, y), ⟨_, hcell, ⟨le_rfl, hx⟩, hy⟩, rfl⟩

theorem pairwise_disjoint_cells (l : Layout ℝ) (hw : 0 ≤ width) (hh : 0 ≤ height)
    (hx : width ≤ l.spacingX) (hy : height ≤ l.spacingY) :
    l.cells.Pairwise fun i j ↦
      Disjoint (interior (tile width height i)) (interior (tile width height j)) := by
  refine List.pairwise_flatMap.2 ⟨fun row _ ↦ ?_, List.pairwise_lt_range.imp fun {m n} hmn ↦ ?_⟩
  · -- within a row the columns differ
    refine List.pairwise_map.2 (List.pairwise_lt_range.imp fun {m n} hmn ↦ ?_)
    rw [tile_cell, tile_cell, interior_prod_eq, interior_prod_eq]
    exact Set.disjoint_prod.2 (.inl (disjoint_interior_slot hw hx hmn))
  · -- cells of different rows differ along the other axis, whatever their columns
    intro i hi j hj
    obtain ⟨a, -, rfl⟩ := List.mem_map.1 hi
    obtain ⟨b, -, rfl⟩ := List.mem_map.1 hj
    rw [tile_cell, tile_cell, interior_prod_eq, interior_prod_eq]
    exact Set.disjoint_prod.2 (.inr (disjoint_interior_slot hh hy hmn))

end Grid

end Layout

section Footprint

open Layout

variable {width height : ℝ} {s : Settings ℝ} {l : Layout ℝ}

theorem span_eq {count : ℕ} {parts : ℤ} (hc : (count : ℤ) = parts) (hpos : 0 < count)
    (size gap : ℝ) :
    span (Coordinate.ofInt parts) (Coordinate.ofInt (parts - 1)) size gap =
      (count - 1 : ℕ) * (size + gap) + size := by
  subst hc
  change ((count : ℤ) : ℝ) * size + (((count : ℤ) - 1 : ℤ) : ℝ) * gap = _
  push_cast [Nat.cast_pred hpos]
  ring

theorem spacing_pos {spacing : ℝ} (h : Coordinate.le spacing Coordinate.zero = false) :
    0 < spacing := by
  have h' : ¬spacing ≤ ((0 : ℤ) : ℝ) := of_decide_eq_false h
  rw [Int.cast_zero] at h'
  exact not_le.1 h'

/-- The footprint of a grid is the extent of what its parts cover along either axis; with gaps that
are not negative no two parts overlap. -/
theorem footprint_measures_ground (hw : 0 ≤ width) (hh : 0 ≤ height)
    (h : s.layout width height [] = .ok l) :
    Measures (Prod.fst '' ground width height l.plan)
        (footprint width height s.rows s.columns s.gapX s.gapY).1 ∧
      Measures (Prod.snd '' ground width height l.plan)
        (footprint width height s.rows s.columns s.gapX s.gapY).2 ∧
      (0 ≤ s.gapX → 0 ≤ s.gapY → l.plan.Pairwise fun i j ↦
        Disjoint (interior (tile width height i)) (interior (tile width height j))) := by
  have ha := answers_of_make h
  rw [ha.plan_eq]
  refine ⟨?_, ?_, fun hgapX hgapY ↦ ?_⟩
  · rw [fst_ground_cells l hh, footprint, span_eq ha.columns_eq l.columns_pos]
    have hmeasures := measures_slots hw l.columns_pos (fun hc ↦ spacing_pos (l.spacingX_ok hc))
      l.columnDirection
    rwa [ha.spacingX_eq] at hmeasures ⊢
  · rw [snd_ground_cells l hw, footprint, span_eq ha.rows_eq l.rows_pos]
    have hmeasures := measures_slots hh l.rows_pos (fun hr ↦ spacing_pos (l.spacingY_ok hr))
      l.rowDirection
    rwa [ha.spacingY_eq] at hmeasures ⊢
  · refine pairwise_disjoint_cells l hw hh ?_ ?_
    · rw [ha.spacingX_eq]
      exact le_add_of_nonneg_right hgapX
    · rw [ha.spacingY_eq]
      exact le_add_of_nonneg_right hgapY

def twoByThree : Settings ℝ := ⟨2, 3, .positive, .negative, 5, 0, false, []⟩

theorem exists_layout_twoByThree : ∃ l, twoByThree.layout 10 5 [] = .ok l := by
  have hx : Coordinate.le ((10 : ℝ) + twoByThree.gapX) Coordinate.zero = false := by
    change decide ((10 : ℝ) + 5 ≤ ((0 : ℤ) : ℝ)) = false
    norm_num
  have hy : Coordinate.le ((5 : ℝ) + twoByThree.gapY) Coordinate.zero = false := by
    change decide ((5 : ℝ) + 0 ≤ ((0 : ℤ) : ℝ)) = false
    norm_num
  unfold Settings.layout Layout.make
  rw [dif_pos (by decide), dif_pos (by decide), dif_pos fun _ ↦ hx, dif_pos fun _ ↦ hy]
  exact ⟨_, rfl⟩

theorem footprint_measures_ground_twoByThree :
    ∃ l, twoByThree.layout 10 5 [] = .ok l ∧ Measures (Prod.fst '' ground 10 5 l.plan) 40 ∧
      Measures (Prod.snd '' ground 10 5 l.plan) 10 ∧ l.plan.Pairwise fun i j ↦
        Disjoint (interior (tile 10 5 i)) (interior (tile 10 5 j)) := by
  obtain ⟨l, hl⟩ := exists_layout_twoByThree
  have hten : (0 : ℝ) ≤ 10 := by norm_num
  have hfive : (0 : ℝ) ≤ 5 := by norm_num
  obtain ⟨hx, hy, hdisjoint⟩ := footprint_measures_ground hten hfive hl
  have hwidth : (footprint (10 : ℝ) 5 2 3 5 0).1 = 40 := by
    change ((3 : ℤ) : ℝ) * 10 + ((3 - 1 : ℤ) : ℝ) * 5 = 40
    norm_num
  have hheight : (footprint (10 : ℝ) 5 2 3 5 0).2 = 10 := by
    change ((2 : ℤ) : ℝ) * 5 + ((2 - 1 : ℤ) : ℝ) * 0 = 10
    norm_num
  exact ⟨l, hl, hwidth ▸ hx, hheight ▸ hy, hdisjoint hfive le_rfl⟩

end Footprint

end StepAndRepeat
