import StepAndRepeat.Proofs.Extent.Contributions
import StepAndRepeat.Proofs.Number.Arithmetic
import StepAndRepeat.Proofs.Number.Places
import StepAndRepeat.Proofs.Number.Truncation

namespace StepAndRepeat

open Binary

namespace Range

variable {r : Range Float}

def Ordered (r : Range Float) : Prop := r = {} ∨ ∃ v, r.Holds v

theorem gather_of_not_isNumber {v : Float} (hv : ¬ IsNumber v) (r : Range Float) :
    r.gather v = r := by
  have hleft (x : Float) : Coordinate.lt v x = false :=
    decide_eq_false fun h ↦ hv (isNumber_of_lt h).1
  have hright (x : Float) : Coordinate.lt x v = false :=
    decide_eq_false fun h ↦ hv (isNumber_of_lt h).2
  have hbelow : Coordinate.belowTop v = false := hleft infinity
  have habove : Coordinate.aboveBottom v = false := hright (-infinity)
  obtain ⟨low, high⟩ := r
  cases low <;> cases high <;> simp [gather, hleft, hright, hbelow, habove]

theorem Ordered.isSound (h : r.Ordered) : r.IsSound := by
  rcases h with rfl | ⟨v, hb, ht⟩
  · exact isSound_empty
  · exact ⟨(isNumber_of_le hb).1, (isNumber_of_le ht).2⟩

theorem Ordered.gather (h : r.Ordered) (v : Float) : (r.gather v).Ordered := by
  by_cases hv : IsNumber v
  · exact .inr ⟨v, holds_gather h.isSound hv⟩
  · rwa [gather_of_not_isNumber hv]

theorem Ordered.foldl (h : r.Ordered) (vs : List Float) : (vs.foldl Range.gather r).Ordered := by
  induction vs generalizing r with
  | nil => exact h
  | cons v vs ih => exact ih (h.gather v)

theorem Ordered.getD (h : r.Ordered) :
    r.low.getD Coordinate.zero ≤ r.high.getD Coordinate.zero := by
  rcases h with rfl | ⟨v, hv⟩
  · exact le_refl (isNumber_of_le zero_le_infinity).1
  · exact le_trans hv.getD.1 hv.getD.2

/-- The sides that are not open leave room for greater and for lesser numbers. -/
structure Inside (r : Range Float) : Prop where
  low : ∀ l, r.low = some l → l < infinity
  high : ∀ h, r.high = some h → -infinity < h

theorem inside_empty : Inside {} := ⟨nofun, nofun⟩

theorem Inside.gather (h : r.Inside) (v : Float) : (r.gather v).Inside := by
  refine ⟨fun l hl ↦ ?_, fun t ht ↦ ?_⟩
  · cases hr : r.low with
    | none =>
      simp only [Range.gather, hr, Option.ite_none_right_eq_some, Option.some.injEq] at hl
      exact hl.2 ▸ of_decide_eq_true hl.1
    | some k =>
      have hk := h.low k hr
      simp only [Range.gather, hr] at hl
      split at hl
      next hv => exact Option.some.inj hl ▸ lt_trans (of_decide_eq_true hv) hk
      next => exact Option.some.inj hl ▸ hk
  · cases hr : r.high with
    | none =>
      simp only [Range.gather, hr, Option.ite_none_right_eq_some, Option.some.injEq] at ht
      exact ht.2 ▸ of_decide_eq_true ht.1
    | some k =>
      have hk := h.high k hr
      simp only [Range.gather, hr] at ht
      split at ht
      next hv => exact Option.some.inj ht ▸ lt_trans hk (of_decide_eq_true hv)
      next => exact Option.some.inj ht ▸ hk

theorem Inside.foldl (h : r.Inside) (vs : List Float) : (vs.foldl Range.gather r).Inside := by
  induction vs generalizing r with
  | nil => exact h
  | cons v vs ih => exact ih (h.gather v)

theorem zero_lt_infinity : Coordinate.zero < infinity := by decide +kernel

theorem neg_infinity_lt_zero : -infinity < Coordinate.zero := by decide +kernel

theorem Inside.getD (h : r.Inside) :
    r.low.getD Coordinate.zero < infinity ∧ -infinity < r.high.getD Coordinate.zero := by
  refine ⟨?_, ?_⟩
  · cases hr : r.low with
    | none => exact zero_lt_infinity
    | some l => exact h.low l hr
  · cases hr : r.high with
    | none => exact neg_infinity_lt_zero
    | some t => exact h.high t hr

end Range

namespace Survey

theorem ordered_run (ls : List (Line Float)) (a : Axis) : ((run ls).box.on a).Ordered := by
  rw [on_box_run_eq]
  exact Range.Ordered.foldl (.inl rfl) _

theorem inside_run (ls : List (Line Float)) (a : Axis) : ((run ls).box.on a).Inside := by
  rw [on_box_run_eq]
  exact Range.inside_empty.foldl _

variable {program : Text} {e : Extent Float}

theorem exists_run_of_extent (h : extent program = .ok e) : ∃ ls, e = (run ls).box.extent := by
  cases hl : (Line.readAll program : Except LineFault (List (Line Float))) with
  | error f => simp [extent, ofProgram, hl, Except.map] at h
  | ok ls =>
    rw [Assembly.extent_of_readAll hl] at h
    exact ⟨ls, (Except.ok.inj h).symm⟩

theorem low_le_high (h : extent program = .ok e) (a : Axis) : e.low.on a ≤ e.high.on a := by
  obtain ⟨ls, rfl⟩ := exists_run_of_extent h
  rw [Assembly.low_on_extent, Assembly.high_on_extent]
  exact (ordered_run ls a).getD

theorem inside_infinities (h : extent program = .ok e) (a : Axis) :
    e.low.on a < infinity ∧ -infinity < e.high.on a := by
  obtain ⟨ls, rfl⟩ := exists_run_of_extent h
  rw [Assembly.low_on_extent, Assembly.high_on_extent]
  exact (inside_run ls a).getD

end Survey

namespace Binary

theorem nonneg_sub {x y : Float} (hx : IsFinite x) (hy : IsFinite y) (h : x ≤ y) :
    IsNumber (y - x) ∧ 0 ≤ extended (y - x) := by
  have hsub := stores_sub hy hx
  obtain ⟨hnx, hny⟩ := isNumber_of_le h
  have hle := (extended_le_iff hnx hny).1 h
  rw [extended_of_isFinite hx, extended_of_isFinite hy] at hle
  have hle' : value x ≤ value y := by exact_mod_cast hle
  refine ⟨hsub.isNumber, ?_⟩
  rw [hsub.extended_eq]
  exact stored_nonneg (by linarith)

variable {x y : Float}

theorem isNaN_eq_false (h : IsNumber x) : x.isNaN = false :=
  Bool.eq_false_iff.2 fun hnan ↦ isNaN_iff.1 hnan h

theorem infinity_sub (h : IsFinite x) : infinity - x = infinity := by
  obtain ⟨hfin, -⟩ := value_neg h
  have hparts : parts infinity = .infinity .positive := parts_infinity .positive
  have hnum : IsNumber (infinity + -x) :=
    isNumber_add (isNumber_of_lt Range.zero_lt_infinity).2 hfin
  rw [sub_eq (parts_ne h).1, parts_eq_infinity_iff.1 (parts_add_infinity hnum (.inl hparts))]
  rfl

theorem sub_neg_infinity (h : IsFinite x) : x - -infinity = infinity := by
  have hparts : parts (- -infinity) = .infinity .positive := parts_infinity .positive
  rw [sub_eq (isNumber_of_lt Range.neg_infinity_lt_zero).1,
    parts_eq_infinity_iff.1 (parts_add_of_isFinite h hparts)]
  rfl

theorem infinity_sub_neg_infinity : infinity - -infinity = infinity := by decide +kernel

theorem zero_le_sub (hx : x < infinity) (hy : -infinity < y) (h : x ≤ y) :
    Coordinate.zero ≤ y - x := by
  obtain ⟨hnx, hny⟩ := isNumber_of_le h
  by_cases hfx : IsFinite x
  · by_cases hfy : IsFinite y
    · obtain ⟨hnum, hnonneg⟩ := nonneg_sub hfx hfy h
      have hzero := stores_ofInt 0
      refine (extended_le_iff hzero.isNumber hnum).2 ?_
      rwa [hzero.extended_eq, Int.cast_zero, stored_zero]
    · rcases infinite_iff.1 ⟨hny, hfy⟩ with rfl | rfl
      · rw [infinity_sub hfx]
        exact Range.zero_le_infinity
      · exact absurd hy (not_lt_self _)
  · rcases infinite_iff.1 ⟨hnx, hfx⟩ with rfl | rfl
    · exact absurd hx (not_lt_self _)
    · by_cases hfy : IsFinite y
      · rw [sub_neg_infinity hfy]
        exact Range.zero_le_infinity
      · rcases infinite_iff.1 ⟨hny, hfy⟩ with rfl | rfl
        · rw [infinity_sub_neg_infinity]
          exact Range.zero_le_infinity
        · exact absurd hy (not_lt_self _)

end Binary

namespace Extent

variable {e : Extent Float}

def IsFinite (e : Extent Float) : Prop :=
  ∀ a, Binary.IsFinite (e.low.on a) ∧ Binary.IsFinite (e.high.on a)

instance (e : Extent Float) : Decidable e.IsFinite :=
  inferInstanceAs (Decidable (∀ a, Binary.IsFinite (e.low.on a) ∧ Binary.IsFinite (e.high.on a)))

/-- However a program reaches the infinities, or values that are no number, its extent is no less
than nothing: on each axis the sides are numbers that do not cross, the low one below the top of the
number line and the high one above its bottom, and the lengths between them are not negative. -/
theorem sides_sound {program : Text} (h : Survey.extent program = .ok e) :
    (∀ a, (e.low.on a).isNaN = false ∧ (e.high.on a).isNaN = false ∧
      e.low.on a < infinity ∧ -infinity < e.high.on a ∧ e.low.on a ≤ e.high.on a) ∧
      ∀ x ∈ [e.width, e.height, e.depth], x.isNaN = false ∧ Coordinate.zero ≤ x := by
  have hlimits (a : Axis) := Survey.inside_infinities h a
  have hlength (a : Axis) : Coordinate.zero ≤ e.high.on a - e.low.on a :=
    zero_le_sub (hlimits a).1 (hlimits a).2 (Survey.low_le_high h a)
  refine ⟨fun a ↦ ?_, fun x hx ↦ ?_⟩
  · obtain ⟨hlow, hhigh⟩ := isNumber_of_le (Survey.low_le_high h a)
    exact ⟨isNaN_eq_false hlow, isNaN_eq_false hhigh, (hlimits a).1, (hlimits a).2,
      Survey.low_le_high h a⟩
  · have hx' : Coordinate.zero ≤ x := by
      simp only [List.mem_cons, List.not_mem_nil, or_false] at hx
      rcases hx with rfl | rfl | rfl
      · exact hlength .x
      · exact hlength .y
      · exact hlength .z
    exact ⟨isNaN_eq_false (isNumber_of_le hx').2, hx'⟩

def overflowingCuts : Text :=
  "G1 X".toList ++ List.replicate 400 '9' ++ "\nG2 X1 Y2 I-".toList ++ List.replicate 400 '9'

theorem sides_sound_overflowingCuts :
    ∃ e : Extent Float, Survey.extent overflowingCuts = .ok e ∧
      e.width.isNaN = false ∧ Coordinate.zero ≤ e.width := by
  cases hl : (Line.readAll overflowingCuts : Except LineFault (List (Line Float))) with
  | error f =>
    have hread : (Line.readAll overflowingCuts : Except LineFault (List (Line Float))).isOk := by
      decide +kernel
    rw [hl] at hread
    cases hread
  | ok ls =>
    have he := Assembly.extent_of_readAll hl
    exact ⟨_, he, (sides_sound he).2 _ (List.mem_cons_self ..)⟩

end Extent

end StepAndRepeat
