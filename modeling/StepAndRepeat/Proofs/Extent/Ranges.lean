import Mathlib.Order.Bounds.Basic
import StepAndRepeat.Extent.Box
import StepAndRepeat.Proofs.Number.Exact

namespace StepAndRepeat

namespace Range

/-- The range is that of the values: open if there is none. -/
def Spans (r : Range ℝ) (vs : List ℝ) : Prop :=
  (vs = [] ∧ r = {}) ∨
    ∃ l h, r = ⟨some l, some h⟩ ∧ IsLeast {v | v ∈ vs} l ∧ IsGreatest {v | v ∈ vs} h

theorem isLeast_concat {vs : List ℝ} {l : ℝ} (h : IsLeast {v | v ∈ vs} l) (v : ℝ) :
    IsLeast {w | w ∈ vs ++ [v]} (if v < l then v else l) := by
  obtain ⟨hm, hl⟩ := h
  refine ⟨?_, fun w hw ↦ ?_⟩
  · split
    · simp
    · exact List.mem_append_left _ hm
  · rcases List.mem_append.1 hw with hw | hw
    · split
      next hlt => exact hlt.le.trans (hl hw)
      next => exact hl hw
    · rw [List.mem_singleton.1 hw]
      split
      next => exact le_rfl
      next hge => exact not_lt.1 hge

theorem isGreatest_concat {vs : List ℝ} {h : ℝ} (hg : IsGreatest {v | v ∈ vs} h) (v : ℝ) :
    IsGreatest {w | w ∈ vs ++ [v]} (if h < v then v else h) := by
  obtain ⟨hm, hl⟩ := hg
  refine ⟨?_, fun w hw ↦ ?_⟩
  · split
    · simp
    · exact List.mem_append_left _ hm
  · rcases List.mem_append.1 hw with hw | hw
    · split
      next hlt => exact (hl hw).trans hlt.le
      next => exact hl hw
    · rw [List.mem_singleton.1 hw]
      split
      next => exact le_rfl
      next hge => exact not_lt.1 hge

theorem gather_mk (l h v : ℝ) :
    (⟨some l, some h⟩ : Range ℝ).gather v =
      ⟨some (if v < l then v else l), some (if h < v then v else h)⟩ := by
  change (⟨if decide (v < l) = true then some v else some l,
    if decide (h < v) = true then some v else some h⟩ : Range ℝ) = _
  simp only [decide_eq_true_eq]
  split <;> split <;> rfl

theorem Spans.gather {r : Range ℝ} {vs : List ℝ} (hr : r.Spans vs) (v : ℝ) :
    (r.gather v).Spans (vs ++ [v]) := by
  right
  rcases hr with ⟨rfl, rfl⟩ | ⟨l, h, rfl, hl, hh⟩
  · exact ⟨v, v, rfl, by simp [IsLeast, lowerBounds], by simp [IsGreatest, upperBounds]⟩
  · exact ⟨_, _, gather_mk l h v, isLeast_concat hl v, isGreatest_concat hh v⟩

theorem spans_foldl (vs : List ℝ) : (vs.foldl Range.gather {}).Spans vs := by
  induction vs using List.reverseRecOn with
  | nil => exact .inl ⟨rfl, rfl⟩
  | append_singleton vs v ih =>
    rw [List.foldl_append]
    exact ih.gather v

theorem Spans.of_ne_nil {r : Range ℝ} {vs : List ℝ} (hr : r.Spans vs) (hne : vs ≠ []) :
    IsLeast {v | v ∈ vs} (r.low.getD Coordinate.zero) ∧
      IsGreatest {v | v ∈ vs} (r.high.getD Coordinate.zero) := by
  rcases hr with ⟨rfl, -⟩ | ⟨l, h, rfl, hl, hh⟩
  · exact absurd rfl hne
  · exact ⟨hl, hh⟩

end Range

section Moved

variable {ι : Type} {is : List ι} {d : ι → ℝ} {S T : Set ℝ}

theorem isLeast_moved (hT : ∀ w, w ∈ T ↔ ∃ i ∈ is, ∃ v ∈ S, w = v + d i) {l m : ℝ}
    (hl : IsLeast S l) (hm : IsLeast T m) : IsLeast {w | ∃ i ∈ is, w = l + d i} m := by
  have hle : ∀ i ∈ is, m ≤ l + d i := fun i hi ↦ hm.2 ((hT _).2 ⟨i, hi, l, hl.1, rfl⟩)
  refine ⟨?_, ?_⟩
  · obtain ⟨i, hi, v, hv, rfl⟩ := (hT m).1 hm.1
    have hlv : l ≤ v := hl.2 hv
    exact ⟨i, hi, le_antisymm (hle i hi) (by linarith)⟩
  · rintro w ⟨i, hi, rfl⟩
    exact hle i hi

theorem isGreatest_moved (hT : ∀ w, w ∈ T ↔ ∃ i ∈ is, ∃ v ∈ S, w = v + d i) {h m : ℝ}
    (hh : IsGreatest S h) (hm : IsGreatest T m) : IsGreatest {w | ∃ i ∈ is, w = h + d i} m := by
  have hle : ∀ i ∈ is, h + d i ≤ m := fun i hi ↦ hm.2 ((hT _).2 ⟨i, hi, h, hh.1, rfl⟩)
  refine ⟨?_, ?_⟩
  · obtain ⟨i, hi, v, hv, rfl⟩ := (hT m).1 hm.1
    have hvh : v ≤ h := hh.2 hv
    exact ⟨i, hi, le_antisymm (by linarith) (hle i hi)⟩
  · rintro w ⟨i, hi, rfl⟩
    exact hle i hi

end Moved

end StepAndRepeat
