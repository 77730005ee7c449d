import StepAndRepeat.Proofs.Number.Order
import StepAndRepeat.Proofs.Replication.Extents

namespace StepAndRepeat

open Binary

namespace Range

variable {r : Range Float} {v : Float}

/-- The lower side, which is beyond all numbers as long as it is open. -/
def bottom (r : Range Float) : Float := r.low.getD infinity

def top (r : Range Float) : Float := r.high.getD (-infinity)

structure IsSound (r : Range Float) : Prop where
  bottom : IsNumber r.bottom
  top : IsNumber r.top

structure Holds (r : Range Float) (v : Float) : Prop where
  bottom_le : r.bottom ≤ v
  le_top : v ≤ r.top

theorem bottom_gather (r : Range Float) (v : Float) :
    (r.gather v).bottom = Coordinate.least r.bottom v := by
  obtain ⟨low, high⟩ := r
  cases low with
  | none =>
    change Option.getD (if decide (v < infinity) = true then some v else none) infinity =
      if decide (v < infinity) = true then v else infinity
    split <;> rfl
  | some l =>
    change Option.getD (if decide (v < l) = true then some v else some l) infinity =
      if decide (v < l) = true then v else l
    split <;> rfl

theorem top_gather (r : Range Float) (v : Float) :
    (r.gather v).top = Coordinate.greatest r.top v := by
  obtain ⟨low, high⟩ := r
  cases high with
  | none =>
    change Option.getD (if decide (-infinity < v) = true then some v else none) (-infinity) =
      if decide (-infinity < v) = true then v else -infinity
    split <;> rfl
  | some h =>
    change Option.getD (if decide (h < v) = true then some v else some h) (-infinity) =
      if decide (h < v) = true then v else h
    split <;> rfl

theorem zero_le_infinity : Coordinate.zero ≤ infinity := by decide +kernel

theorem neg_infinity_le_zero : -infinity ≤ Coordinate.zero := by decide +kernel

theorem isSound_empty : IsSound {} :=
  ⟨(isNumber_of_le zero_le_infinity).2, (isNumber_of_le neg_infinity_le_zero).1⟩

theorem IsSound.gather (h : r.IsSound) (v : Float) : (r.gather v).IsSound := by
  refine ⟨?_, ?_⟩
  · rw [bottom_gather]
    exact (isNumber_of_le (least_le_left h.bottom v)).1
  · rw [top_gather]
    exact (isNumber_of_le (left_le_greatest h.top v)).2

theorem holds_gather (h : r.IsSound) (hv : IsNumber v) : (r.gather v).Holds v := by
  refine ⟨?_, ?_⟩
  · rw [bottom_gather]
    exact least_le_right h.bottom hv
  · rw [top_gather]
    exact right_le_greatest h.top hv

/-- What is held stays held. -/
theorem Holds.gather (h : r.Holds v) (w : Float) : (r.gather w).Holds v := by
  obtain ⟨hb, ht⟩ := h
  refine ⟨?_, ?_⟩
  · rw [bottom_gather]
    exact le_trans (least_le_left (isNumber_of_le hb).1 w) hb
  · rw [top_gather]
    exact le_trans ht (left_le_greatest (isNumber_of_le ht).2 w)

theorem IsSound.foldl (h : r.IsSound) (vs : List Float) : (vs.foldl Range.gather r).IsSound := by
  induction vs generalizing r with
  | nil => exact h
  | cons v vs ih => exact ih (h.gather v)

theorem Holds.foldl (h : r.Holds v) (vs : List Float) : (vs.foldl Range.gather r).Holds v := by
  induction vs generalizing r with
  | nil => exact h
  | cons w vs ih => exact ih (h.gather w)

theorem holds_foldl {vs : List Float} (h : r.IsSound) (hm : v ∈ vs) (hv : IsNumber v) :
    (vs.foldl Range.gather r).Holds v := by
  obtain ⟨us, ws, rfl⟩ := List.append_of_mem hm
  rw [List.foldl_append, List.foldl_cons]
  exact (holds_gather (h.foldl us) hv).foldl ws

/-- What is held lies between the sides with open ones at zero: only an infinity leaves a side
open. -/
theorem Holds.getD (h : r.Holds v) :
    r.low.getD Coordinate.zero ≤ v ∧ v ≤ r.high.getD Coordinate.zero := by
  obtain ⟨low, high⟩ := r
  obtain ⟨hb, ht⟩ := h
  refine ⟨?_, ?_⟩
  · cases low with
    | none => exact le_trans zero_le_infinity hb
    | some l => exact hb
  · cases high with
    | none => exact le_trans ht neg_infinity_le_zero
    | some h => exact ht

end Range

def Extent.Holds (e : Extent Float) (p : Position Float) (a : Axis) : Prop :=
  e.low.on a ≤ p.on a ∧ p.on a ≤ e.high.on a

instance (e : Extent Float) (p : Position Float) (a : Axis) : Decidable (e.Holds p a) :=
  inferInstanceAs (Decidable (_ ∧ _))

def Line.Bounded (l : Line Float) : Prop := ∀ a, ∀ v ∈ l.axis? a, IsFinite v

theorem Axis.forall_iff {p : Axis → Prop} : (∀ a, p a) ↔ ∀ a ∈ Axis.all, p a :=
  ⟨fun h a _ ↦ h a, fun h a ↦ h a (by cases a <;> decide)⟩

instance (p : Axis → Prop) [DecidablePred p] : Decidable (∀ a, p a) :=
  decidable_of_iff _ Axis.forall_iff.symm

instance (l : Line Float) : Decidable l.Bounded :=
  inferInstanceAs (Decidable (∀ a, ∀ v ∈ l.axis? a, IsFinite v))

namespace Survey

section Gathering

variable {α : Type} [Circular α]

/-- The values that a line has gathered along an axis: both ends of a cut that names it. -/
def ends (s : Survey α) (l : Line α) (a : Axis) : List α :=
  if (l.act a).value.isSome && (s.step l).modes.motion.isCutting then
    [s.position.on a, (s.step l).position.on a]
  else []

theorem on_gatherRectangle (r : Rectangle α) (b : Box α) (a : Axis) :
    ∃ vs : List α, (gatherRectangle r b).on a = vs.foldl Range.gather (b.on a) := by
  cases a with
  | x => exact ⟨[r.minX, r.maxX], rfl⟩
  | y => exact ⟨[r.minY, r.maxY], rfl⟩
  | z => exact ⟨[], rfl⟩

theorem box_step (s : Survey α) {l : Line α} (hk : l.kind = .code) (hm : l.isMachineMove = false)
    (a : Axis) : ∃ b : Box α, (∃ vs : List α, b.on a = vs.foldl Range.gather (s.box.on a)) ∧
      (s.step l).box =
        if (s.step l).modes.motion.isCutting then gatherCut s.position (s.step l).position l b
        else b := by
  unfold step
  simp only [hk, hm, ne_eq, not_true_eq_false, Bool.false_eq_true, ↓reduceIte]
  refine ⟨_, ?_, rfl⟩
  split
  · exact on_gatherRectangle _ _ a
  · exact ⟨[], rfl⟩

theorem box_step_still {s : Survey α} {l : Line α}
    (h : ¬ (l.kind = .code ∧ l.isMachineMove = false)) : (s.step l).box = s.box := by
  unfold step
  split
  next => rfl
  next hk =>
    have hm : l.isMachineMove = true := by simpa [not_not.1 hk] using h
    simp [hm]

theorem on_box_step (s : Survey α) (l : Line α) (a : Axis) :
    ∃ vs, (s.step l).box.on a = (vs ++ s.ends l a).foldl Range.gather (s.box.on a) := by
  by_cases h : l.kind = .code ∧ l.isMachineMove = false
  · obtain ⟨b, ⟨vs, hvs⟩, hb⟩ := s.box_step h.1 h.2 a
    have hv : (l.act a).value = l.axis? a := if_pos h
    refine ⟨vs, ?_⟩
    rw [hb, List.foldl_append, ← hvs, ends, hv]
    cases (s.step l).modes.motion.isCutting with
    | false => simp
    | true =>
      rw [if_pos rfl, on_gatherCut]
      cases (l.axis? a).isSome <;> rfl
  · have hv : (l.act a).value = none := if_neg h
    exact ⟨[], by simp [box_step_still h, ends, hv]⟩

theorem modes_run (ls : List (Line α)) : (run ls).modes = Modes.through {} ls := by
  have hf (s : Survey α) : (ls.foldl step s).modes = s.modes.through ls := by
    induction ls generalizing s with
    | nil => rfl
    | cons l ls ih => rw [List.foldl_cons, ih, modes_step, Modes.through_cons]
  exact hf start

end Gathering

structure IsSound (s : Survey Float) : Prop where
  position : ∀ a, IsNumber (s.position.on a)
  box : ∀ a, (s.box.on a).IsSound

variable {s : Survey Float} {ls : List (Line Float)} {l : Line Float}

theorem isSound_start : (start : Survey Float).IsSound := by
  refine ⟨fun a ↦ ?_, fun a ↦ ?_⟩
  · have h := (isNumber_of_le Range.zero_le_infinity).1
    cases a <;> exact h
  · cases a <;> exact Range.isSound_empty

theorem isNumber_moved {d : Distance} {now : Float} {v : Option Float} (h : IsNumber now)
    (hv : ∀ x ∈ v, IsFinite x) : IsNumber (Position.moved d now v) := by
  cases v with
  | none => exact h
  | some x =>
    cases d with
    | absolute => exact (parts_ne (hv x rfl)).1
    | incremental => exact isNumber_add h (hv x rfl)

theorem IsSound.step (h : s.IsSound) (hl : l.Bounded) : (s.step l).IsSound := by
  refine ⟨fun a ↦ ?_, fun a ↦ ?_⟩
  · rw [position_step]
    refine isNumber_moved (h.position a) fun v hv ↦ hl a v ?_
    exact (Option.ite_none_right_eq_some.1 hv).2
  · obtain ⟨vs, hvs⟩ := s.on_box_step l a
    rw [hvs]
    exact (h.box a).foldl _

theorem IsSound.foldl (h : s.IsSound) (hl : ∀ l ∈ ls, l.Bounded) :
    (ls.foldl Survey.step s).IsSound := by
  induction ls generalizing s with
  | nil => exact h
  | cons l ls ih => exact ih (h.step (hl l (by simp))) fun k hk ↦ hl k (by simp [hk])

theorem holds_foldl {a : Axis} {v : Float} (h : (s.box.on a).Holds v) (ls : List (Line Float)) :
    ((ls.foldl step s).box.on a).Holds v := by
  induction ls generalizing s with
  | nil => exact h
  | cons l ls ih =>
    obtain ⟨vs, hvs⟩ := s.on_box_step l a
    refine ih ?_
    rw [hvs]
    exact h.foldl _

/-- Both ends of a cut are held once its line is read, on each axis that the line names. -/
theorem holds_step (h : s.IsSound) (hl : l.Bounded) (hk : l.kind = .code)
    (hm : l.isMachineMove = false) (hc : (s.step l).modes.motion.isCutting = true) {a : Axis}
    (ha : (l.axis? a).isSome = true) {v : Float}
    (hv : v = s.position.on a ∨ v = (s.step l).position.on a) :
    ((s.step l).box.on a).Holds v := by
  have hvalue : (l.act a).value = l.axis? a := if_pos ⟨hk, hm⟩
  have hends : s.ends l a = [s.position.on a, (s.step l).position.on a] := by
    rw [ends, hvalue, ha, hc]
    rfl
  have hnumber : IsNumber v := by
    rcases hv with rfl | rfl
    · exact h.position a
    · exact (h.step hl).position a
  obtain ⟨vs, hvs⟩ := s.on_box_step l a
  rw [hvs, hends]
  exact Range.holds_foldl (h.box a) (by simpa using .inr hv) hnumber

/-- The extent of a program holds both ends of a cut on each axis that its line names. On the
others the tool keeps its place. -/
theorem extent_holds {program : Text} (hl : Line.readAll program = .ok ls)
    (hfin : ∀ k ∈ ls, k.Bounded) (hm : l ∈ ls) (hc : l.IsCut ls) :
    ∃ e, extent program = .ok e ∧ ∀ a,
      ((l.axis? a).isSome = true → e.Holds (run (ls.take l.index)).position a ∧
        e.Holds (run (ls.take (l.index + 1))).position a) ∧
      (l.axis? a = none → (run (ls.take (l.index + 1))).position.on a =
        (run (ls.take l.index)).position.on a) := by
  refine ⟨_, Assembly.extent_of_readAll hl, fun a ↦ ?_⟩
  obtain ⟨hk, hnot, hcut⟩ := hc
  obtain ⟨ps, ks, rfl⟩ := List.append_of_mem hm
  have hn := Line.map_index_readAll hl
  have hafter : run (ps ++ [l]) = (run ps).step l := by simp [run]
  have hrun : run (ps ++ l :: ks) = ks.foldl step ((run ps).step l) := by simp [run]
  rw [Assembly.sourceModes, ← modes_run, Line.take_index_succ hn, hafter] at hcut
  rw [Line.take_index hn, Line.take_index_succ hn, hrun, hafter]
  have hsound : (run ps).IsSound := isSound_start.foldl fun k hk ↦ hfin k (by simp [hk])
  -- the lines before the cut keep the survey sound, those after it let go of nothing
  refine ⟨fun ha ↦ ?_, fun ha ↦ ?_⟩
  · have hends {v : Float}
        (hv : v = (run ps).position.on a ∨ v = ((run ps).step l).position.on a) :=
      (holds_foldl (holds_step hsound (hfin l hm) hk hnot hcut ha hv) ks).getD
    rw [Extent.Holds, Extent.Holds, Assembly.low_on_extent, Assembly.high_on_extent]
    exact ⟨hends (.inl rfl), hends (.inr rfl)⟩
  · have hvalue : (l.act a).value = none := ite_eq_right_iff.2 fun _ ↦ ha
    rw [position_step, hvalue, Position.moved]

def steppedCut : Text := "G0X5Y5\n(down)\nG91\nG1X-8.5Z-1\nG53G1X900\nG2X3Y3I1\nG0Z4".toList

def cutsAlong (as : List Axis) (n : Nat) (program : Text) : Bool :=
  match (Line.readAll program : Except LineFault (List (Line Float))) with
  | .ok ls => decide (∀ k ∈ ls, k.Bounded) && ls.any fun l ↦
      decide (l.index = n) && decide (l.IsCut ls) && as.all fun a ↦ (l.axis? a).isSome
  | .error _ => false

theorem cutsAlong_steppedCut : cutsAlong [.x, .z] 3 steppedCut = true := by decide +kernel

theorem extent_holds_steppedCut :
    ∃ (ls : List (Line Float)) (e : Extent Float), Line.readAll steppedCut = .ok ls ∧
      extent steppedCut = .ok e ∧ ∀ a ∈ [Axis.x, Axis.z],
        e.Holds (run (ls.take 3)).position a ∧ e.Holds (run (ls.take 4)).position a := by
  have h := cutsAlong_steppedCut
  unfold cutsAlong at h
  split at h
  next ls hl =>
    simp only [Bool.and_eq_true, List.any_eq_true, List.all_eq_true, decide_eq_true_eq] at h
    obtain ⟨hfin, l, hm, ⟨hi, hc⟩, has⟩ := h
    obtain ⟨e, he, hends⟩ := extent_holds hl hfin hm hc
    rw [hi] at hends
    exact ⟨ls, e, hl, he, fun a ha ↦ (hends a).1 (has a ha)⟩
  next => cases h

def rapidThenCut : Text := "G0 X10 Y10\nG1 X20".toList

def leavesOut (program : Text) : Bool :=
  match (Line.readAll program : Except LineFault (List (Line Float))) with
  | .ok ls =>
    match (extent program : Except LineFault (Extent Float)) with
    | .ok e => decide (∀ k ∈ ls, k.Bounded) && ls.any fun l ↦
        decide (l.IsCut ls) && l.hasAxisWord && Axis.all.any fun a ↦
          !decide (e.Holds (run (ls.take l.index)).position a)
    | .error _ => false
  | .error _ => false

theorem leavesOut_rapidThenCut : leavesOut rapidThenCut = true := by decide +kernel

/-- The extent need not hold the place of a cut on an axis that its line does not name. -/
theorem not_extent_holds :
    ∃ (ls : List (Line Float)) (e : Extent Float), Line.readAll rapidThenCut = .ok ls ∧
      extent rapidThenCut = .ok e ∧ (∀ k ∈ ls, k.Bounded) ∧
      ∃ l ∈ ls, l.IsCut ls ∧ l.hasAxisWord = true ∧
        ∃ a, ¬ e.Holds (run (ls.take l.index)).position a := by
  have h := leavesOut_rapidThenCut
  unfold leavesOut at h
  split at h
  next ls hl =>
    split at h
    next e he =>
      simp only [Bool.and_eq_true, List.any_eq_true, Bool.not_eq_true', decide_eq_true_eq,
        decide_eq_false_iff_not] at h
      obtain ⟨hfin, l, hm, ⟨hc, hx⟩, a, -, ha⟩ := h
      exact ⟨ls, e, hl, he, hfin, l, hm, hc, hx, a, ha⟩
    next => cases h
  next => cases h

end Survey

end StepAndRepeat
