import StepAndRepeat.Proofs.Extent.Enclosure
import StepAndRepeat.Proofs.Number.Arithmetic
import StepAndRepeat.Proofs.Number.Places
import StepAndRepeat.Proofs.Replication.Suppression

namespace StepAndRepeat

open Binary

/-- The sides of a rectangle across an axis. It lies flat, so it has none in height. -/
def Rectangle.sides {α : Type} (r : Rectangle α) : Axis → List α
  | .x => [r.minX, r.maxX]
  | .y => [r.minY, r.maxY]
  | .z => []

theorem Box.eq_of_on {α : Type} {b c : Box α} (h : ∀ a, b.on a = c.on a) : b = c := by
  cases b
  cases c
  exact Box.mk.injEq .. ▸ ⟨h .x, h .y, h .z⟩

namespace Place

variable {α : Type} [Circular α]

def start : Place α := ⟨{}, .origin⟩

/-- The sides of the rectangle around an arc: a line with a word for the centre, executed as an
arc. -/
def arcSides (p : Place α) (l : Line α) (a : Axis) : List α :=
  let q := p.step l
  if q.modes.motion.isArc && l.hasArcCenter then
    (Survey.arcOf q.modes p.position q.position l).bounds.sides a
  else []

def cutEnds (p : Place α) (l : Line α) (a : Axis) : List α :=
  let q := p.step l
  if q.modes.motion.isCutting && (l.axis? a).isSome then [p.position.on a, q.position.on a] else []

/-- What a line contributes along an axis where it is read. Machine coordinates are outside the
workpiece. -/
def contributed (p : Place α) (l : Line α) (a : Axis) : List α :=
  if l.isCode && !l.isMachineMove then p.arcSides l a ++ p.cutEnds l a else []

def contributions (a : Axis) (p : Place α) : List (Line α) → List α
  | [] => []
  | l :: ls => p.contributed l a ++ contributions a (p.step l) ls

end Place

namespace Range

section Gathered

variable {vs : List Float}

theorem bottom_foldl_mem (r : Range Float) (vs : List Float) :
    (vs.foldl Range.gather r).bottom = r.bottom ∨ (vs.foldl Range.gather r).bottom ∈ vs := by
  induction vs generalizing r with
  | nil => exact .inl rfl
  | cons v vs ih =>
    rw [List.foldl_cons]
    rcases ih (r.gather v) with h | h
    · rw [h, bottom_gather, Coordinate.least]
      split
      · exact .inr List.mem_cons_self
      · exact .inl rfl
    · exact .inr (List.mem_cons_of_mem v h)

theorem top_foldl_mem (r : Range Float) (vs : List Float) :
    (vs.foldl Range.gather r).top = r.top ∨ (vs.foldl Range.gather r).top ∈ vs := by
  induction vs generalizing r with
  | nil => exact .inl rfl
  | cons v vs ih =>
    rw [List.foldl_cons]
    rcases ih (r.gather v) with h | h
    · rw [h, top_gather, Coordinate.greatest]
      split
      · exact .inr List.mem_cons_self
      · exact .inl rfl
    · exact .inr (List.mem_cons_of_mem v h)

theorem not_infinity_le {v : Float} (h : IsFinite v) : ¬ infinity ≤ v ∧ ¬ v ≤ -infinity := by
  have htop : parts infinity = .infinity .positive := parts_infinity .positive
  have hbot : parts (-infinity) = .infinity .negative := parts_infinity .negative
  constructor
  · intro hle
    obtain ⟨hx, hv⟩ := isNumber_of_le hle
    rw [extended_le_iff hx hv, extended_of_isFinite h, extended, htop] at hle
    exact absurd (top_le_iff.1 hle) (EReal.coe_ne_top _)
  · intro hle
    obtain ⟨hv, hx⟩ := isNumber_of_le hle
    rw [extended_le_iff hv hx, extended_of_isFinite h, extended, hbot] at hle
    exact absurd (le_bot_iff.1 hle) (EReal.coe_ne_bot _)

/-- Finite numbers, if there are any, are gathered to the range from their least to their
greatest. -/
theorem isLeast_foldl (hfin : ∀ v ∈ vs, IsFinite v) (hne : vs ≠ []) :
    IsLeast {v | v ∈ vs} ((vs.foldl Range.gather {}).low.getD Coordinate.zero) ∧
      IsGreatest {v | v ∈ vs} ((vs.foldl Range.gather {}).high.getD Coordinate.zero) := by
  have hholds : ∀ v ∈ vs, (vs.foldl Range.gather {}).Holds v := fun v hv ↦
    holds_foldl isSound_empty hv (parts_ne (hfin v hv)).1
  obtain ⟨w, hw⟩ := List.exists_mem_of_ne_nil vs hne
  have hlow := bottom_foldl_mem {} vs
  have hhigh := top_foldl_mem {} vs
  generalize vs.foldl Range.gather {} = r at *
  obtain ⟨low, high⟩ := r
  have hbottom : bottom ⟨low, high⟩ ≠ infinity := fun h ↦
    (not_infinity_le (hfin w hw)).1 (h ▸ (hholds w hw).bottom_le)
  have htop : top ⟨low, high⟩ ≠ -infinity := fun h ↦
    (not_infinity_le (hfin w hw)).2 (h ▸ (hholds w hw).le_top)
  -- an open side would be at an infinity, beyond the numbers held
  cases low with
  | none => exact absurd rfl hbottom
  | some l =>
    cases high with
    | none => exact absurd rfl htop
    | some h =>
      exact ⟨⟨hlow.resolve_left hbottom, fun v hv ↦ (hholds v hv).bottom_le⟩,
        ⟨hhigh.resolve_left htop, fun v hv ↦ (hholds v hv).le_top⟩⟩

end Gathered

end Range

namespace Survey

variable {α : Type} [Circular α]

theorem on_gatherRectangle_eq (r : Rectangle α) (b : Box α) (a : Axis) :
    (gatherRectangle r b).on a = (r.sides a).foldl Range.gather (b.on a) := by
  cases a <;> rfl

theorem on_box_step_eq (s : Survey α) (l : Line α) (a : Axis) :
    (s.step l).box.on a = (s.place.contributed l a).foldl Range.gather (s.box.on a) := by
  unfold Place.contributed
  split
  next h =>
    simp only [Line.isCode, Bool.and_eq_true, decide_eq_true_eq, Bool.not_eq_true'] at h
    have hq : s.place.step l =
        ⟨s.modes.after l, s.position.target (s.modes.after l).distance l⟩ := by
      simp [Place.step, place, Modes.read, Line.isCode, h]
    have harc (c : Bool) (r : Rectangle α) :
        (if c = true then gatherRectangle r s.box else s.box).on a =
          (if c = true then r.sides a else []).foldl Range.gather (s.box.on a) := by
      cases c
      · rfl
      · exact on_gatherRectangle_eq r s.box a
    have hcut (c : Bool) (p q : Position α) (b : Box α) :
        (if c = true then gatherCut p q l b else b).on a =
          (if (c && (l.axis? a).isSome) = true then [p.on a, q.on a] else []).foldl Range.gather
            (b.on a) := by
      cases c
      · rfl
      · rw [if_pos rfl, on_gatherCut, Bool.true_and]
        split <;> rfl
    rw [List.foldl_append, Place.arcSides, Place.cutEnds, hq, ← harc, ← hcut]
    simp only [step, h, ne_eq, not_true_eq_false, Bool.false_eq_true, ↓reduceIte]
    rfl
  next h =>
    rw [box_step_still (by simpa [Line.isCode] using h), List.foldl_nil]

theorem on_box_foldl_eq (s : Survey α) (ls : List (Line α)) (a : Axis) :
    (ls.foldl step s).box.on a =
      (Place.contributions a s.place ls).foldl Range.gather (s.box.on a) := by
  induction ls generalizing s with
  | nil => rfl
  | cons l ls ih =>
    rw [List.foldl_cons, ih, on_box_step_eq, place_step, Place.contributions, List.foldl_append]

theorem on_box_run_eq (ls : List (Line α)) (a : Axis) :
    (run ls).box.on a = (Place.contributions a .start ls).foldl Range.gather {} := by
  rw [run, on_box_foldl_eq]
  cases a <;> rfl

theorem box_step_of_idle {s : Survey α} {l : Line α}
    (h : l.isCode = false ∨ l.isMachineMove = true ∨ (s.modes.read l).motion = .rapid) :
    (s.step l).box = s.box := by
  have hnil (a : Axis) : s.place.contributed l a = [] := by
    unfold Place.contributed
    rcases h with h | h | h
    · simp [h]
    · simp [h]
    · have hm : (s.place.step l).modes.motion = .rapid := h
      simp [Place.arcSides, Place.cutEnds, hm, Motion.isArc, Motion.isCutting]
  have hon (a : Axis) : (s.step l).box.on a = s.box.on a := by
    rw [on_box_step_eq, hnil, List.foldl_nil]
  exact Box.eq_of_on hon

variable {program : Text} {ls : List (Line Float)}

/-- Along an axis with finite contributions the extent of a program reaches from the least of them
to the greatest, and is at zero if there are none. -/
theorem isLeast_contributions (h : Line.readAll program = .ok ls) :
    ∃ e, extent program = .ok e ∧
      (∀ a, (∀ v ∈ Place.contributions a .start ls, IsFinite v) →
        (Place.contributions a .start ls = [] →
          e.low.on a = Coordinate.zero ∧ e.high.on a = Coordinate.zero) ∧
        (Place.contributions a .start ls ≠ [] →
          IsLeast {v | v ∈ Place.contributions a .start ls} (e.low.on a) ∧
            IsGreatest {v | v ∈ Place.contributions a .start ls} (e.high.on a))) ∧
      ∀ ps l ks, ls = ps ++ l :: ks → (l.isCode = false ∨ l.isMachineMove = true ∨
        (Modes.through {} (ps ++ [l])).motion = .rapid) → (run (ps ++ [l])).box = (run ps).box := by
  refine ⟨_, Assembly.extent_of_readAll h, fun a hfin ↦ ?_, fun ps l ks hls hl ↦ ?_⟩
  · rw [Assembly.low_on_extent, Assembly.high_on_extent, on_box_run_eq]
    refine ⟨fun hnil ↦ ?_, Range.isLeast_foldl hfin⟩
    rw [hnil]
    exact ⟨rfl, rfl⟩
  · have hrun : run (ps ++ [l]) = (run ps).step l := by simp [run]
    rw [hrun]
    refine box_step_of_idle (hl.imp_right (Or.imp_right fun hm ↦ ?_))
    rwa [Modes.through_append, ← modes_run] at hm

def mixedCuts : Text :=
  "G0 X10 Y5\nG1 X20\nG91\nG2 X-5 Y3 Z-1 R4\n(G1 X999)\nG53 G1 X900\nG0 X50\nG3 G90 X7.5".toList

def contributesFinitely (program : Text) : Bool :=
  match (Line.readAll program : Except LineFault (List (Line Float))) with
  | .ok ls => Axis.all.all fun a ↦
      (Place.contributions a .start ls).all (fun v ↦ decide (IsFinite v)) &&
        !(Place.contributions a .start ls).isEmpty
  | .error _ => false

theorem contributesFinitely_mixedCuts : contributesFinitely mixedCuts = true := by
  decide +kernel

theorem isLeast_contributions_mixedCuts :
    ∃ (ls : List (Line Float)) (e : Extent Float), Line.readAll mixedCuts = .ok ls ∧
      extent mixedCuts = .ok e ∧ ∀ a,
        IsLeast {v | v ∈ Place.contributions a .start ls} (e.low.on a) ∧
          IsGreatest {v | v ∈ Place.contributions a .start ls} (e.high.on a) := by
  have h := contributesFinitely_mixedCuts
  unfold contributesFinitely at h
  split at h
  next ls hl =>
    obtain ⟨e, he, hsides, -⟩ := isLeast_contributions hl
    refine ⟨ls, e, hl, he, Axis.forall_iff.2 fun a ha ↦ ?_⟩
    have ha' := List.all_eq_true.1 h a ha
    simp only [Bool.and_eq_true, List.all_eq_true, decide_eq_true_eq, Bool.not_eq_true',
      List.isEmpty_eq_false_iff] at ha'
    exact (hsides a ha'.1).2 ha'.2
  next => cases h

end Survey

end StepAndRepeat
