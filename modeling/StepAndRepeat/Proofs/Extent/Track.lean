import Mathlib.Algebra.Group.Basic
import StepAndRepeat.Extent.Survey
import StepAndRepeat.Proofs.Machine.Carry

namespace StepAndRepeat

/-- What a line does along one axis. -/
structure Act (α : Type) where
  distance : Option Distance := none
  motion : Option Motion := none
  value : Option α := none

namespace Act

variable {α : Type}

def isIdle (a : Act α) : Bool := a.distance.isNone && a.motion.isNone && a.value.isNone

/-- The act neither puts steps in force nor an arc. -/
def IsStraight (a : Act α) : Prop :=
  a.distance ≠ some .incremental ∧ ∀ m, a.motion = some m → m.isArc = false

/-- The values that acts gather, given the motion in force and where the tool is. -/
def trace (m : Motion) (p : α) : List (Act α) → List α
  | [] => []
  | a :: as =>
    match a.value with
    | none => trace (a.motion.getD m) p as
    | some v => (if (a.motion.getD m).isCutting then [p, v] else []) ++ trace (a.motion.getD m) v as

theorem trace_none {a : Act α} (h : a.value = none) (m : Motion) (p : α) (as : List (Act α)) :
    trace m p (a :: as) = trace (a.motion.getD m) p as := by
  rw [trace, h]

theorem trace_some {a : Act α} {v : α} (h : a.value = some v) (m : Motion) (p : α)
    (as : List (Act α)) :
    trace m p (a :: as) =
      (if (a.motion.getD m).isCutting then [p, v] else []) ++ trace (a.motion.getD m) v as := by
  rw [trace, h]

theorem trace_append (m : Motion) (p : α) (as bs : List (Act α)) :
    trace m p (as ++ bs) = trace m p as ++ trace (carry motion m as) (carry value p as) bs := by
  induction as generalizing m p with
  | nil => rfl
  | cons a as ih =>
    rw [List.cons_append, carry_cons, carry_cons]
    cases h : a.value with
    | none => rw [trace_none h, trace_none h, ih, Option.getD_none]
    | some v => rw [trace_some h, trace_some h, ih, List.append_assoc, Option.getD_some]

theorem trace_eq_nil {as : List (Act α)} (h : ∀ a ∈ as, a.value = none) (m : Motion) (p : α) :
    trace m p as = [] := by
  induction as generalizing m with
  | nil => rfl
  | cons a as ih => rw [trace_none (h a (by simp)), ih fun b hb ↦ h b (by simp [hb])]

theorem trace_eq_nil_of_rapid {m : Motion} {as : List (Act α)}
    (h : ∀ bs a cs, as = bs ++ a :: cs → a.value.isSome = true →
      (carry motion m (bs ++ [a])).isCutting = false) (p : α) : trace m p as = [] := by
  induction as generalizing m p with
  | nil => rfl
  | cons a as ih =>
    have ih' := ih (m := a.motion.getD m) fun bs b cs hb hv ↦ by
      have := h (a :: bs) b cs (by rw [hb, List.cons_append]) hv
      rwa [List.cons_append, carry_cons] at this
    cases hv : a.value with
    | none => rw [trace_none hv, ih']
    | some v =>
      have hm : (a.motion.getD m).isCutting = false := h [] a as rfl (by rw [hv]; rfl)
      rw [trace_some hv, hm, ih']
      rfl

/-- Both ends of a cut are gathered. -/
theorem trace_ne_nil {m : Motion} {as : List (Act α)} {bs : List (Act α)} {a : Act α}
    {cs : List (Act α)} (h : as = bs ++ a :: cs) (hv : a.value.isSome = true)
    (hm : (carry motion m (bs ++ [a])).isCutting = true) (p : α) : trace m p as ≠ [] := by
  obtain ⟨v, hv⟩ := Option.isSome_iff_exists.1 hv
  rw [carry_append, carry_cons, carry_nil] at hm
  rw [h, trace_append, trace_some hv, hm]
  simp

theorem trace_filter (m : Motion) (p : α) (as : List (Act α)) :
    trace m p (as.filter fun a ↦ !a.isIdle) = trace m p as := by
  induction as generalizing m p with
  | nil => rfl
  | cons a as ih =>
    cases hi : a.isIdle with
    | true =>
      have h := hi
      simp only [isIdle, Bool.and_eq_true, Option.isNone_iff_eq_none] at h
      rw [List.filter_cons_of_neg (by simp [hi]), ih, trace_none h.2, h.1.2, Option.getD_none]
    | false =>
      rw [List.filter_cons_of_pos (by simp [hi])]
      cases hv : a.value with
      | none => rw [trace_none hv, trace_none hv, ih]
      | some v => rw [trace_some hv, trace_some hv, ih]

theorem trace_eq_of_filter {as bs : List (Act α)}
    (h : (as.filter fun a ↦ !a.isIdle) = bs.filter fun a ↦ !a.isIdle) (m : Motion) (p : α) :
    trace m p as = trace m p bs := by
  rw [← trace_filter, h, trace_filter]

/-- The acts gather the same wherever the tool is and whatever motion is in force. -/
def Steady (as : List (Act α)) : Prop := ∀ m p n q, trace m p as = trace n q as

theorem steady_of_unnamed {as : List (Act α)} (h : ∀ a ∈ as, a.value = none) : Steady as := by
  intro m p n q
  rw [trace_eq_nil h, trace_eq_nil h]

theorem steady_of_placed {as bs : List (Act α)} {a : Act α} (h : ∀ b ∈ as, b.value = none)
    (ha : a.motion = some .rapid) (hv : a.value.isSome = true) : Steady (as ++ a :: bs) := by
  obtain ⟨v, hv⟩ := Option.isSome_iff_exists.1 hv
  have hs (m : Motion) (p : α) : trace m p (as ++ a :: bs) = trace .rapid v bs := by
    rw [trace_append, trace_eq_nil h, trace_some hv, ha]
    rfl
  intro m p n q
  rw [hs, hs]

theorem trace_flatten {ass : List (List (Act α))} (h : ∀ as ∈ ass, Steady as) (m : Motion)
    (p : α) : trace m p ass.flatten = ass.flatMap (trace m p) := by
  suffices hs : ∀ n q, trace n q ass.flatten = ass.flatMap (trace m p) from hs m p
  induction ass with
  | nil => exact fun _ _ ↦ rfl
  | cons as ass ih =>
    intro n q
    have ih' := ih fun bs hbs ↦ h bs (by simp [hbs])
    rw [List.flatten_cons, List.flatMap_cons, trace_append, ih', h as (by simp) n q m p]

def shift [Add α] (d : α) (a : Act α) : Act α := { a with value := a.value.map (· + d) }

theorem trace_shift [Add α] (m : Motion) (p d : α) (as : List (Act α)) :
    trace m (p + d) (as.map (shift d)) = (trace m p as).map (· + d) := by
  induction as generalizing m p with
  | nil => rfl
  | cons a as ih =>
    rw [List.map_cons]
    cases hv : a.value with
    | none =>
      have hs : (shift d a).value = none := by rw [shift, hv]; rfl
      rw [trace_none hv, trace_none hs]
      exact ih (a.motion.getD m) p
    | some v =>
      have hs : (shift d a).value = some (v + d) := by rw [shift, hv]; rfl
      have hm : (shift d a).motion = a.motion := rfl
      rw [trace_some hv, trace_some hs, hm, List.map_append, ih]
      congr 1
      split <;> rfl

theorem Steady.trace_shift [AddGroup α] {as : List (Act α)} (h : Steady as) (m : Motion)
    (p d : α) : trace m p (as.map (shift d)) = (trace m p as).map (· + d) := by
  have hs := Act.trace_shift m (p - d) d as
  rwa [sub_add_cancel, h m (p - d) m p] at hs

theorem Steady.shift [AddGroup α] {as : List (Act α)} (h : Steady as) (d : α) :
    Steady (as.map (Act.shift d)) := by
  intro m p n q
  rw [h.trace_shift, h.trace_shift, h m p n q]

end Act

namespace Line

variable {α : Type} [Coordinate α]

/-- What a line does along an axis. Machine coordinates are no place on it. -/
def act (a : Axis) (l : Line α) : Act α where
  distance := l.newDistance?
  motion := l.newMotion?
  value := if l.kind = .code ∧ l.isMachineMove = false then l.axis? a else none

end Line

namespace Box

variable {α : Type} [Coordinate α]

theorem on_gather (b : Box α) (a c : Axis) (v : α) :
    (b.gather c v).on a = if c = a then (b.on a).gather v else b.on a := by
  cases a <;> cases c <;> rfl

end Box

namespace Position

variable {α : Type} [Coordinate α]

theorem on_target (d : Distance) (p : Position α) (l : Line α) (a : Axis) :
    (p.target d l).on a = moved d (p.on a) (l.axis? a) := by
  cases a <;> rfl

end Position

namespace Survey

section Cut

variable {α : Type} [Coordinate α]

theorem on_gatherCut (before after : Position α) (l : Line α) (b : Box α) (a : Axis) :
    (gatherCut before after l b).on a =
      if (l.axis? a).isSome then ((b.on a).gather (before.on a)).gather (after.on a)
      else b.on a := by
  have hstep (b : Box α) (c : Axis) :
      (if (l.axis? c).isSome then (b.gather c (before.on c)).gather c (after.on c) else b).on a =
        if c = a ∧ (l.axis? a).isSome then ((b.on a).gather (before.on a)).gather (after.on a)
        else b.on a := by
    by_cases hc : c = a
    · subst hc
      by_cases hs : (l.axis? c).isSome = true
      · rw [if_pos hs, if_pos ⟨rfl, hs⟩, Box.on_gather, Box.on_gather, if_pos rfl, if_pos rfl]
      · rw [if_neg hs, if_neg fun h : c = c ∧ _ ↦ hs h.2]
    · have hn : ¬ (c = a ∧ (l.axis? a).isSome = true) := fun h ↦ hc h.1
      rw [if_neg hn]
      split
      · rw [Box.on_gather, Box.on_gather, if_neg hc, if_neg hc]
      · rfl
  rw [gatherCut, Axis.all, List.foldl_cons, List.foldl_cons, List.foldl_cons, List.foldl_nil,
    hstep, hstep, hstep]
  cases a <;> simp

theorem on_target (p : Position α) (l : Line α) (a : Axis) :
    (p.target .absolute l).on a = (l.axis? a).getD (p.on a) := by
  rw [Position.on_target]
  cases l.axis? a <;> rfl

end Cut

variable {α : Type} [Circular α]

def Straight (s : Survey α) : Prop :=
  s.modes.distance = .absolute ∧ s.modes.motion.isArc = false

theorem modes_step (s : Survey α) (l : Line α) : (s.step l).modes = s.modes.read l := by
  unfold step Modes.read
  by_cases hk : l.kind = .code
  · rw [if_neg (not_not.2 hk), if_pos hk]
    dsimp only
    split <;> rfl
  · rw [if_pos hk, if_neg hk]

theorem position_step (s : Survey α) (l : Line α) (a : Axis) :
    (s.step l).position.on a =
      Position.moved (s.modes.read l).distance (s.position.on a) (l.act a).value := by
  unfold step Line.act Modes.read
  by_cases hk : l.kind = .code
  · rw [if_neg (not_not.2 hk), if_pos hk]
    dsimp only
    cases hm : l.isMachineMove with
    | true => simp [Position.moved]
    | false => simp [hk, Position.on_target]
  · simp [hk, Position.moved]

theorem Straight.step {s : Survey α} (hs : s.Straight) {l : Line α} {a : Axis}
    (hl : (l.act a).IsStraight) : (s.step l).Straight := by
  obtain ⟨hd, hm⟩ := hs
  refine ⟨?_, ?_⟩
  · rw [modes_step, Modes.read_distance, hd]
    cases h : l.newDistance? with
    | none => rfl
    | some d =>
      cases d with
      | absolute => rfl
      | incremental => exact absurd h hl.1
  · rw [modes_step, Modes.read_motion]
    cases h : l.newMotion? with
    | none => exact hm
    | some m => exact hl.2 m h

theorem on_step {s : Survey α} (hs : s.Straight) {l : Line α} {a : Axis}
    (hl : (l.act a).IsStraight) :
    (s.step l).position.on a = (l.act a).value.getD (s.position.on a) ∧
      (s.step l).box.on a =
        (if (l.act a).value.isSome && (s.step l).modes.motion.isCutting then
          ((s.box.on a).gather (s.position.on a)).gather ((s.step l).position.on a)
        else s.box.on a) := by
  have hnext := hs.step hl
  unfold step Line.act at *
  by_cases hk : l.kind = .code
  · rw [if_neg (not_not.2 hk)] at hnext ⊢
    dsimp only at hnext ⊢
    cases hmm : l.isMachineMove with
    | true => simp
    | false =>
      simp only [hmm, Bool.false_eq_true, ↓reduceIte] at hnext ⊢
      obtain ⟨hd, hm⟩ := hnext
      dsimp only at hd hm
      rw [if_pos ⟨hk, trivial⟩, hm, Bool.false_and, hd, on_target]
      refine ⟨rfl, ?_⟩
      cases hc : (s.modes.after l).motion.isCutting with
      | false => simp
      | true => simp [on_gatherCut, on_target]
  · simp [hk]

theorem on_box_foldl {s : Survey α} (hs : s.Straight) {a : Axis} {ls : List (Line α)}
    (hl : ∀ l ∈ ls, (l.act a).IsStraight) :
    (ls.foldl step s).box.on a =
      (Act.trace s.modes.motion (s.position.on a) (ls.map (Line.act a))).foldl Range.gather
        (s.box.on a) := by
  induction ls generalizing s with
  | nil => rfl
  | cons l ls ih =>
    have hl₀ := hl l (by simp)
    obtain ⟨hp, hb⟩ := on_step hs hl₀
    have hm : (s.step l).modes.motion = (l.act a).motion.getD s.modes.motion := by
      rw [modes_step, Modes.read_motion, Line.act]
    rw [List.foldl_cons, ih (hs.step hl₀) fun k hk ↦ hl k (by simp [hk]), List.map_cons, hb, hm]
    cases hv : (l.act a).value with
    | none =>
      rw [Act.trace_none hv, hp, hv]
      rfl
    | some v =>
      rw [Act.trace_some hv, hp, hv, List.foldl_append, Option.getD_some, Option.isSome_some,
        Bool.true_and]
      congr 1
      split <;> rfl

theorem on_box_run {a : Axis} {ls : List (Line α)} (hl : ∀ l ∈ ls, (l.act a).IsStraight) :
    (run ls).box.on a =
      (Act.trace .rapid (Position.origin.on a) (ls.map (Line.act a))).foldl Range.gather {} := by
  have hs : (start : Survey α).Straight := ⟨rfl, rfl⟩
  rw [run, on_box_foldl hs hl]
  cases a <;> rfl

end Survey

end StepAndRepeat
