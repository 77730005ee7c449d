import StepAndRepeat.Proofs.Machine.Carry
import StepAndRepeat.Replication.Copy

namespace StepAndRepeat

variable {α : Type}

namespace Line

def isCode (l : Line α) : Bool := l.kind = .code

theorem isCode_iff {l : Line α} : l.isCode = true ↔ l.kind = .code := by simp [isCode]

theorem not_isCode_of_isComment {l : Line α} (h : l.isComment = true) : l.isCode = false := by
  simp only [isComment, decide_eq_true_eq] at h
  simp [isCode, h]

end Line

variable [Coordinate α]

namespace Offset

variable (o : Offset α)

def copyText (m : Modes) (l : Line α) : Text :=
  if applies m l then o.shiftText l.text else l.text

def rewrites (m : Modes) : List (Line α) → List (Copy α)
  | [] => []
  | l :: ls => ⟨l, (o.step m l).2⟩ :: rewrites (o.step m l).1 ls

@[simp] theorem step_modes (m : Modes) (l : Line α) : (o.step m l).1 = m.read l := rfl

@[simp] theorem step_text (m : Modes) (l : Line α) :
    (o.step m l).2 = o.copyText (m.read l) l := rfl

theorem copyText_of_incremental {m : Modes} (h : m.distance = .incremental) (l : Line α) :
    o.copyText m l = l.text := by
  simp [copyText, applies, h]

/-- Only the distance mode decides how a line is written. -/
theorem copyText_eq_of_distance {m n : Modes} (h : m.distance = n.distance) (l : Line α) :
    o.copyText m l = o.copyText n l := by
  have ha : applies m l = applies n l := by simp [applies, h]
  rw [copyText, ha, copyText]

theorem rewrites_append (m : Modes) (ls ks : List (Line α)) :
    o.rewrites m (ls ++ ks) = o.rewrites m ls ++ o.rewrites (m.through ls) ks := by
  induction ls generalizing m with
  | nil => rfl
  | cons l ls ih => simp [rewrites, ih]

theorem map_line_rewrites (m : Modes) (ls : List (Line α)) :
    (o.rewrites m ls).map Copy.line = ls := by
  induction ls generalizing m with
  | nil => rfl
  | cons l ls ih => simp [rewrites, ih]

theorem line_mem {m : Modes} {ls : List (Line α)} {c : Copy α} (h : c ∈ o.rewrites m ls) :
    c.line ∈ ls := by
  rw [← o.map_line_rewrites m ls]
  exact List.mem_map_of_mem h

/-- A shifted line stands somewhere among the lines, and is shifted in the modes in force there. -/
theorem mem_rewrites {m : Modes} {ls : List (Line α)} {c : Copy α} (h : c ∈ o.rewrites m ls) :
    ∃ ps ks, ls = ps ++ c.line :: ks ∧
      c.text = o.copyText (m.through (ps ++ [c.line])) c.line := by
  induction ls generalizing m with
  | nil => simp [rewrites] at h
  | cons l ls ih =>
    rcases List.mem_cons.1 h with rfl | h
    · exact ⟨[], ls, rfl, rfl⟩
    · obtain ⟨ps, ks, he, ht⟩ := ih h
      exact ⟨l :: ps, ks, by rw [he]; rfl, ht⟩

theorem rewrites_eq_of_distance {m n : Modes} (h : m.distance = n.distance) (ls : List (Line α)) :
    o.rewrites m ls = o.rewrites n ls := by
  induction ls generalizing m n with
  | nil => rfl
  | cons l ls ih =>
    have hd : (m.read l).distance = (n.read l).distance := by
      rw [Modes.read_distance, Modes.read_distance, h]
    simp only [rewrites, step_modes, step_text, o.copyText_eq_of_distance hd, ih hd]

end Offset

namespace LabelHold

theorem feed_cases (h : LabelHold α) (c : Copy α) (leaveOut : Bool) :
    (leaveOut = true ∧ (h.feed c leaveOut).2 = [] ∧ (h.feed c leaveOut).1.held = h.held) ∨
    (leaveOut = false ∧ c.line.isComment = true ∧ (h.feed c leaveOut).2 = [] ∧
      (h.feed c leaveOut).1.held = some c) ∨
    (∃ label, leaveOut = false ∧ h.held = some label ∧ (h.feed c leaveOut).2 = [label, c] ∧
      (h.feed c leaveOut).1.held = none) ∨
    (leaveOut = false ∧ (h.feed c leaveOut).2 = [c] ∧ (h.feed c leaveOut).1.held = h.held) := by
  cases leaveOut with
  | true => exact .inl ⟨rfl, rfl, rfl⟩
  | false =>
    right
    simp only [feed, Bool.false_eq_true, ↓reduceIte]
    split
    next hl =>
      simp only [Bool.and_eq_true] at hl
      exact .inl ⟨trivial, hl.1.2, rfl, rfl⟩
    next =>
      right
      cases hh : h.held with
      | none => exact .inr ⟨trivial, rfl, rfl⟩
      | some label =>
        dsimp only
        split
        · exact .inl ⟨label, trivial, rfl, rfl, rfl⟩
        · exact .inr ⟨trivial, rfl, rfl⟩

def HoldsComment (h : LabelHold α) : Prop := ∀ c, h.held = some c → c.line.isComment = true

theorem HoldsComment.feed {h : LabelHold α} (hc : h.HoldsComment) (c : Copy α) (leaveOut : Bool) :
    (h.feed c leaveOut).1.HoldsComment := by
  intro k hk
  rcases h.feed_cases c leaveOut with ⟨-, -, hh⟩ | ⟨-, hl, -, hh⟩ | ⟨_, -, -, -, hh⟩ | ⟨-, -, hh⟩
  · exact hc k (hh ▸ hk)
  · rw [hh, Option.some_inj] at hk
    exact hk ▸ hl
  · simp [hh] at hk
  · exact hc k (hh ▸ hk)

theorem HoldsComment.code_feed {h : LabelHold α} (hc : h.HoldsComment) (c : Copy α)
    (leaveOut : Bool) :
    (h.feed c leaveOut).2.filter (·.line.isCode) =
      [c].filter fun c ↦ c.line.isCode && !leaveOut := by
  rcases h.feed_cases c leaveOut with
    ⟨rfl, hw, -⟩ | ⟨rfl, hl, hw, -⟩ | ⟨label, rfl, hh, hw, -⟩ | ⟨rfl, hw, -⟩
  · simp [hw]
  · simp [hw, Line.not_isCode_of_isComment hl]
  · simp [hw, Line.not_isCode_of_isComment (hc label hh), List.filter_cons]
  · simp [hw]

end LabelHold

namespace Replay

variable {o : Offset α} {dropStops : Bool}

theorem run_modes (r : Replay α) (ls : List (Line α)) :
    (run o dropStops r ls).1.modes = r.modes.through ls := by
  induction ls generalizing r with
  | nil => rfl
  | cons l ls ih => simp [run, ih, step]

theorem lines_modes (m : Modes) (ls : List (Line α)) :
    (lines o dropStops m ls).1 = m.through ls := run_modes _ _

/-- Every line written has been shifted at its own place, or was held from the start. -/
theorem mem_run {r : Replay α} {ls : List (Line α)} {c : Copy α}
    (h : c ∈ (run o dropStops r ls).2) : c ∈ o.rewrites r.modes ls ∨ r.hold.held = some c := by
  induction ls generalizing r with
  | nil => simp [run] at h
  | cons l ls ih =>
    simp only [run, List.mem_append] at h
    have hf := r.hold.feed_cases ⟨l, (o.step r.modes l).2⟩ (dropStops && l.isSpindleStop)
    rcases h with h | h
    · rcases hf with ⟨-, hw, -⟩ | ⟨-, -, hw, -⟩ | ⟨label, -, hh, hw, -⟩ | ⟨-, hw, -⟩ <;>
        simp only [step, hw, List.mem_cons, List.not_mem_nil, or_false] at h
      · rcases h with rfl | rfl
        · exact .inr hh
        · exact .inl (by simp [Offset.rewrites])
      · exact .inl (by simp [Offset.rewrites, h])
    · rcases ih h with h | h
      · exact .inl (by simp only [Offset.rewrites, List.mem_cons]; exact .inr h)
      · simp only [step] at h
        rcases hf with ⟨-, -, hh⟩ | ⟨-, -, -, hh⟩ | ⟨_, -, -, -, hh⟩ | ⟨-, -, hh⟩ <;> rw [hh] at h
        · exact .inr h
        · exact .inl (by rw [← Option.some_inj.1 h]; simp [Offset.rewrites])
        · simp at h
        · exact .inr h

theorem mem_lines {m : Modes} {ls : List (Line α)} {c : Copy α}
    (h : c ∈ (lines o dropStops m ls).2) : c ∈ o.rewrites m ls := by
  simpa using mem_run h

theorem code_run {r : Replay α} (hr : r.hold.HoldsComment) (ls : List (Line α)) :
    (run o dropStops r ls).2.filter (·.line.isCode) =
      (o.rewrites r.modes ls).filter fun c ↦
        c.line.isCode && !(dropStops && c.line.isSpindleStop) := by
  induction ls generalizing r with
  | nil => rfl
  | cons l ls ih =>
    have hs : (step o dropStops r l).1.hold.HoldsComment := hr.feed _ _
    have hw : (step o dropStops r l).2.filter (·.line.isCode) = _ := hr.code_feed _ _
    rw [run, List.filter_append, ih hs, hw, Offset.rewrites, List.filter_cons, List.filter_cons]
    split <;> rfl

/-- The code lines written are the shifted code lines in order, without the spindle stops that
are left out. -/
theorem code_lines (m : Modes) (ls : List (Line α)) :
    (lines o dropStops m ls).2.filter (·.line.isCode) =
      (o.rewrites m ls).filter fun c ↦ c.line.isCode && !(dropStops && c.line.isSpindleStop) :=
  code_run (r := { modes := m }) (by simp [LabelHold.HoldsComment]) ls

end Replay

end StepAndRepeat
