import StepAndRepeat.Proofs.Replication.CuttingPhase

namespace StepAndRepeat

open Text

variable {α : Type} [Coordinate α]

theorem LabelHold.feed_of_not_isMachineMove {c : Copy α} (h : c.line.isMachineMove = false) :
    ({} : LabelHold α).feed c false = ({}, [c]) := by
  simp [feed, h]

namespace Replay

variable (f : Offset α) (dropStops : Bool)

theorem step_of_not_ends (m : Modes) {l : Line α} (h : Phases.ends l = false) :
    step f dropStops { modes := m } l = ({ modes := m.read l }, [⟨l, (f.step m l).2⟩]) := by
  obtain ⟨hm, hs⟩ := Bool.or_eq_false_iff.1 h
  rw [step, hs, Bool.and_false, LabelHold.feed_of_not_isMachineMove hm]
  rfl

theorem run_of_not_ends (m : Modes) {ls : List (Line α)} (h : ∀ l ∈ ls, Phases.ends l = false) :
    run f dropStops { modes := m } ls = ({ modes := m.through ls }, f.rewrites m ls) := by
  induction ls generalizing m with
  | nil => rfl
  | cons l ls ih =>
    have hl := step_of_not_ends f dropStops m (h l List.mem_cons_self)
    have hls := ih (m.read l) fun k hk ↦ h k (List.mem_cons_of_mem l hk)
    rw [run, hl, hls]
    rfl

theorem lines_of_not_ends (m : Modes) {ls : List (Line α)}
    (h : ∀ l ∈ ls, Phases.ends l = false) :
    lines f dropStops m ls = (m.through ls, f.rewrites m ls) := by
  rw [lines, run_of_not_ends f dropStops m h]

end Replay

namespace Phases

/-- However far the copying of the cutting phase has come, every line so far has been written as it
was shifted, and nothing is held. -/
def CopiesAll (p : Phases α) : Prop :=
  ∀ (f : Offset α) (dropStops : Bool) (ks : List (Line α)), ks <+: p.cutting →
    Replay.run f dropStops { modes := {} } ks =
      ({ modes := Modes.through {} ks, hold := {} }, f.rewrites {} ks)

theorem not_ends_of_mem_cutting_of_ofLines {ls : List (Line α)} {p : Phases α}
    (h : ofLines ls = .ok p) : ∀ l ∈ p.cutting, ends l = false := by
  intro l hl
  obtain ⟨rs, -, rfl⟩ := exists_of_ofLines h
  rw [ends, (not_ends_of_mem_cutting hl).1, (not_ends_of_mem_cutting hl).2]
  rfl

end Phases

namespace Segment

def headLines (ss : List (Segment α)) : List (Line α) :=
  ((ss.find? (·.isHeader)).map (·.lines)).getD []

end Segment

namespace Assembly

def cutLines (o : Order α) (ls : List (Line α)) (i : Instance α) : List Text :=
  [partNote o.totalParts i, offsetNote i] ++ (i.offset.rewrites {} ls).map Copy.text ++ [[]]

def untooledLines (o : Order α) (p : Phases α) : List Text :=
  o.banner ++ [noToolsNote, []] ++ p.preamble.map Line.text ++ [[]] ++
    o.instances.flatMap (cutLines o p.cutting) ++ p.postamble.map Line.text ++ [programEnd]

omit [Coordinate α] in
theorem map_text_verbatim (ls : List (Line α)) :
    (Entry.verbatim ls).map Entry.text = ls.map Line.text := by
  rw [Entry.verbatim, List.map_map]
  rfl

/-- Whether an instance is the last makes no difference to what it writes of the cutting phase. -/
theorem map_text_withoutTools (o : Order α) {p : Phases α}
    (h : ∀ l ∈ p.cutting, Phases.ends l = false) :
    (o.banner.map Entry.note ++ withoutTools o p ++ [Entry.note programEnd]).map Entry.text =
      untooledLines o p := by
  have hbody : ((marked o.instances).flatMap fun c ↦
      [Entry.note (partNote o.totalParts c.1), .note (offsetNote c.1)] ++
        replay c.1 (!c.2) p.cutting ++ [.blank]).map Entry.text =
      o.instances.flatMap (cutLines o p.cutting) := by
    rw [List.map_flatMap, ← flatMap_marked o.instances]
    refine List.flatMap_congr fun c _ ↦ ?_
    rw [replay, Replay.lines_of_not_ends c.1.offset _ _ h]
    simp [cutLines, Entry.text, Entry.blank, Function.comp_def]
  rw [withoutTools, untooledLines]
  simp only [List.map_append, map_text_verbatim, hbody]
  simp [Entry.text, Entry.blank, Function.comp_def]

theorem entries_of_untooled (o : Order α) {program : Text} {ss : List (Segment α)}
    (hs : Segment.ofProgram program = .ok ss) (ht : Segment.tooled ss = []) :
    entries o program = (Phases.ofLines (Segment.headLines ss)).map fun p ↦
      o.banner.map .note ++ withoutTools o p ++ [.note programEnd] := by
  rw [Segment.headLines]
  simp only [entries, hs, ht, bind, Except.bind, List.isEmpty_nil, ↓reduceIte]
  cases Phases.ofLines ((ss.find? (·.isHeader)).map (·.lines) |>.getD []) with
  | error e => rfl
  | ok p => rfl

theorem entries_of_tooled (o : Order α) {program : Text} {ss : List (Segment α)}
    (hs : Segment.ofProgram program = .ok ss) (ht : Segment.tooled ss ≠ []) :
    entries o program = .ok (o.banner.map .note ++
      (if o.sortByTool then
        sorted o (Segment.headLines ss) (Segment.tooled ss) (Segment.byTool ss)
      else standard o (Segment.headLines ss) (Segment.tooled ss)) ++ [.note programEnd]) := by
  have htooled : ¬ (Segment.tooled ss).isEmpty = true := fun h ↦ ht (List.isEmpty_iff.1 h)
  rw [Segment.headLines]
  simp only [entries, hs, bind, Except.bind]
  rw [if_neg htooled]
  cases o.sortByTool <;> rfl

/-- Without tool segments the assembled program is the preamble, the cutting phase shifted line by
line for each instance, and the postamble. No line of the phase is left out or held on the way. -/
theorem assemble_of_untooled (o : Order α) {program : Text} {ss : List (Segment α)}
    (hs : Segment.ofProgram program = .ok ss) (ht : Segment.tooled ss = []) :
    assemble o program = (Phases.ofLines (Segment.headLines ss)).map
        (fun p ↦ join ['\n'] (untooledLines o p)) ∧
      ∀ p, Phases.ofLines (Segment.headLines ss) = .ok p → p.CopiesAll := by
  constructor
  · rw [assemble, entries_of_untooled o hs ht]
    cases hp : Phases.ofLines (Segment.headLines ss) with
    | error e => rfl
    | ok p =>
      have htext := map_text_withoutTools o (Phases.not_ends_of_mem_cutting_of_ofLines hp)
      exact congrArg (fun ts ↦ Except.ok (join ['\n'] ts)) htext
  · intro p hp f dropStops ks hks
    exact Replay.run_of_not_ends f dropStops {} fun l hl ↦
      Phases.not_ends_of_mem_cutting_of_ofLines hp l (hks.subset hl)

section Pocket

def pocket : Text :=
  "G21\nS9000 M3\nG1 X1 Y1\n(Pocket 2)\nG0 X5\nG53 G0 Z0\n(Done)\nM5\nM30\nT2 M6".toList

def isUntooled (program : Text) : Bool :=
  match (Segment.ofProgram program : Except LineFault (List (Segment Float))) with
  | .ok ss =>
    match Phases.ofLines (Segment.headLines ss) with
    | .ok p => (Segment.tooled ss).isEmpty && p.cutting.length = 4
    | .error _ => false
  | .error _ => false

theorem isUntooled_pocket : isUntooled pocket = true := by decide +kernel

theorem assemble_of_untooled_pocket :
    ∃ (ss : List (Segment Float)) (p : Phases Float), Segment.ofProgram pocket = .ok ss ∧
      Segment.tooled ss = [] ∧ Phases.ofLines (Segment.headLines ss) = .ok p ∧
      p.cutting.length = 4 ∧
      assemble twoCells pocket = .ok (join ['\n'] (untooledLines twoCells p)) ∧ p.CopiesAll := by
  have h := isUntooled_pocket
  unfold isUntooled at h
  split at h
  next ss hs =>
    split at h
    next p hp =>
      simp only [Bool.and_eq_true, List.isEmpty_iff, decide_eq_true_eq] at h
      obtain ⟨ht, hcut⟩ := h
      obtain ⟨ha, hc⟩ := assemble_of_untooled twoCells hs ht
      rw [hp] at ha
      exact ⟨ss, p, hs, ht, hp, hcut, ha, hc p hp⟩
    next => cases h
  next => cases h

end Pocket

end Assembly

end StepAndRepeat
