import StepAndRepeat.Proofs.Program.Grouping
import StepAndRepeat.Proofs.Replication.Rewriting
import StepAndRepeat.Replication.Assembly

namespace StepAndRepeat

variable {α : Type}

/-- Lines copied in one go for one instance. -/
structure Block (α : Type) where
  /-- The place of the instance in the order, counted from zero. -/
  place : Nat
  cell : Instance α
  tool : Option Int
  dropStops : Bool
  /-- The lines that the instance has read before, from fresh modes. -/
  before : List (Line α)
  /-- The segments that are copied, or the cutting phase. -/
  pieces : List (List (Line α))

/-- A stretch of an assembled program. -/
inductive Stretch (α : Type) where
  | note (text : Text)
  | verbatim (ls : List (Line α))
  | block (b : Block α)

namespace Block

def lines (b : Block α) : List (Line α) := b.pieces.flatten

variable [Coordinate α]

def copies (b : Block α) : List (Copy α) :=
  (Replay.lines b.cell.offset b.dropStops (Modes.through {} b.before) b.lines).2

end Block

namespace Stretch

def entries [Coordinate α] : Stretch α → List (Entry α)
  | note t => [.note t]
  | verbatim ls => Entry.verbatim ls
  | block b => b.copies.map .copy

def blocks : List (Stretch α) → List (Block α)
  | [] => []
  | block b :: ss => b :: blocks ss
  | _ :: ss => blocks ss

@[simp] theorem blocks_nil : blocks ([] : List (Stretch α)) = [] := rfl

@[simp] theorem blocks_block (b : Block α) (ss : List (Stretch α)) :
    blocks (block b :: ss) = b :: blocks ss := rfl

@[simp] theorem blocks_note (t : Text) (ss : List (Stretch α)) :
    blocks (note t :: ss) = blocks ss := rfl

@[simp] theorem blocks_verbatim (ls : List (Line α)) (ss : List (Stretch α)) :
    blocks (verbatim ls :: ss) = blocks ss := rfl

@[simp] theorem blocks_append (ss ts : List (Stretch α)) :
    blocks (ss ++ ts) = blocks ss ++ blocks ts := by
  induction ss with
  | nil => rfl
  | cons s ss ih => cases s <;> simp [ih]

@[simp] theorem blocks_flatMap {β : Type} (bs : List β) (f : β → List (Stretch α)) :
    blocks (bs.flatMap f) = bs.flatMap fun b ↦ blocks (f b) := by
  induction bs with
  | nil => rfl
  | cons b bs ih => simp [ih]

@[simp] theorem blocks_map_note (ts : List Text) :
    blocks (ts.map note : List (Stretch α)) = [] := by
  induction ts with
  | nil => rfl
  | cons t ts ih => simp [ih]

end Stretch

namespace Assembly

def cells (o : Order α) : List ((Instance α × Bool) × Nat) := (marked o.instances).zipIdx

def headerStretches (ls : List (Line α)) : List (Stretch α) :=
  if ls.isEmpty then [] else [.verbatim ls, .note []]

def pass (k : Nat) (i : Instance α) (last : Bool) :
    List (Line α) → List ((Int × Segment α) × Bool) → List (Stretch α)
  | _, [] => []
  | before, ((n, s), lastSegment) :: ss =>
    .note (toolChange n) ::
      .block ⟨k, i, some n, !(last && lastSegment), before, [s.lines]⟩ :: .note [] ::
        pass k i last (before ++ s.lines) ss

/-- One instance runs the segments of one tool. -/
def toolBlock (n : Int) (group : List (Segment α)) (c : (Instance α × Bool) × Nat) : Block α :=
  ⟨c.2, c.1.1, some n, !c.1.2, [], group.map (·.lines)⟩

def cuttingBlock (ls : List (Line α)) (c : (Instance α × Bool) × Nat) : Block α :=
  ⟨c.2, c.1.1, none, !c.1.2, [], [ls]⟩

variable [Coordinate α]

def withoutToolsStretches (o : Order α) (p : Phases α) : List (Stretch α) :=
  [.note noToolsNote, .note [], .verbatim p.preamble, .note []] ++
    (cells o).flatMap (fun c ↦
      [.note (partNote o.totalParts c.1.1), .note (offsetNote c.1.1),
        .block (cuttingBlock p.cutting c), .note []]) ++
    [.verbatim p.postamble]

def standardStretches (o : Order α) (head : List (Line α)) (ss : List (Int × Segment α)) :
    List (Stretch α) :=
  [.note standardNote, .note (changesNote ss.length), .note []] ++ headerStretches head ++
    (cells o).flatMap fun c ↦
      [.note (partNote o.totalParts c.1.1), .note (offsetNote c.1.1), .note []] ++
        pass c.2 c.1.1 c.1.2 [] (marked ss)

def sortedStretches (o : Order α) (head : List (Line α)) (ss : List (Int × Segment α))
    (groups : List (Int × List (Segment α))) : List (Stretch α) :=
  [.note sortedNote, .note (toolsNote (groups.map (·.1))),
    .note (reducedNote groups.length (ss.length * o.instances.length)), .note []] ++
    headerStretches head ++
    groups.flatMap fun (n, group) ↦
      [.note (toolNote n), .note (toolChange n), .note []] ++
        (cells o).flatMap fun c ↦
          [.note (toolPartNote n c.1.1), .note (offsetNote c.1.1),
            .block (toolBlock n group c), .note []]

def bodyStretches (o : Order α) (ls : List (Line α)) : Except LineFault (List (Stretch α)) :=
  if (Segment.tools ls).isEmpty then
    (Phases.ofLines (Segment.cut ls).1).map (withoutToolsStretches o)
  else if o.sortByTool then
    .ok (sortedStretches o (Segment.cut ls).1 (Segment.tools ls)
      (Segment.group [] (Segment.tools ls)))
  else .ok (standardStretches o (Segment.cut ls).1 (Segment.tools ls))

def stretches (o : Order α) (program : Text) : Except LineFault (List (Stretch α)) := do
  let ls ← Line.readAll program
  let ls ← Ending.cleanAll ls
  let body ← bodyStretches o ls
  return o.banner.map .note ++ body ++ [.note programEnd]

def blocks (o : Order α) (program : Text) : Except LineFault (List (Block α)) :=
  (stretches o program).map Stretch.blocks

section WrittenOut

omit [Coordinate α] in
theorem flatMap_cells {β : Type} (o : Order α) (f : Instance α × Bool → List β) :
    (cells o).flatMap (fun c ↦ f c.1) = (marked o.instances).flatMap f := by
  have h : (cells o).map Prod.fst = marked o.instances := List.zipIdx_map_fst ..
  rw [← h, List.flatMap_map]

theorem entries_verbatim_headerStretches (ls : List (Line α)) :
    (headerStretches ls).flatMap Stretch.entries = header ls := by
  unfold headerStretches header
  split
  · rfl
  · simp [Stretch.entries, Entry.blank]

theorem flatMap_entries_pass (k : Nat) (i : Instance α) (last : Bool) (before : List (Line α))
    (ss : List ((Int × Segment α) × Bool)) :
    (pass k i last before ss).flatMap Stretch.entries =
      (runs i last (Modes.through {} before) ss).flatMap runEntries := by
  induction ss generalizing before with
  | nil => rfl
  | cons t ss ih =>
    obtain ⟨⟨n, s⟩, lastSegment⟩ := t
    have hm : (Replay.lines i.offset (!(last && lastSegment)) (Modes.through {} before)
        s.lines).1 = Modes.through {} (before ++ s.lines) := by
      rw [Replay.lines_modes, Modes.through_append]
    simp only [pass, runs, List.flatMap_cons, ih, hm]
    simp [Stretch.entries, runEntries, Block.copies, Block.lines, Entry.blank]

theorem flatMap_entries_withoutTools (o : Order α) (p : Phases α) :
    (withoutToolsStretches o p).flatMap Stretch.entries = withoutTools o p := by
  rw [withoutToolsStretches, withoutTools, List.flatMap_append, List.flatMap_append,
    List.flatMap_assoc, ← flatMap_cells]
  simp [Stretch.entries, replay, cuttingBlock, Block.copies, Block.lines, Entry.blank]

theorem flatMap_entries_standard (o : Order α) (head : List (Line α))
    (ss : List (Int × Segment α)) :
    (standardStretches o head ss).flatMap Stretch.entries = standard o head ss := by
  rw [standardStretches, standard, List.flatMap_append, List.flatMap_append,
    entries_verbatim_headerStretches, List.flatMap_assoc, ← flatMap_cells]
  simp [flatMap_entries_pass, Stretch.entries, Entry.blank]

theorem flatMap_entries_sorted (o : Order α) (head : List (Line α)) (ss : List (Int × Segment α))
    (groups : List (Int × List (Segment α))) :
    (sortedStretches o head ss groups).flatMap Stretch.entries = sorted o head ss groups := by
  rw [sortedStretches, sorted, List.flatMap_append, List.flatMap_append,
    entries_verbatim_headerStretches, List.flatMap_assoc]
  congr 1
  apply List.flatMap_congr
  rintro ⟨n, group⟩ _
  dsimp only
  rw [← flatMap_cells, List.flatMap_append, List.flatMap_assoc]
  simp [Stretch.entries, replay, toolBlock, Block.copies, Block.lines, Entry.blank,
    List.flatMap_def]

theorem flatMap_entries_framed (banner : List Text) (body : List (Stretch α)) :
    (banner.map Stretch.note ++ body ++ [Stretch.note programEnd]).flatMap Stretch.entries =
      banner.map Entry.note ++ body.flatMap Stretch.entries ++ [Entry.note programEnd] := by
  rw [List.flatMap_append, List.flatMap_append, List.flatMap_map]
  congr 2
  exact List.map_eq_flatMap.symm

/-- The entries of the assembly are its stretches written out. -/
theorem entries_eq (o : Order α) (program : Text) :
    entries o program = (stretches o program).map (·.flatMap Stretch.entries) := by
  simp only [entries, stretches, Segment.ofProgram]
  cases (Line.readAll program : Except LineFault (List (Line α))) with
  | error e => rfl
  | ok ls =>
    cases hc : Ending.cleanAll ls with
    | error e => simp [bind, Except.bind, Except.map, hc]
    | ok ls' =>
      simp only [bind, Except.bind, hc, pure, Except.pure, Segment.tooled_split,
        Segment.header_split, Segment.byTool_split, bodyStretches]
      split
      · cases Phases.ofLines (Segment.cut ls').1 with
        | error e => rfl
        | ok p => simp only [Except.map, flatMap_entries_framed, flatMap_entries_withoutTools]
      · split
        · simp only [Except.map, flatMap_entries_framed, flatMap_entries_sorted]
        · simp only [Except.map, flatMap_entries_framed, flatMap_entries_standard]

end WrittenOut

section BlocksOf

omit [Coordinate α] in
@[simp] theorem blocks_headerStretches (ls : List (Line α)) :
    Stretch.blocks (headerStretches ls) = [] := by
  unfold headerStretches
  split <;> rfl

omit [Coordinate α] in
theorem mem_pass {k : Nat} {i : Instance α} {last : Bool} {before : List (Line α)}
    {ss : List ((Int × Segment α) × Bool)} {b : Block α}
    (h : b ∈ Stretch.blocks (pass k i last before ss)) :
    ∃ ps n s lastSegment ks, ss = ps ++ ((n, s), lastSegment) :: ks ∧
      b = ⟨k, i, some n, !(last && lastSegment), before ++ ps.flatMap (·.1.2.lines),
        [s.lines]⟩ := by
  induction ss generalizing before with
  | nil => simp [pass] at h
  | cons t ss ih =>
    obtain ⟨⟨n, s⟩, lastSegment⟩ := t
    simp only [pass, Stretch.blocks_note, Stretch.blocks_block, List.mem_cons] at h
    rcases h with rfl | h
    · exact ⟨[], n, s, lastSegment, ss, rfl, by simp⟩
    · obtain ⟨ps, m, t, flag, ks, rfl, rfl⟩ := ih h
      exact ⟨((n, s), lastSegment) :: ps, m, t, flag, ks, rfl, by simp⟩

theorem blocks_withoutTools (o : Order α) (p : Phases α) :
    Stretch.blocks (withoutToolsStretches o p) = (cells o).map (cuttingBlock p.cutting) := by
  simp [withoutToolsStretches, List.map_eq_flatMap]

theorem blocks_standard (o : Order α) (head : List (Line α)) (ss : List (Int × Segment α)) :
    Stretch.blocks (standardStretches o head ss) =
      (cells o).flatMap fun c ↦ Stretch.blocks (pass c.2 c.1.1 c.1.2 [] (marked ss)) := by
  simp [standardStretches]

theorem blocks_sorted (o : Order α) (head : List (Line α)) (ss : List (Int × Segment α))
    (groups : List (Int × List (Segment α))) :
    Stretch.blocks (sortedStretches o head ss groups) =
      groups.flatMap fun g ↦ (cells o).map (toolBlock g.1 g.2) := by
  simp [sortedStretches, List.map_eq_flatMap]

/-- All blocks stand between the banner and the program end. -/
theorem blocks_eq (o : Order α) (program : Text) :
    blocks o program = (do
      let ls ← Line.readAll program
      let ls ← Ending.cleanAll ls
      (bodyStretches o ls).map Stretch.blocks) := by
  simp only [blocks, stretches]
  cases (Line.readAll program : Except LineFault (List (Line α))) with
  | error e => rfl
  | ok ls =>
    cases hc : Ending.cleanAll ls with
    | error e => simp [bind, Except.bind, Except.map, hc]
    | ok ls' =>
      simp only [bind, Except.bind, hc]
      cases bodyStretches o ls' with
      | error e => rfl
      | ok body => simp [pure, Except.pure, Except.map]

end BlocksOf

end Assembly

end StepAndRepeat
