import StepAndRepeat.Proofs.Replication.Blocks

namespace StepAndRepeat

variable {α : Type} [Coordinate α]

namespace Copy

/-- The line works: it is neither blank nor a comment line, and stops no spindle. -/
def works (c : Copy α) : Bool :=
  !c.line.isComment && !c.line.isBlank && !c.line.isSpindleStop

theorem works_eq (c : Copy α) : c.works = (c.line.isCode && !c.line.isSpindleStop) := by
  have hk : (!c.line.isComment && !c.line.isBlank) = c.line.isCode := by
    cases h : c.line.kind <;> simp [Line.isComment, Line.isBlank, Line.isCode, h]
  rw [works, hk]

end Copy

namespace Assembly

def written (o : Order α) (program : Text) (k : Nat) (n : Int) : Except LineFault (List (Copy α)) :=
  (blocks o program).map fun bs ↦
    (bs.filter fun b ↦ b.place = k && b.tool = some n).flatMap Block.copies

def working (i : Instance α) (ls : List (Line α)) : List (Copy α) :=
  (i.offset.rewrites {} ls).filter Copy.works

theorem filter_works_copies {b : Block α}
    (h : (Modes.through {} b.before).distance = .absolute) :
    b.copies.filter Copy.works = working b.cell b.lines := by
  have hw (cs : List (Copy α)) : cs.filter Copy.works =
      (cs.filter (·.line.isCode)).filter fun c ↦ !c.line.isSpindleStop := by
    rw [List.filter_filter]
    exact List.filter_congr fun c _ ↦ by rw [Copy.works_eq, Bool.and_comm]
  have hd : (Modes.through {} b.before).distance = ({} : Modes).distance := h
  rw [hw, Block.copies, Replay.code_lines, List.filter_filter, working,
    Offset.rewrites_eq_of_distance b.cell.offset hd]
  apply List.filter_congr
  intro c _
  rw [Copy.works_eq]
  cases c.line.isCode <;> cases c.line.isSpindleStop <;> simp

/-- Every one of these segments leaves absolute coordinates in force, read from them. -/
def EndAbsolute (ts : List (Int × Segment α)) : Prop :=
  ∀ t ∈ ts, (Modes.through {} t.2.lines).distance = .absolute

instance (ts : List (Int × Segment α)) : Decidable (EndAbsolute ts) :=
  inferInstanceAs (Decidable (∀ t ∈ ts, (Modes.through {} t.2.lines).distance = .absolute))

theorem through_absolute {m : Modes} (hm : m.distance = .absolute) {ls : List (Line α)}
    (h : (Modes.through {} ls).distance = .absolute) : (m.through ls).distance = .absolute := by
  rwa [Modes.through_distance, hm, ← Modes.through_distance {}]

/-- Segments read one after another from absolute coordinates are written as each alone. -/
theorem working_flatten (i : Instance α) (ls : List (List (Line α)))
    (h : ∀ l ∈ ls, (Modes.through {} l).distance = .absolute) :
    working i ls.flatten = ls.flatMap (working i) := by
  induction ls with
  | nil => rfl
  | cons l ls ih =>
    have hl : (Modes.through {} l).distance = ({} : Modes).distance := h l (by simp)
    rw [List.flatten_cons, List.flatMap_cons, ← ih fun k hk ↦ h k (by simp [hk]), working,
      Offset.rewrites_append, List.filter_append, Offset.rewrites_eq_of_distance i.offset hl]
    rfl

theorem working_pass (k : Nat) (i : Instance α) (last : Bool) (n : Int)
    (before : List (Line α)) (ss : List ((Int × Segment α) × Bool))
    (hb : (Modes.through {} before).distance = .absolute)
    (h : ∀ t ∈ ss, (Modes.through {} t.1.2.lines).distance = .absolute) :
    (((Stretch.blocks (pass k i last before ss)).filter fun b ↦
      b.place = k && b.tool = some n).flatMap Block.copies).filter Copy.works =
      ((ss.map (·.1)).filter (·.1 = n)).flatMap fun t ↦ working i t.2.lines := by
  induction ss generalizing before with
  | nil => rfl
  | cons t ss ih =>
    obtain ⟨⟨m, s⟩, lastSegment⟩ := t
    have hs : (Modes.through {} (before ++ s.lines)).distance = .absolute := by
      rw [Modes.through_append]
      exact through_absolute hb (h ((m, s), lastSegment) (by simp))
    have hi := ih (before ++ s.lines) hs fun u hu ↦ h u (by simp [hu])
    simp only [pass, Stretch.blocks_note, Stretch.blocks_block, List.filter_cons, List.map_cons,
      decide_true, Bool.true_and, Option.some_inj]
    by_cases hm : m = n
    · simp only [hm, decide_true, ↓reduceIte, List.flatMap_cons, List.filter_append, hi]
      rw [filter_works_copies hb]
      simp [Block.lines]
    · simpa only [hm, decide_false, Bool.false_eq_true, ↓reduceIte] using hi

omit [Coordinate α] in
theorem filter_toolBlocks (gs : List (Int × List (Segment α)))
    (cs : List ((Instance α × Bool) × Nat)) (k : Nat) (n : Int) :
    (gs.flatMap fun g ↦ cs.map (toolBlock g.1 g.2)).filter
        (fun b ↦ b.place = k && b.tool = some n) =
      (gs.filter (·.1 = n)).flatMap fun g ↦ (cs.filter (·.2 = k)).map (toolBlock g.1 g.2) := by
  induction gs with
  | nil => rfl
  | cons g gs ih =>
    have hp : ((fun b : Block α ↦ b.place = k && b.tool = some n) ∘ toolBlock g.1 g.2) =
        fun c ↦ c.2 = k && g.1 = n := by
      funext c
      simp only [Function.comp_apply, toolBlock, Option.some_inj]
      congr
    rw [List.flatMap_cons, List.filter_append, ih, List.filter_cons, List.filter_map, hp]
    by_cases hg : g.1 = n <;> simp [hg]

theorem working_toolBlocks (cs : List ((Instance α × Bool) × Nat)) (k : Nat) (n : Int)
    {ts : List (Int × Segment α)} (h : EndAbsolute ts) :
    ((((Segment.group [] ts).flatMap fun g ↦ cs.map (toolBlock g.1 g.2)).filter fun b ↦
      b.place = k && b.tool = some n).flatMap Block.copies).filter Copy.works =
      (cs.filter (·.2 = k)).flatMap fun c ↦
        (ts.filter (·.1 = n)).flatMap fun t ↦ working c.1.1 t.2.lines := by
  rw [filter_toolBlocks]
  rcases Segment.filter_group n ts with ⟨hg, ht⟩ | hg
  · simp [hg, ht]
  · rw [hg, List.flatMap_singleton, List.flatMap_map, List.filter_flatMap]
    apply List.flatMap_congr
    intro c _
    rw [filter_works_copies rfl]
    have hl : (toolBlock n ((ts.filter (·.1 = n)).map (·.2)) c).lines =
        ((ts.filter (·.1 = n)).map (·.2.lines)).flatten := by
      simp [toolBlock, Block.lines, Function.comp_def]
    rw [hl, working_flatten, List.flatMap_map]
    · rfl
    · intro l hl
      obtain ⟨t, ht, rfl⟩ := List.mem_map.1 hl
      exact h t (List.mem_filter.1 ht).1

theorem map_marked {β : Type} (bs : List β) : (marked bs).map (·.1) = bs := by
  fun_induction marked bs with
  | case1 => rfl
  | case2 => rfl
  | case3 b bs _ ih => simp [ih]

theorem marked_concat {β : Type} (bs : List β) (b : β) :
    marked (bs ++ [b]) = bs.map (·, false) ++ [(b, true)] := by
  induction bs with
  | nil => rfl
  | cons c bs ih =>
    cases bs with
    | nil => rfl
    | cons d bs => exact congrArg ((c, false) :: ·) ih

theorem working_passes (cs : List ((Instance α × Bool) × Nat)) (k : Nat) (n : Int)
    {ts : List (Int × Segment α)} (h : EndAbsolute ts) :
    (((cs.flatMap fun c ↦ Stretch.blocks (pass c.2 c.1.1 c.1.2 [] (marked ts))).filter fun b ↦
      b.place = k && b.tool = some n).flatMap Block.copies).filter Copy.works =
      (cs.filter (·.2 = k)).flatMap fun c ↦
        (ts.filter (·.1 = n)).flatMap fun t ↦ working c.1.1 t.2.lines := by
  have hm : ∀ t ∈ marked ts, (Modes.through {} t.1.2.lines).distance = .absolute := by
    intro t ht
    refine h t.1 ?_
    rw [← map_marked ts]
    exact List.mem_map_of_mem ht
  induction cs with
  | nil => rfl
  | cons c cs ih =>
    rw [List.flatMap_cons, List.filter_append, List.flatMap_append, List.filter_append, ih,
      List.filter_cons]
    by_cases hc : c.2 = k
    · rw [← hc, working_pass c.2 c.1.1 c.1.2 n [] (marked ts) rfl hm, map_marked]
      simp
    · have hn : (Stretch.blocks (pass c.2 c.1.1 c.1.2 [] (marked ts))).filter
          (fun b ↦ b.place = k && b.tool = some n) = [] := by
        rw [List.filter_eq_nil_iff]
        intro b hb
        obtain ⟨_, _, _, _, _, -, rfl⟩ := mem_pass hb
        simp [hc]
      simp [hn, hc]

theorem blocks_body_of_isEmpty {o : Order α} {ls : List (Line α)}
    (ht : (Segment.tools ls).isEmpty = true) :
    (bodyStretches o ls).map Stretch.blocks =
      (Phases.ofLines (Segment.cut ls).1).map fun p ↦ (cells o).map (cuttingBlock p.cutting) := by
  rw [bodyStretches, if_pos ht]
  cases Phases.ofLines (Segment.cut ls).1 with
  | error e => rfl
  | ok p => exact congrArg Except.ok (blocks_withoutTools o p)

theorem blocks_body {o : Order α} {ls : List (Line α)} (ht : (Segment.tools ls).isEmpty = false) :
    (bodyStretches o ls).map Stretch.blocks = .ok (
      if o.sortByTool then
        (Segment.group [] (Segment.tools ls)).flatMap fun g ↦ (cells o).map (toolBlock g.1 g.2)
      else (cells o).flatMap fun c ↦
        Stretch.blocks (pass c.2 c.1.1 c.1.2 [] (marked (Segment.tools ls)))) := by
  rw [bodyStretches, ht]
  cases o.sortByTool with
  | true => exact congrArg Except.ok (blocks_sorted o _ _ _)
  | false => exact congrArg Except.ok (blocks_standard o _ _)

/-- Whatever the strategy, the working lines written for an instance under a tool are the same,
when every tool segment ends in absolute coordinates if it begins in them. -/
theorem working_written_eq (o : Order α) (program : Text)
    (h : ∀ ss : List (Segment α), Segment.ofProgram program = .ok ss →
      EndAbsolute (Segment.tooled ss))
    (k : Nat) (n : Int) :
    (written { o with sortByTool := true } program k n).map (·.filter Copy.works) =
      (written { o with sortByTool := false } program k n).map (·.filter Copy.works) := by
  rw [written, written, blocks_eq, blocks_eq]
  cases hl : (Line.readAll program : Except LineFault (List (Line α))) with
  | error e => simp [bind, Except.bind]
  | ok ls =>
    cases hc : Ending.cleanAll ls with
    | error e => simp [bind, Except.bind, hc]
    | ok ls' =>
      have hs : Segment.ofProgram program = .ok (Segment.split ls') := by
        simp [Segment.ofProgram, bind, Except.bind, pure, Except.pure, hl, hc]
      have ht : EndAbsolute (Segment.tools ls') := by
        rw [← Segment.tooled_split]
        exact h _ hs
      simp only [bind, Except.bind, hc]
      cases he : (Segment.tools ls').isEmpty with
      | true => rw [blocks_body_of_isEmpty he, blocks_body_of_isEmpty he, cells, cells]
      | false =>
        rw [blocks_body he, blocks_body he]
        refine congrArg Except.ok ?_
        exact (working_toolBlocks _ k n ht).trans (working_passes _ k n ht).symm

section Returning

def returning : Text := "T1 M6\nG0 X1\nG91\nX2\nG90\nT2 M6\nG1 Y3\nT1 M6\nX4".toList

def twoCells : Order Float where
  instances := [⟨1, 1, 1, ⟨0, 0⟩⟩, ⟨2, 1, 2, ⟨10, 0⟩⟩]
  totalParts := 2

theorem endAbsolute_returning :
    ((Segment.ofProgram returning : Except LineFault (List (Segment Float))).map fun ss ↦
      decide (EndAbsolute (Segment.tooled ss))) = .ok true := by
  decide +kernel

theorem working_written_eq_returning :
    (written { twoCells with sortByTool := true } returning 1 1).map (·.filter Copy.works) =
      (written { twoCells with sortByTool := false } returning 1 1).map
        (·.filter Copy.works) := by
  refine working_written_eq twoCells returning ?_ 1 1
  intro ss hs
  have h := endAbsolute_returning
  rw [hs] at h
  simpa [Except.map] using h

end Returning

end Assembly

end StepAndRepeat
