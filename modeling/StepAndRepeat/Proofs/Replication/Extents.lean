import StepAndRepeat.Proofs.Replication.Footprint

namespace StepAndRepeat.Assembly

variable {o : Order ℝ} {program : Text} {ls : List (Line ℝ)} {ss : List (Segment ℝ)}

theorem low_on_extent {α : Type} [Coordinate α] (b : Box α) (a : Axis) :
    b.extent.low.on a = (b.on a).low.getD Coordinate.zero := by
  cases a <;> rfl

theorem high_on_extent {α : Type} [Coordinate α] (b : Box α) (a : Axis) :
    b.extent.high.on a = (b.on a).high.getD Coordinate.zero := by
  cases a <;> rfl

theorem isLeast_extent {a : Axis} (hs : ∀ l ∈ ls, (l.act a).IsStraight)
    (hne : Act.trace .rapid (Position.origin.on a) (ls.map (Line.act a)) ≠ []) :
    IsLeast {v | v ∈ Act.trace .rapid (Position.origin.on a) (ls.map (Line.act a))}
        ((Survey.run ls).box.extent.low.on a) ∧
      IsGreatest {v | v ∈ Act.trace .rapid (Position.origin.on a) (ls.map (Line.act a))}
        ((Survey.run ls).box.extent.high.on a) := by
  rw [low_on_extent, high_on_extent, Survey.on_box_run hs]
  exact (Range.spans_foldl _).of_ne_nil hne

theorem extent_of_readAll {α : Type} [Circular α] {ls : List (Line α)}
    (h : Line.readAll program = .ok ls) :
    Survey.extent program = .ok (Survey.run ls).box.extent := by
  rw [Survey.extent, Survey.ofProgram, h]
  rfl

/-- If some cut of the program names an axis, the assembled program reaches along it as far as
the program does, moved by the shifts. -/
theorem extent_assemble (hl : Line.readAll program = .ok ls)
    (hss : Segment.ofProgram program = .ok ss) (hp : SelfPlacing ls ss) (hr : ReadsBack o ss)
    (hi : o.instances ≠ []) (hbanner : ∀ t ∈ o.banner, IsRemark t) :
    ∃ out src ext, assemble o program = .ok out ∧ Survey.extent program = .ok src ∧
      Survey.extent out = .ok ext ∧
      ((∃ l ∈ ls, l.IsCut ls ∧ l.x?.isSome = true) →
        IsLeast {v | ∃ i ∈ o.instances, v = src.low.x + i.offset.x} ext.low.x ∧
          IsGreatest {v | ∃ i ∈ o.instances, v = src.high.x + i.offset.x} ext.high.x) ∧
      ((∃ l ∈ ls, l.IsCut ls ∧ l.y?.isSome = true) →
        IsLeast {v | ∃ i ∈ o.instances, v = src.low.y + i.offset.y} ext.low.y ∧
          IsGreatest {v | ∃ i ∈ o.instances, v = src.high.y + i.offset.y} ext.high.y) := by
  have hseg := segments_eq hl hss hp
  rw [hseg] at hp hr
  have hn := Line.map_index_readAll hl
  obtain ⟨out, outs, hout, houts, hstraight, hmem⟩ := exists_output hl hp hr hbanner
  have haxis (a : Axis) (ha : a ≠ .z) (hcut : ∃ l ∈ ls, l.IsCut ls ∧ (l.axis? a).isSome = true) :
      IsLeast {v | ∃ i ∈ o.instances, v = (Survey.run ls).box.extent.low.on a + i.offset.on a}
          ((Survey.run outs).box.extent.low.on a) ∧
        IsGreatest
          {v | ∃ i ∈ o.instances, v = (Survey.run ls).box.extent.high.on a + i.offset.on a}
          ((Survey.run outs).box.extent.high.on a) := by
    obtain ⟨l, hll, hlc, hla⟩ := hcut
    have hne := SelfPlacing.trace_ne_nil_of_isCut hn hll hlc hla (Position.origin.on a)
    obtain ⟨hlow, hhigh⟩ := isLeast_extent (fun l hl ↦ hp.isStraight_act hl a) hne
    have hne' : Act.trace .rapid (Position.origin.on a) (outs.map (Line.act a)) ≠ [] := by
      obtain ⟨i, hio⟩ := List.exists_mem_of_ne_nil _ hi
      exact List.ne_nil_of_mem ((hmem a ha _ _).2 ⟨i, hio, _, hlow.1, rfl⟩)
    obtain ⟨hlow', hhigh'⟩ := isLeast_extent (hstraight a) hne'
    exact ⟨isLeast_moved (fun w ↦ hmem a ha _ w) hlow hlow',
      isGreatest_moved (fun w ↦ hmem a ha _ w) hhigh hhigh'⟩
  refine ⟨out, _, _, hout, extent_of_readAll hl, extent_of_readAll houts, fun h ↦ ?_, fun h ↦ ?_⟩
  · exact haxis .x (by decide) h
  · exact haxis .y (by decide) h

section OneCut

def oneCut : Text := "T1 M6\nG0 X1 Y1\nG1 X5 Y2\nM30".toList

noncomputable section

def callLine : Line ℝ where
  index := 0
  text := "T1 M6".toList
  kind := .code
  words := [⟨'T', whole 1, 0, 2⟩, ⟨'M', whole 6, 3, 5⟩]
  tool := some (towardZero (whole 1))

def moveLine : Line ℝ where
  index := 1
  text := "G0 X1 Y1".toList
  kind := .code
  words := [⟨'G', whole 0, 0, 2⟩, ⟨'X', whole 1, 3, 5⟩, ⟨'Y', whole 1, 6, 8⟩]
  tool := none

def cutLine : Line ℝ where
  index := 2
  text := "G1 X5 Y2".toList
  kind := .code
  words := [⟨'G', whole 1, 0, 2⟩, ⟨'X', whole 5, 3, 5⟩, ⟨'Y', whole 2, 6, 8⟩]
  tool := none

def endLine : Line ℝ where
  index := 3
  text := "M30".toList
  kind := .code
  words := [⟨'M', whole 30, 0, 3⟩]
  tool := none

def oneCutLines : List (Line ℝ) := [callLine, moveLine, cutLine, endLine]

def cutSegment : Segment ℝ := ⟨some (towardZero (whole 1)), [moveLine, cutLine]⟩

def twoParts : Order ℝ where
  instances := [⟨1, 1, 1, ⟨whole 0, whole 0⟩⟩, ⟨2, 1, 2, ⟨whole 10, whole 0⟩⟩]
  totalParts := 2

theorem readAll_oneCut : Line.readAll oneCut = .ok oneCutLines := by
  have hcall : (Line.readAt 0 callLine.text : Except LineFault (Line ℝ)) =
      (Line.toolOf callLine.words).map fun tool ↦ { callLine with tool := tool } := by rfl
  have htool : Line.toolOf callLine.words = .ok callLine.tool := by
    simp only [callLine, Line.toolOf, List.find?_cons, List.any_cons, Word.isCode_whole]
    rfl
  have hmove : Line.readAt 1 moveLine.text = .ok moveLine := by rfl
  have hcut : Line.readAt 2 cutLine.text = .ok cutLine := by rfl
  have hend : Line.readAt 3 endLine.text = .ok endLine := by rfl
  have hlines : Text.lines oneCut =
      [callLine.text, moveLine.text, cutLine.text, endLine.text] := by rfl
  rw [htool] at hcall
  rw [Line.readAll, hlines, Line.readFrom, hcall, Line.readFrom, hmove, Line.readFrom, hcut,
    Line.readFrom, hend]
  rfl

theorem codes_oneCut : ∀ l ∈ oneCutLines, l.has 'G' 91 = false ∧ l.has 'G' 2 = false ∧
    l.has 'G' 3 = false ∧ l.isMachineMove = false := by
  simp [oneCutLines, callLine, moveLine, cutLine, endLine, Line.has, Line.isMachineMove,
    Word.isCode_whole]

theorem ends_oneCut : ∀ l ∈ oneCutLines, l.isProgramEnd = true →
    ∀ w ∈ l.words, w.letter = 'N' ∨ w.isProgramEnd = true := by
  simp [oneCutLines, callLine, moveLine, cutLine, endLine, Line.isProgramEnd, Word.isProgramEnd,
    Word.isCode_whole]

theorem ofProgram_oneCut : Segment.ofProgram oneCut = .ok [cutSegment] := by
  have hf : oneCutLines.filter (fun l ↦ !l.isProgramEnd) = [callLine, moveLine, cutLine] := by
    simp [oneCutLines, callLine, moveLine, cutLine, endLine, Line.isProgramEnd,
      Word.isProgramEnd, Word.isCode_whole]
  simp only [Segment.ofProgram, readAll_oneCut, bind, Except.bind,
    Ending.cleanAll_eq_filter ends_oneCut, hf]
  rfl

theorem selfPlacing_oneCut : SelfPlacing oneCutLines [cutSegment] where
  tooled_ne_nil := by simp [Segment.tooled, cutSegment]
  noSteps l hl := (codes_oneCut l hl).1
  noArcs l hl := ⟨(codes_oneCut l hl).2.1, (codes_oneCut l hl).2.2.1⟩
  header s hs h := by
    rw [List.mem_singleton.1 hs] at h
    cases h
  placed s hs _ l hl := by
    have hm : moveLine.isMachineMove = false :=
      (codes_oneCut moveLine (by simp [oneCutLines])).2.2.2
    have hxy : moveLine.hasXY = true := rfl
    rw [List.mem_singleton.1 hs, cutSegment, List.find?_cons_of_pos (by rw [hxy, hm]; rfl),
      Option.some_inj] at hl
    subst hl
    refine ⟨rfl, rfl, ?_, ?_⟩ <;> simp [moveLine, Line.has, Word.isCode_whole]
  bare := by
    simp [oneCutLines, callLine, moveLine, cutLine, endLine, Line.isSpindleStop, Line.has,
      Word.isCode_whole, Line.isToolChange]
  ends := ends_oneCut

theorem readsBack_oneCut : ReadsBack twoParts [cutSegment] := by
  have hshift : ∀ i ∈ twoParts.instances,
      (∃ m, i.offset.x = whole m) ∧ ∃ m, i.offset.y = whole m := by
    simp only [twoParts, List.forall_mem_cons]
    exact ⟨⟨⟨0, rfl⟩, ⟨0, rfl⟩⟩, ⟨⟨10, rfl⟩, ⟨0, rfl⟩⟩, by simp⟩
  have hword : ∀ l ∈ cutSegment.lines, ∀ k ∈ l.keys, ∃ n, k.2 = whole n := by
    simp [cutSegment, moveLine, cutLine, Line.keys, Word.key]
  intro i hi s hs _ l hl _
  rw [List.mem_singleton.1 hs] at hl
  obtain ⟨hx, hy⟩ := hshift i hi
  exact Offset.readsBack_of_whole hx hy (hword l hl)

theorem isCut_cutLine : cutLine.IsCut oneCutLines := by
  refine ⟨rfl, (codes_oneCut cutLine (by simp [oneCutLines])).2.2.2, ?_⟩
  simp [sourceModes, oneCutLines, callLine, moveLine, cutLine, Modes.through, Modes.read,
    Modes.after, Line.motion?, Line.has, Word.isCode_whole, Motion.isCutting]

theorem extent_assemble_oneCut :
    ∃ out src ext, assemble twoParts oneCut = .ok out ∧ Survey.extent oneCut = .ok src ∧
      Survey.extent out = .ok ext ∧
      IsLeast {v | ∃ i ∈ twoParts.instances, v = src.low.x + i.offset.x} ext.low.x ∧
      IsGreatest {v | ∃ i ∈ twoParts.instances, v = src.high.x + i.offset.x} ext.high.x ∧
      IsLeast {v | ∃ i ∈ twoParts.instances, v = src.low.y + i.offset.y} ext.low.y ∧
      IsGreatest {v | ∃ i ∈ twoParts.instances, v = src.high.y + i.offset.y} ext.high.y := by
  obtain ⟨out, src, ext, hout, hsrc, hext, hx, hy⟩ := extent_assemble readAll_oneCut
    ofProgram_oneCut selfPlacing_oneCut readsBack_oneCut (by simp [twoParts]) (by simp [twoParts])
  have hm : cutLine ∈ oneCutLines := by simp [oneCutLines]
  obtain ⟨hlx, hgx⟩ := hx ⟨cutLine, hm, isCut_cutLine, rfl⟩
  obtain ⟨hly, hgy⟩ := hy ⟨cutLine, hm, isCut_cutLine, rfl⟩
  exact ⟨out, src, ext, hout, hsrc, hext, hlx, hgx, hly, hgy⟩

end

end OneCut

end StepAndRepeat.Assembly
