import StepAndRepeat.Proofs.Extent.Drive
import StepAndRepeat.Proofs.Number.Packing
import StepAndRepeat.Proofs.Replication.CuttingPhase
import StepAndRepeat.Proofs.Replication.ToolChanges

namespace StepAndRepeat

variable {α : Type} [Coordinate α]

open Text Assembly

namespace Line

def driveOf (t : Text) : List (Char × α) :=
  (if kindOf t = .code then (LinePart.ofLine t).filterMap LinePart.key? else []).filter
    fun k ↦ drivers.contains k.1

theorem drive_of_readAt {i : Nat} {t : Text} {l : Line α} (h : readAt i t = .ok l) :
    l.drive = driveOf t := by
  rw [drive, keys_of_readAt h, driveOf]

theorem driveOf_of_not_code {t : Text} (h : kindOf t ≠ .code) :
    (driveOf t : List (Char × α)) = [] := by
  rw [driveOf, if_neg h, List.filter_nil]

theorem IsRead.drive_of_not_isCode {l : Line α} (hl : l.IsRead) (h : l.isCode = false) :
    l.drive = [] := by
  rw [drive_of_readAt hl, driveOf_of_not_code]
  intro hk
  rw [isCode_iff.2 (hl.kind_eq.trans hk)] at h
  cases h

theorem map_drive_readFrom {i : Nat} {ts : List Text} {ls : List (Line α)}
    (h : readFrom i ts = .ok ls) : ls.map drive = ts.map driveOf :=
  map_readFrom drive_of_readAt h

omit [Coordinate α] in
theorem drives_flatMap {β : Type} (bs : List β) (f : β → List (Line α)) :
    drives (bs.flatMap f) = bs.flatMap fun b ↦ drives (f b) := by
  rw [drives, List.map_flatMap, List.filter_flatMap]
  rfl

theorem driveOf_toolChange (n : Int) : (driveOf (toolChange n) : List (Char × α)) = [] := by
  rw [driveOf, ofLine_toolChange]
  split <;> rfl

theorem driveOf_programEnd : (driveOf programEnd : List (Char × α)) = [] := by
  rw [driveOf, ofLine_programEnd]
  split <;> rfl

end Line

namespace Offset

/-- Every word of a line says the same once it is shifted, written and read again. -/
structure Keeps (o : Offset α) (l : Line α) : Prop where
  decimals : o.WritesDecimals l
  keys : ∀ k ∈ l.keys, o.shiftKey k = k

theorem Keeps.driveOf_copyText {o : Offset α} {l : Line α} (ho : o.Keeps l) (hl : l.IsRead)
    (m : Modes) : Line.driveOf (o.copyText m l) = l.drive := by
  rcases o.copyText_cases m l with ⟨-, ht⟩ | ⟨-, hk, ht⟩
  · rw [ht, Line.drive_of_readAt hl]
  · have hkeys : l.keys.map o.shiftKey = l.keys := by
      conv_rhs => rw [← List.map_id l.keys]
      exact List.map_congr_left ho.keys
    rw [ht, Line.driveOf, if_pos (kindOf_shiftText hl hk ho.decimals), ← Word.map_key_ofLine,
      map_key_shiftText hl hk ho.decimals, hl.map_key_ofLine hk, hkeys, Line.drive]

end Offset

namespace Stretch

omit [Coordinate α] in
def lines : Stretch α → List (Line α)
  | note _ => []
  | verbatim ls => ls
  | block b => b.lines

theorem filter_driveOf {s : Stretch α}
    (h : s.Of (fun t ↦ (Line.driveOf t : List (Char × α)) = [])
      fun l ↦ l.IsRead ∧ (l.isSpindleStop = true → l.drive = []))
    (hb : ∀ b, s = .block b → ∀ l ∈ b.lines, b.cell.offset.Keeps l) :
    (s.entries.map fun e ↦ Line.driveOf e.text).filter (!·.isEmpty) = Line.drives s.lines := by
  cases s with
  | note t =>
    have ht : (Line.driveOf t : List (Char × α)) = [] := h
    simp [entries, Entry.text, ht, lines, Line.drives]
  | verbatim ls =>
    rw [entries, Entry.verbatim, List.map_map, lines, Line.drives]
    congr 1
    exact List.map_congr_left fun l hl ↦ (Line.drive_of_readAt (h l hl).1).symm
  | block b =>
    have htext : (b.copies.map fun c ↦ Line.driveOf c.text) = b.copies.map (·.line.drive) := by
      refine List.map_congr_left fun c hc ↦ ?_
      obtain ⟨hl, ps, ks, -, ht⟩ := Block.mem_copies hc
      rw [ht]
      exact (hb b rfl c.line hl).driveOf_copyText (h c.line hl).1 _
    rw [entries, List.map_map, Function.comp_def]
    change (b.copies.map fun c ↦ Line.driveOf c.text).filter _ = _
    rw [htext, ← filter_map_filter (p := fun c ↦ c.line.isCode), Block.copies, Replay.code_lines,
      filter_map_filter, lines, Line.drives]
    · conv_rhs => rw [← b.cell.offset.map_line_rewrites (Modes.through {} b.before) b.lines,
        List.map_map]
      rfl
    · intro c hc hp
      obtain ⟨hl, hstop⟩ := h c.line (b.cell.offset.line_mem hc)
      cases hcode : c.line.isCode with
      | false => rw [hl.drive_of_not_isCode hcode]; rfl
      | true =>
        rw [hcode, Bool.true_and, Bool.not_eq_false', Bool.and_eq_true] at hp
        rw [hstop hp.2]
        rfl
    · intro c hc hp
      rw [(h c.line (b.cell.offset.line_mem (Replay.mem_lines hc))).1.drive_of_not_isCode hp]
      rfl

end Stretch

namespace Assembly

section Lines

omit [Coordinate α] in
theorem lines_header (ls : List (Line α)) : (headerStretches ls).flatMap Stretch.lines = ls := by
  unfold headerStretches
  cases ls with
  | nil => rfl
  | cons l ls => simp [Stretch.lines]

omit [Coordinate α] in
theorem lines_pass (k : Nat) (i : Instance α) (last : Bool) (before : List (Line α))
    (ss : List ((Int × Segment α) × Bool)) :
    (pass k i last before ss).flatMap Stretch.lines = ss.flatMap (·.1.2.lines) := by
  induction ss generalizing before with
  | nil => rfl
  | cons t ss ih =>
    obtain ⟨⟨n, s⟩, lastSegment⟩ := t
    simp [pass, Stretch.lines, Block.lines, ih]

theorem lines_standard (o : Order α) (head : List (Line α)) (ts : List (Int × Segment α)) :
    (standardStretches o head ts).flatMap Stretch.lines =
      head ++ o.instances.flatMap fun _ ↦ ts.flatMap (·.2.lines) := by
  have hpass (c : (Instance α × Bool) × Nat) :
      (pass c.2 c.1.1 c.1.2 [] (marked ts)).flatMap Stretch.lines = ts.flatMap (·.2.lines) :=
    (lines_pass _ _ _ _ _).trans (flatMap_marked ts (·.2.lines))
  rw [standardStretches, List.flatMap_append, List.flatMap_append, lines_header,
    List.flatMap_assoc, ← map_cells o, List.flatMap_map]
  simp [Stretch.lines, hpass]

theorem lines_withoutTools (o : Order α) (p : Phases α) :
    (withoutToolsStretches o p).flatMap Stretch.lines =
      p.preamble ++ o.instances.flatMap (fun _ ↦ p.cutting) ++ p.postamble := by
  rw [withoutToolsStretches, List.flatMap_append, List.flatMap_append, List.flatMap_assoc,
    ← map_cells o, List.flatMap_map]
  simp [Stretch.lines, Block.lines, cuttingBlock]

theorem Drawn.cell_mem {o : Order α} {ls : List (Line α)} {b : Block α} (h : Drawn o ls b) :
    b.cell ∈ o.instances := by
  cases h with
  | cutting hc => exact mem_instances hc
  | segment hc _ => exact mem_instances hc
  | tool hc _ => exact mem_instances hc

/-- One instance has each line once and in its place, but for the tool changes. -/
theorem exists_body_single {o : Order α} {i : Instance α} (hi : o.instances = [i])
    (hs : o.sortByTool = false) {rs : List (Line α)} (he : ∀ r ∈ rs, r.isProgramEnd = false) :
    ∃ body, bodyStretches o rs = .ok body ∧
      body.flatMap Stretch.lines = rs.filter fun l ↦ !l.isToolChange := by
  rw [Segment.filter_not_isToolChange]
  cases ht : (Segment.tools rs).isEmpty with
  | true =>
    have hclean : Ending.cleanAll (Segment.cut rs).1 = .ok (Segment.cut rs).1 :=
      Ending.cleanAll_of_open fun l hl ↦ he l ((Segment.cut_isPrefix rs).subset hl)
    refine ⟨withoutToolsStretches o (Phases.split (Segment.cut rs).1), ?_, ?_⟩
    · simp [bodyStretches, ht, Phases.ofLines, hclean, Except.map]
    · rw [lines_withoutTools, hi, List.flatMap_singleton, Phases.split_append,
        List.isEmpty_iff.1 ht]
      simp
  | false =>
    refine ⟨standardStretches o (Segment.cut rs).1 (Segment.tools rs), ?_, ?_⟩
    · simp [bodyStretches, ht, hs]
    · rw [lines_standard, hi, List.flatMap_singleton]

end Lines

/-- No note leads the tool, and without end words no line is changed. -/
theorem of_body_open [OneLine α] {o : Order α} {rs : List (Line α)} {body : List (Stretch α)}
    (he : ∀ r ∈ rs, r.isProgramEnd = false) (h : bodyStretches o rs = .ok body) :
    ∀ s ∈ body, s.Of (fun t ↦ (Line.driveOf t : List (Char × α)) = []) (· ∈ rs) := by
  refine of_body (fun t ht ↦ Line.driveOf_of_not_code ht.kindOf_ne)
    (fun t _ ↦ Line.driveOf_toolChange t.1) (fun r hm k hk ↦ ?_) h
  rwa [hk.eq_of_plain (.inl (he r hm))]

/-- What is written leads the tool as the lines do that it stands for. -/
theorem drives_output {o : Order α} {program out : Text} {ss : List (Stretch α)}
    {outs : List (Line α)} (ho : assemble o program = .ok out)
    (hss : stretches o program = .ok ss) (hr : Line.readAll out = .ok outs)
    (hu : ∀ s ∈ ss, ∀ e ∈ s.entries, Unbroken e.text)
    (hof : ∀ s ∈ ss, s.Of (fun t ↦ (Line.driveOf t : List (Char × α)) = [])
      fun l ↦ l.IsRead ∧ (l.isSpindleStop = true → l.drive = []))
    (hk : ∀ b ∈ Stretch.blocks ss, ∀ l ∈ b.lines, b.cell.offset.Keeps l) :
    Line.drives outs = Line.drives (ss.flatMap Stretch.lines) := by
  rw [readAll_of_unbroken ho hss hu] at hr
  rw [Line.drives, Line.map_drive_readFrom hr, List.map_map, List.map_flatMap, List.filter_flatMap,
    Line.drives_flatMap]
  refine List.flatMap_congr fun s hs ↦ Stretch.filter_driveOf (hof s hs) fun b hb l hl ↦ ?_
  exact hk b (Stretch.mem_blocks (hb ▸ hs)) l hl

section Binary

def single (total : Int) : Order Float where
  instances := [⟨1, 1, 1, ⟨0, 0⟩⟩]
  totalParts := total

/-- What stops the spindle, changes the tool or ends the program does not lead the tool, and X and Y
values are read back as they are written. -/
structure Plain (ls : List (Line Float)) : Prop where
  bare : ∀ l ∈ ls, l.isSpindleStop = true ∨ l.isToolChange = true →
    ∀ w ∈ l.words, w.letter ∉ drivers
  ends : ∀ l ∈ ls, l.isProgramEnd = true → ∀ w ∈ l.words, w.letter = 'N' ∨ w.isProgramEnd = true
  readsBack : ∀ l ∈ ls, ∀ w ∈ l.words, w.letter = 'X' ∨ w.letter = 'Y' →
    Coordinate.ofNumeral (.ofText (Coordinate.fixed 3 w.value)) = w.value

theorem Plain.drive_of_end {ls : List (Line Float)} (hp : Plain ls) {l : Line Float} (hl : l ∈ ls)
    (he : l.isProgramEnd = true) : l.drive = [] := by
  rw [Line.drive_eq_nil_iff]
  intro w hw
  rcases hp.ends l hl he w hw with h | h
  · rw [h]
    decide
  · rw [Word.letter_of_isProgramEnd h]
    decide

instance (ls : List (Line Float)) : Decidable (Plain ls) :=
  decidable_of_iff
    ((∀ l ∈ ls, l.isSpindleStop = true ∨ l.isToolChange = true →
        ∀ w ∈ l.words, w.letter ∉ drivers) ∧
      (∀ l ∈ ls, l.isProgramEnd = true →
        ∀ w ∈ l.words, w.letter = 'N' ∨ w.isProgramEnd = true) ∧
      ∀ l ∈ ls, ∀ w ∈ l.words, w.letter = 'X' ∨ w.letter = 'Y' →
        Coordinate.ofNumeral (.ofText (Coordinate.fixed 3 w.value)) = w.value)
    ⟨fun ⟨hb, he, hr⟩ ↦ ⟨hb, he, hr⟩, fun ⟨hb, he, hr⟩ ↦ ⟨hb, he, hr⟩⟩

theorem keeps_zero {l : Line Float}
    (hr : ∀ w ∈ l.words, w.letter = 'X' ∨ w.letter = 'Y' →
      Coordinate.ofNumeral (.ofText (Coordinate.fixed 3 w.value)) = w.value)
    (hz : ∀ w ∈ l.words, w.letter = 'X' ∨ w.letter = 'Y' → w.value ≠ -0) :
    (⟨0, 0⟩ : Offset Float).Keeps l := by
  have hd {c : Char} {d : Float} (h : (⟨0, 0⟩ : Offset Float).of? c = some d) : d = 0 := by
    unfold Offset.of? at h
    split at h
    · exact (Option.some_inj.1 h).symm
    · split at h
      · exact (Option.some_inj.1 h).symm
      · cases h
  constructor
  · intro k hk d h
    obtain ⟨w, hw, rfl⟩ := List.mem_map.1 hk
    have hxy := Offset.letter_of_of? h
    obtain ⟨m, q, hm⟩ := Binary.isFinite_of_readsBack (hr w hw hxy)
    rw [hd h]
    change Numeral.Decimal (Coordinate.fixed 3 (w.value + 0))
    rw [Binary.add_zero (hz w hw hxy)]
    exact decimal_fixed hm
  · intro k hk
    obtain ⟨w, hw, rfl⟩ := List.mem_map.1 hk
    unfold Offset.shiftKey
    split
    next d h =>
      have hxy := Offset.letter_of_of? h
      rw [hd h]
      change (w.letter, Coordinate.ofNumeral (.ofText (Coordinate.fixed 3 (w.value + 0)))) = _
      rw [Binary.add_zero (hz w hw hxy), hr w hw hxy]
      rfl
    next => rfl

section Single

variable {program : Text} {ls rs : List (Line Float)} {body : List (Stretch Float)} {total : Int}

theorem keeps_body_single (hp : Plain ls)
    (hz : ∀ l ∈ ls, ∀ w ∈ l.words, w.letter = 'X' ∨ w.letter = 'Y' → w.value ≠ -0)
    (hss : stretches (single total) program = .ok (body ++ [.note programEnd]))
    (hb : ∀ b ∈ Stretch.blocks body, ∀ l ∈ b.lines, l ∈ ls) :
    ∀ b ∈ Stretch.blocks body, ∀ l ∈ b.lines, b.cell.offset.Keeps l := by
  intro b hm l hl
  have hbs : blocks (single total) program = .ok (Stretch.blocks body) := by
    rw [blocks, hss, Except.map, Stretch.blocks_append]
    simp
  obtain ⟨_, _, _, -, -, hd⟩ := mem_blocks hbs hm
  have hl' := hb b hm l hl
  rw [List.mem_singleton.1 hd.cell_mem]
  exact keeps_zero (hp.readsBack l hl') (hz l hl')

/-- What is written for a single cell can be read. -/
theorem exists_readAll_single {out : Text} (hrs : ∀ r ∈ rs, r.IsOpen)
    (hbody : bodyStretches (single total) rs = .ok body)
    (hss : stretches (single total) program = .ok (body ++ [.note programEnd]))
    (hk : ∀ b ∈ Stretch.blocks body, ∀ l ∈ b.lines, b.cell.offset.Keeps l)
    (hout : assemble (single total) program = .ok out) :
    (∀ s ∈ body ++ [.note programEnd], ∀ e ∈ s.entries, Unbroken e.text) ∧
      ∃ outs : List (Line Float), Line.readAll out = .ok outs := by
  obtain ⟨htold, -⟩ := told_body hrs (fun _ _ ↦ told_toolChange)
    (fun b hb c hc _ ↦ (hk b hb _ (Block.mem_copies hc).1).decimals) hbody
  have hunbroken : ∀ s ∈ body ++ [.note programEnd], ∀ e ∈ s.entries, Unbroken e.text :=
    fun s hs ↦ (isSound_stretches hss (by simp [single]) s hs).unbroken
  refine ⟨hunbroken, ?_⟩
  rw [readAll_of_unbroken hout hss hunbroken]
  refine Line.exists_readFrom_of_forall (fun t ht ↦ ?_) 0
  obtain ⟨e, he, rfl⟩ := List.mem_map.1 ht
  obtain ⟨s, hs, he⟩ := List.mem_flatMap.1 he
  rcases List.mem_append.1 hs with hs | hs
  · exact (htold s hs e he).read
  · rw [List.mem_singleton.1 hs, Stretch.entries, List.mem_singleton] at he
    exact he ▸ told_programEnd.read

/-- A program assembled for one cell that is not shifted is surveyed as it is. -/
theorem survey_assemble_single (total : Int) (hl : Line.readAll program = .ok ls) (hp : Plain ls)
    (hz : ∀ l ∈ ls, ∀ w ∈ l.words, w.letter = 'X' ∨ w.letter = 'Y' → w.value ≠ -0) :
    ∃ out outs, assemble (single total) program = .ok out ∧ Line.readAll out = .ok outs ∧
      Survey.extent out = (Survey.extent program : Except LineFault (Extent Float)) ∧
      Survey.start.walk outs = Survey.start.walk ls := by
  have hr := Ending.cleanAll_eq_filter hp.ends
  generalize hrs : (ls.filter fun l ↦ !l.isProgramEnd) = rs at hr
  have hmem : ∀ r ∈ rs, r ∈ ls ∧ r.isProgramEnd = false := fun r h ↦ by
    rw [← hrs, List.mem_filter] at h
    simpa using h
  have hsound := Line.isSound_of_readAll hl
  obtain ⟨body, hbody, hlines⟩ := exists_body_single (o := single total) rfl rfl
    fun r h ↦ (hmem r h).2
  have hss : stretches (single total) program = .ok (body ++ [.note programEnd]) := by
    simp only [stretches, hl, hr, hbody, bind, Except.bind]
    rfl
  have hof := of_body_open (fun r h ↦ (hmem r h).2) hbody
  have hkeeps := keeps_body_single hp hz hss fun b hb l h ↦
    (hmem l (hof _ (Stretch.block_mem hb) l h)).1
  obtain ⟨out, hout⟩ : ∃ out, assemble (single total) program = .ok out := by
    rw [assemble, entries_of_stretches hss]
    exact ⟨_, rfl⟩
  obtain ⟨hunbroken, outs, houts⟩ := exists_readAll_single
    (fun r h ↦ ⟨hsound r (hmem r h).1, (hmem r h).2⟩) hbody hss hkeeps hout
  have hdrives : Line.drives outs = Line.drives ls := by
    rw [drives_output hout hss houts hunbroken (fun s hs ↦ ?_)
      fun b hb ↦ hkeeps b (by simpa using hb)]
    · rw [List.flatMap_append, hlines, List.flatMap_singleton, Stretch.lines, List.append_nil,
        Line.drives_filter fun r h ht ↦ Line.drive_eq_nil_iff.2 <|
          hp.bare r (hmem r h).1 (.inr (by simpa using ht)),
        ← hrs, Line.drives_filter fun l h he ↦ hp.drive_of_end h (by simpa using he)]
    · rcases List.mem_append.1 hs with hs | hs
      · refine (hof s hs).imp (fun _ h ↦ h) fun l h ↦ ?_
        exact ⟨(hsound l (hmem l h).1).1, fun hstop ↦
          Line.drive_eq_nil_iff.2 (hp.bare l (hmem l h).1 (.inl hstop))⟩
      · rw [List.mem_singleton.1 hs]
        exact Line.driveOf_programEnd
  have hread : ∀ l ∈ ls, l.IsRead := fun l h ↦ (hsound l h).1
  have hreads : ∀ l ∈ outs, l.IsRead := fun l h ↦ (Line.isSound_of_readAll houts l h).1
  refine ⟨out, outs, hout, houts, ?_, Survey.walk_of_drives hread hreads hdrives _⟩
  rw [Survey.extent, Survey.ofProgram, houts, Survey.extent, Survey.ofProgram, hl]
  simp only [Except.map, Survey.run_of_drives hread hreads hdrives]

end Single

def roundTrip : Text :=
  "G0X1Y2.5\nT1 M6\nM3\nG91\nG1X.5Z-1\nG2X1Y1I.5J.5\nM5\nG53G0Z0\nT2M6\nG90G1X0.125\nN9M30".toList

def isPlain (program : Text) : Bool :=
  match (Line.readAll program : Except LineFault (List (Line Float))) with
  | .ok ls => decide (Plain ls) && decide
      (∀ l ∈ ls, ∀ w ∈ l.words, w.letter = 'X' ∨ w.letter = 'Y' → w.value ≠ -0)
  | .error _ => false

theorem isPlain_roundTrip : isPlain roundTrip = true := by decide +kernel

theorem survey_assemble_single_roundTrip :
    ∃ (ls outs : List (Line Float)) (out : Text), Line.readAll roundTrip = .ok ls ∧
      assemble (single 1) roundTrip = .ok out ∧ Line.readAll out = .ok outs ∧
      Survey.extent out = (Survey.extent roundTrip : Except LineFault (Extent Float)) ∧
      Survey.start.walk outs = Survey.start.walk ls := by
  have h := isPlain_roundTrip
  unfold isPlain at h
  split at h
  next ls hl =>
    rw [Bool.and_eq_true, decide_eq_true_eq, decide_eq_true_eq] at h
    obtain ⟨out, outs, hout, houts, hextent, hwalk⟩ := survey_assemble_single 1 hl h.1 h.2
    exact ⟨ls, outs, out, hl, hout, houts, hextent, hwalk⟩
  next => cases h

def negativeZero : Text := "G0 X0 Y-0\nG2 X2000000000000000 Y0 I1000000000000000".toList

def strays (program : Text) : Bool :=
  match (Line.readAll program : Except LineFault (List (Line Float))) with
  | .ok ls => decide (Plain ls) &&
      match assemble (single 1) program with
      | .ok out =>
        match (Line.readAll out : Except LineFault (List (Line Float))) with
        | .ok outs => decide (Survey.start.walk outs ≠ Survey.start.walk ls)
        | .error _ => false
      | .error _ => false
  | .error _ => false

theorem strays_negativeZero : strays negativeZero = true := by decide +kernel

/-- The negative zero is written as zero. -/
theorem not_survey_assemble_single :
    ∃ (ls outs : List (Line Float)) (out : Text), Line.readAll negativeZero = .ok ls ∧ Plain ls ∧
      assemble (single 1) negativeZero = .ok out ∧ Line.readAll out = .ok outs ∧
      ¬ (Survey.extent out = (Survey.extent negativeZero : Except LineFault (Extent Float)) ∧
        Survey.start.walk outs = Survey.start.walk ls) := by
  have h := strays_negativeZero
  unfold strays at h
  split at h
  next ls hl =>
    rw [Bool.and_eq_true, decide_eq_true_eq] at h
    obtain ⟨hp, h⟩ := h
    split at h
    next out hout =>
      split at h
      next outs houts =>
        exact ⟨ls, outs, out, hl, hp, hout, houts, fun ⟨_, hw⟩ ↦ of_decide_eq_true h hw⟩
      next => cases h
    next => cases h
  next => cases h

end Binary

end Assembly

end StepAndRepeat
