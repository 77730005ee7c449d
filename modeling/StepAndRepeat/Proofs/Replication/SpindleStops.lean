import StepAndRepeat.Proofs.Program.Overflow
import StepAndRepeat.Proofs.Replication.Repositioning
import StepAndRepeat.Proofs.Replication.Untooled

namespace StepAndRepeat

variable {α : Type} [Coordinate α]

open Text

def Tells (stop : Line α → Bool) (ls : List (Line α)) : Prop :=
  ∀ l ∈ ls, l.IsRead ∧ stop l = l.isSpindleStop

variable {stop : Line α → Bool} {ls : List (Line α)}

def Offset.shiftedWhere (o : Offset α) (p : Line α → Bool) (m : Modes) (ls : List (Line α)) :
    List (Copy α) :=
  (o.rewrites m ls).filter fun c ↦ p c.line

theorem Offset.length_shiftedWhere (o : Offset α) (p : Line α → Bool) (m : Modes)
    (ls : List (Line α)) : (o.shiftedWhere p m ls).length = (ls.filter p).length := by
  have hmap : (o.shiftedWhere p m ls).map Copy.line = ls.filter p := by
    conv_rhs => rw [← o.map_line_rewrites m ls, List.filter_map]
    rfl
  rw [← hmap, List.length_map]

theorem Replay.stops_lines (h : Tells stop ls) (o : Offset α) (dropStops : Bool) (m : Modes) :
    ((lines o dropStops m ls).2.filter fun c ↦ stop c.line) =
      if dropStops then [] else o.shiftedWhere stop m ls := by
  -- a spindle stop is code, so no label is among the copies that pass
  have hcode {cs : List (Copy α)} (hcs : cs ⊆ o.rewrites m ls) :
      (cs.filter fun c ↦ stop c.line) =
        (cs.filter (·.line.isCode)).filter (·.line.isSpindleStop) := by
    rw [List.filter_filter]
    refine List.filter_congr fun c hc ↦ ?_
    obtain ⟨hread, hstop⟩ := h c.line (o.line_mem (hcs hc))
    rw [hstop]
    cases hs : c.line.isSpindleStop with
    | false => rfl
    | true => rw [hread.isCode_of_has hs]; rfl
  rw [hcode fun c ↦ mem_lines, code_lines, List.filter_filter]
  cases dropStops with
  | false =>
    rw [if_neg Bool.false_ne_true, Offset.shiftedWhere, hcode (List.Subset.refl _),
      List.filter_filter]
    simp
  | true =>
    rw [if_pos rfl, List.filter_eq_nil_iff]
    intro c _
    cases c.line.isSpindleStop <;> simp

namespace Assembly

section Runs

variable {i : Instance α} {last : Bool}

omit [Coordinate α] in
theorem copiesWhere_runEntries (p : Line α → Bool) (r : Int × List (Copy α)) :
    copiesWhere p (runEntries r) = r.2.filter fun c ↦ p c.line := by
  rw [runEntries, copiesWhere_append, copiesWhere_note, copiesWhere_copies]
  exact List.append_nil _

theorem copiesWhere_replay (p : Line α → Bool) (i : Instance α) (dropStops : Bool)
    (ls : List (Line α)) : copiesWhere p (replay i dropStops ls) =
      (Replay.lines i.offset dropStops {} ls).2.filter fun c ↦ p c.line :=
  copiesWhere_copies p _

theorem runs_append (m : Modes) (xs ys : List ((Int × Segment α) × Bool)) :
    runs i last m (xs ++ ys) =
      runs i last m xs ++ runs i last (m.through (xs.flatMap (·.1.2.lines))) ys := by
  induction xs generalizing m with
  | nil => rfl
  | cons t xs ih =>
    obtain ⟨⟨n, s⟩, lastSegment⟩ := t
    simp only [List.cons_append, runs, ih, Replay.lines_modes, List.flatMap_cons,
      Modes.through_append]

theorem stops_runs_of_not_last {ts : List (Int × Segment α)} (m : Modes)
    (h : ∀ t ∈ ts, Tells stop t.2.lines) :
    copiesWhere stop ((runs i last m (ts.map (·, false))).flatMap runEntries) = [] := by
  induction ts generalizing m with
  | nil => rfl
  | cons t ts ih =>
    rw [List.map_cons, runs, List.flatMap_cons, copiesWhere_append, copiesWhere_runEntries,
      Replay.stops_lines (h t (by simp)), ih _ fun u hu ↦ h u (by simp [hu]), Bool.and_false]
    rfl

/-- An instance writes the spindle stops of its last segment, if it is the last. -/
theorem stops_runs {ts : List (Int × Segment α)} {t : Int × Segment α}
    (h : ∀ u ∈ ts ++ [t], Tells stop u.2.lines) :
    copiesWhere stop ((runs i last {} (marked (ts ++ [t]))).flatMap runEntries) =
      if last then
        i.offset.shiftedWhere stop (Modes.through {} (ts.flatMap (·.2.lines))) t.2.lines
      else [] := by
  have hlines : (ts.map (·, false)).flatMap (·.1.2.lines) = ts.flatMap (·.2.lines) :=
    List.flatMap_map ..
  rw [marked_concat, runs_append, List.flatMap_append, copiesWhere_append,
    stops_runs_of_not_last _ fun u hu ↦ h u (by simp [hu]), hlines, runs, runs,
    List.flatMap_singleton, copiesWhere_runEntries, Replay.stops_lines (h t (by simp))]
  cases last <;> rfl

omit [Coordinate α] in
theorem copiesWhere_marked {p : Line α → Bool} {f : Instance α × Bool → List (Entry α)}
    (hf : ∀ j, copiesWhere p (f (j, false)) = []) (is : List (Instance α)) (i : Instance α) :
    copiesWhere p ((marked (is ++ [i])).flatMap f) = copiesWhere p (f (i, true)) := by
  have hnone : copiesWhere p ((is.map (·, false)).flatMap f) = [] := by
    rw [List.flatMap_map, copiesWhere_flatMap, List.flatMap_eq_nil_iff]
    exact fun j _ ↦ hf j
  rw [marked_concat, List.flatMap_append, copiesWhere_append, hnone, List.flatMap_singleton]
  rfl

end Runs

/-- Where spindle stops stay when an order ends with an instance: behind the header, those of the
last segment stay, or those of each tool in its part of a program that is sorted by tool. -/
structure StopsRemain (stop : Line α → Bool) (o : Order α) (i : Instance α)
    (ss : List (Segment α)) (top body : List (Entry α)) : Prop where
  header : top.flatMap Entry.copied = (Segment.headLines ss).map .verbatim
  in_turn : o.sortByTool = false → ∀ t ∈ (Segment.tooled ss).getLast?,
    copiesWhere stop body = i.offset.shiftedWhere stop
      (Modes.through {} ((Segment.tooled ss).dropLast.flatMap (·.2.lines))) t.2.lines
  /-- The part of a tool ends where the tool is changed next. -/
  by_tool : o.sortByTool = true → ∃ parts : List (Int × List (Entry α)),
    body = parts.flatMap (fun p ↦ .note (toolNote p.1) :: .note (toolChange p.1) :: p.2) ++
      [.note programEnd] ∧
    parts.map (·.1) = ((Segment.tooled ss).map (·.1)).eraseDups ∧
    ∀ p ∈ parts, (∀ n, .note (toolChange n) ∉ p.2) ∧
      copiesWhere stop p.2 = i.offset.shiftedWhere stop {}
        (((Segment.tooled ss).filter (·.1 = p.1)).flatMap (·.2.lines))

section Remaining

variable {o : Order α} {i : Instance α} {ss : List (Segment α)}

omit [Coordinate α] in
theorem flatMap_copied_header (ls : List (Line α)) :
    (header ls).flatMap Entry.copied = ls.map .verbatim := by
  unfold header
  split
  next h => rw [List.isEmpty_iff.1 h]; rfl
  next =>
    rw [List.flatMap_append, Entry.verbatim, List.flatMap_map]
    exact (List.append_nil _).trans List.map_eq_flatMap.symm

omit [Coordinate α] in
theorem flatMap_copied_top (banner ts : List Text) (ls : List (Line α)) :
    (banner.map Entry.note ++ (ts.map Entry.note ++ header ls)).flatMap Entry.copied =
      ls.map .verbatim := by
  have hnotes (us : List Text) : (us.map (Entry.note (α := α))).flatMap Entry.copied = [] := by
    simp [List.flatMap_map, Entry.copied]
  rw [List.flatMap_append, List.flatMap_append, hnotes, hnotes, flatMap_copied_header]
  rfl

def standardPart (o : Order α) (ts : List (Int × Segment α)) (c : Instance α × Bool) :
    List (Entry α) :=
  [.note (partNote o.totalParts c.1), .note (offsetNote c.1), .blank] ++
    (runs c.1 c.2 {} (marked ts)).flatMap runEntries

theorem stops_standardPart {ts : List (Int × Segment α)} {t : Int × Segment α}
    (h : ∀ u ∈ ts ++ [t], Tells stop u.2.lines) (c : Instance α × Bool) :
    copiesWhere stop (standardPart o (ts ++ [t]) c) =
      if c.2 then
        c.1.offset.shiftedWhere stop (Modes.through {} (ts.flatMap (·.2.lines))) t.2.lines
      else [] := by
  rw [standardPart, copiesWhere_append, stops_runs h]
  rfl

def toolPart (n : Int) (ls : List (Line α)) (c : Instance α × Bool) : List (Entry α) :=
  [.note (toolPartNote n c.1), .note (offsetNote c.1)] ++ replay c.1 (!c.2) ls ++ [.blank]

theorem stops_toolPart (h : Tells stop ls) (n : Int) (c : Instance α × Bool) :
    copiesWhere stop (toolPart n ls c) =
      if c.2 then c.1.offset.shiftedWhere stop {} ls else [] := by
  rw [toolPart, copiesWhere_append, copiesWhere_append, copiesWhere_replay, Replay.stops_lines h]
  cases c.2 with
  | false => rfl
  | true => exact List.append_nil _

theorem toolChange_not_mem_toolPart [OneLine α] (m n : Int) (ls : List (Line α))
    (c : Instance α × Bool) : .note (toolChange m) ∉ toolPart n ls c := by
  simp only [toolPart, replay, Entry.blank, List.mem_append, List.mem_cons, List.mem_map,
    Entry.note.injEq, reduceCtorEq, and_false, exists_false, List.not_mem_nil, or_false]
  rintro ((h | h) | h)
  · exact (isRemark_toolPartNote n c.1).ne_toolChange m h.symm
  · exact (isRemark_offsetNote c.1).ne_toolChange m h.symm
  · exact isRemark_nil.ne_toolChange m h.symm

def toolParts (o : Order α) (gs : List (Int × List (Segment α))) :
    List (Int × List (Entry α)) :=
  gs.map fun g ↦
    (g.1, .blank :: (marked o.instances).flatMap (toolPart g.1 (g.2.flatMap (·.lines))))

theorem toolChange_not_mem_toolParts [OneLine α] {gs : List (Int × List (Segment α))}
    {p : Int × List (Entry α)} (hp : p ∈ toolParts o gs) (m : Int) :
    .note (toolChange m) ∉ p.2 := by
  obtain ⟨g, -, rfl⟩ := List.mem_map.1 hp
  intro hm
  rcases List.mem_cons.1 hm with hm | hm
  · exact isRemark_nil.ne_toolChange m (Entry.note.inj hm).symm
  · obtain ⟨c, -, hm⟩ := List.mem_flatMap.1 hm
    exact toolChange_not_mem_toolPart m g.1 _ c hm

theorem stops_of_mem_toolParts {is : List (Instance α)} (hi : o.instances = is ++ [i])
    {ts : List (Int × Segment α)} (h : ∀ t ∈ ts, Tells stop t.2.lines)
    {p : Int × List (Entry α)} (hp : p ∈ toolParts o (Segment.group [] ts)) :
    copiesWhere stop p.2 =
      i.offset.shiftedWhere stop {} ((ts.filter (·.1 = p.1)).flatMap (·.2.lines)) := by
  obtain ⟨⟨n, group⟩, hg, rfl⟩ := List.mem_map.1 hp
  have hgroup : group = (ts.filter (·.1 = n)).map (·.2) := Segment.eq_filter_of_mem_group hg
  have hlines : group.flatMap (·.lines) = (ts.filter (·.1 = n)).flatMap (·.2.lines) := by
    rw [hgroup, List.flatMap_map]
  have htells : Tells stop (group.flatMap (·.lines)) := by
    intro l hl
    rw [hlines] at hl
    obtain ⟨t, ht, hl⟩ := List.mem_flatMap.1 hl
    exact h t (List.mem_of_mem_filter ht) l hl
  have hnone (j : Instance α) :
      copiesWhere stop (toolPart n (group.flatMap (·.lines)) (j, false)) = [] :=
    stops_toolPart htells n (j, false)
  dsimp only
  rw [← hlines, Entry.blank, copiesWhere_note, hi, copiesWhere_marked hnone,
    stops_toolPart htells, if_pos rfl]

theorem stopsRemain_standard {is : List (Instance α)} (hi : o.instances = is ++ [i])
    (h : ∀ t ∈ Segment.tooled ss, Tells stop t.2.lines) (hsort : o.sortByTool = false)
    (ts : List Text) :
    StopsRemain stop o i ss
      (o.banner.map .note ++ (ts.map .note ++ header (Segment.headLines ss)))
      ((marked o.instances).flatMap (standardPart o (Segment.tooled ss)) ++
        [.note programEnd]) where
  header := flatMap_copied_top ..
  in_turn _ t ht := by
    obtain ⟨us, hus⟩ := List.getLast?_eq_some_iff.1 ht
    rw [hus] at h ⊢
    have hnone (j : Instance α) : copiesWhere stop (standardPart o (us ++ [t]) (j, false)) = [] :=
      stops_standardPart h (j, false)
    rw [hi, copiesWhere_append, copiesWhere_marked hnone, stops_standardPart h, if_pos rfl,
      List.dropLast_concat]
    exact List.append_nil _
  by_tool hs := absurd (hsort.symm.trans hs) Bool.false_ne_true

theorem stopsRemain_sorted [OneLine α] {is : List (Instance α)} (hi : o.instances = is ++ [i])
    (h : ∀ t ∈ Segment.tooled ss, Tells stop t.2.lines) (hsort : o.sortByTool = true)
    (ts : List Text) :
    StopsRemain stop o i ss
      (o.banner.map .note ++ (ts.map .note ++ header (Segment.headLines ss)))
      ((toolParts o (Segment.byTool ss)).flatMap
        (fun p ↦ .note (toolNote p.1) :: .note (toolChange p.1) :: p.2) ++
        [.note programEnd]) where
  header := flatMap_copied_top ..
  in_turn hs := absurd (hs.symm.trans hsort) Bool.false_ne_true
  by_tool _ := by
    refine ⟨toolParts o (Segment.byTool ss), rfl, ?_, fun p hp ↦
      ⟨fun n ↦ toolChange_not_mem_toolParts hp n, stops_of_mem_toolParts hi h hp⟩⟩
    rw [toolParts, List.map_map, Segment.byTool_eq]
    exact (Segment.map_fst_group (Segment.tooled ss) []).trans (by simp)

theorem exists_stopsRemain [OneLine α] {program : Text}
    (hs : Segment.ofProgram program = .ok ss) (ht : Segment.tooled ss ≠ [])
    (hi : i ∈ o.instances.getLast?) :
    ∃ top body : List (Entry α), entries o program = .ok (top ++ body) ∧
      ∀ stop : Line α → Bool, (∀ t ∈ Segment.tooled ss, Tells stop t.2.lines) →
        StopsRemain stop o i ss top body := by
  -- header and body are named here, before a test is chosen, so that they are the same for every test
  obtain ⟨is, his⟩ := List.getLast?_eq_some_iff.1 hi
  cases hsort : o.sortByTool with
  | false =>
    refine ⟨_, _, ?_, fun stop h ↦ stopsRemain_standard his h hsort
      [standardNote, changesNote (Segment.tooled ss).length, []]⟩
    rw [entries_of_tooled o hs ht, hsort, if_neg Bool.false_ne_true, standard]
    simp only [List.append_assoc]
    rfl
  | true =>
    refine ⟨_, _, ?_, fun stop h ↦ stopsRemain_sorted his h hsort
      [sortedNote, toolsNote ((Segment.byTool ss).map (·.1)),
        reducedNote (Segment.byTool ss).length
          ((Segment.tooled ss).length * o.instances.length), []]⟩
    rw [entries_of_tooled o hs ht, hsort, if_pos rfl, sorted, toolParts, List.flatMap_map]
    simp only [List.append_assoc]
    rfl

theorem StopsRemain.length_copies {top body : List (Entry α)}
    (h : StopsRemain stop o i ss top body) (hsort : o.sortByTool = false)
    {t : Int × Segment α} (ht : t ∈ (Segment.tooled ss).getLast?) :
    (copiesWhere stop (top ++ body)).length =
      ((Segment.headLines ss).filter stop).length + (t.2.lines.filter stop).length := by
  have htop : copiesWhere stop top = ((Segment.headLines ss).filter stop).map .verbatim := by
    rw [copiesWhere, h.header, List.filter_map]
    rfl
  rw [copiesWhere_append, htop, h.in_turn hsort t ht, List.length_append, List.length_map,
    Offset.length_shiftedWhere]

end Remaining

end Assembly

def stopsIn (ls : List (Line α)) (r : Line α) : Bool := ls[r.index]?.any Line.isSpindleStop

namespace Ending

def KeepsStops (ls : List (Line α)) : Prop :=
  ∀ l ∈ ls, ∀ rs ∈ (clean l).toOption, ∀ r ∈ rs, r.isSpindleStop = l.isSpindleStop

instance (ls : List (Line α)) : Decidable (KeepsStops ls) := by
  unfold KeepsStops
  infer_instance

theorem KeepsStops.stopsIn_eq {program : Text} {rs : List (Line α)} (h : KeepsStops ls)
    (hl : Line.readAll program = .ok ls) (hr : cleanAll ls = .ok rs) {r : Line α} (hm : r ∈ rs) :
    stopsIn ls r = r.isSpindleStop := by
  obtain ⟨l, hmem, ks, hks, hm⟩ := exists_of_mem_cleanAll hr hm
  have hindex : r.index = l.index := index_of_mem_clean hks hm
  have hstop : r.isSpindleStop = l.isSpindleStop := h l hmem ks (by rw [hks]; rfl) r hm
  rw [stopsIn, hindex, Line.getElem?_index (Line.map_index_readAll hl) hmem, Option.any_some, hstop]

end Ending

namespace Assembly

/-- Behind the header of a program with tools, the spindle stops that are written are those of the last
segment for the last instance or, by tool, those of all segments of the tool for it. The same holds
of the stops that the program itself has, if taking out its end words hides none and makes none. -/
theorem stopsRemain_assemble [OneLine α] {o : Order α} {i : Instance α} {program : Text}
    {ss : List (Segment α)} (hs : Segment.ofProgram program = .ok ss)
    (ht : Segment.tooled ss ≠ []) (hi : i ∈ o.instances.getLast?) :
    ∃ (ls : List (Line α)) (top body : List (Entry α)), Line.readAll program = .ok ls ∧
      entries o program = .ok (top ++ body) ∧
      assemble o program = .ok (join ['\n'] ((top ++ body).map Entry.text)) ∧
      StopsRemain Line.isSpindleStop o i ss top body ∧
      (Ending.KeepsStops ls → StopsRemain (stopsIn ls) o i ss top body) := by
  obtain ⟨top, body, hentries, hremain⟩ := exists_stopsRemain hs ht hi
  obtain ⟨ls, rs, hl, hr, rfl⟩ := Segment.exists_of_ofProgram hs
  have hsub : ∀ t ∈ Segment.tooled (Segment.split rs), t.2.lines ⊆ rs := fun t hm ↦
    (Segment.lines_infix (Segment.tooled_split rs ▸ hm)).subset
  have hread := Ending.isRead_of_cleanAll (Line.isRead_of_readFrom hl) hr
  refine ⟨ls, top, body, hl, hentries, ?_, hremain _ fun t hm l hmem ↦ ?_, fun hkeeps ↦
    hremain _ fun t hm l hmem ↦ ?_⟩
  · rw [assemble, hentries]
    rfl
  · exact ⟨hread l (hsub t hm hmem), rfl⟩
  · exact ⟨hread l (hsub t hm hmem), hkeeps.stopsIn_eq hl hr (hsub t hm hmem)⟩

section Stopping

def fourStops : Text :=
  "M5\nT1 M6\nM3\nG1 X5 M5\nM3\nG1 X6\nM5\nT2 M6\nM3\nM5\nt1m6\nM3\nG1 Y7 M5 M30".toList

def writtenStops (o : Order Float) (program : Text) : Except LineFault (List Text) :=
  (entries o program).map fun es ↦ (copiesWhere Line.isSpindleStop es).map Copy.text

example : writtenStops twoCells fourStops = .ok ["M5".toList, "G1 Y7.000 M5".toList] := by
  decide +kernel

example : writtenStops { twoCells with sortByTool := true } fourStops =
    .ok ["M5".toList, "G1 X15.000 M5".toList, "M5".toList, "G1 Y7.000 M5".toList, "M5".toList] := by
  decide +kernel

def keepsStops (program : Text) : Bool :=
  match (Line.readAll program : Except LineFault (List (Line Float))),
    (Segment.ofProgram program : Except LineFault (List (Segment Float))) with
  | .ok ls, .ok ss => decide (Ending.KeepsStops ls) && !(Segment.tooled ss).isEmpty
  | _, _ => false

theorem keepsStops_fourStops : keepsStops fourStops = true := by decide +kernel

theorem stopsRemain_assemble_fourStops :
    ∃ (ls : List (Line Float)) (ss : List (Segment Float)) (i : Instance Float),
      Line.readAll fourStops = .ok ls ∧ Segment.ofProgram fourStops = .ok ss ∧
      Segment.tooled ss ≠ [] ∧ i ∈ twoCells.instances.getLast? ∧
      ∀ sort : Bool, ∃ top body,
        entries { twoCells with sortByTool := sort } fourStops = .ok (top ++ body) ∧
        StopsRemain Line.isSpindleStop { twoCells with sortByTool := sort } i ss top body ∧
        StopsRemain (stopsIn ls) { twoCells with sortByTool := sort } i ss top body := by
  have h := keepsStops_fourStops
  unfold keepsStops at h
  split at h
  next ls ss hl hs =>
    rw [Bool.and_eq_true, decide_eq_true_eq, Bool.not_eq_true', List.isEmpty_eq_false_iff] at h
    refine ⟨ls, ss, _, hl, hs, h.2, rfl, fun sort ↦ ?_⟩
    obtain ⟨ls', top, body, hl', hes, -, hstops, hall⟩ :=
      stopsRemain_assemble (o := { twoCells with sortByTool := sort }) hs h.2 rfl
    obtain rfl := Except.ok.inj (hl.symm.trans hl')
    exact ⟨top, body, hes, hstops, hall h.1⟩
  next => cases h

def hiddenStop : Text := "T1 M6\nG1 X1\nM30 (end) M5".toList

def countsWrong (o : Order Float) (program : Text) : Bool :=
  match (Line.readAll program : Except LineFault (List (Line Float))),
    (Segment.ofProgram program : Except LineFault (List (Segment Float))), entries o program with
  | .ok ls, .ok ss, .ok es =>
    match (Segment.tooled ss).getLast? with
    | some t => (copiesWhere (stopsIn ls) es).length ≠
        ((Segment.headLines ss).filter (stopsIn ls)).length + (t.2.lines.filter (stopsIn ls)).length
    | none => false
  | _, _, _ => false

theorem countsWrong_hiddenStop : countsWrong twoCells hiddenStop = true := by decide +kernel

/-- The spindle stops of a program do not all stay where they are to. -/
theorem not_stopsRemain :
    ∃ (ls : List (Line Float)) (ss : List (Segment Float)), Line.readAll hiddenStop = .ok ls ∧
      Segment.ofProgram hiddenStop = .ok ss ∧ Segment.tooled ss ≠ [] ∧
      ∀ i ∈ twoCells.instances.getLast?, ∀ top body,
        entries twoCells hiddenStop = .ok (top ++ body) →
          ¬ StopsRemain (stopsIn ls) twoCells i ss top body := by
  have h := countsWrong_hiddenStop
  unfold countsWrong at h
  split at h
  next ls ss es hl hs hes =>
    split at h
    next t ht =>
      refine ⟨ls, ss, hl, hs, fun hnil ↦ by simp [hnil] at ht, fun i _ top body heq hremain ↦ ?_⟩
      rw [Except.ok.inj (hes.symm.trans heq), hremain.length_copies rfl ht] at h
      simp at h
    next => cases h
  next => cases h

end Stopping

end Assembly

end StepAndRepeat
