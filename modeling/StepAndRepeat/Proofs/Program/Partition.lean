import StepAndRepeat.Proofs.Program.Grouping
import StepAndRepeat.Proofs.Program.Numbering
import StepAndRepeat.Proofs.Program.Overflow

namespace StepAndRepeat.Segment

section Runs

variable {α : Type} {rs : List (Line α)} {ss : List (Segment α)}

def kept (rs : List (Line α)) : List (Line α) := rs.filter fun r ↦ !r.isToolChange

/-- A segment is all that stands between a change to its tool and the next change or the end. -/
structure IsRun (rs : List (Line α)) (s : Segment α) (pre : List (Line α)) (change : Line α)
    (post : List (Line α)) : Prop where
  eq_append : rs = pre ++ change :: (s.lines ++ post)
  isToolChange : change.isToolChange = true
  tool : change.tool = s.tool
  head_post : ∀ r ∈ post.head?, r.isToolChange = true

/-- Segments partition lines. -/
structure Partitions (rs : List (Line α)) (ss : List (Segment α)) : Prop where
  flatMap_lines : ss.flatMap (·.lines) = kept rs
  lines_ne_nil : ∀ s ∈ ss, s.lines ≠ []
  no_toolChange : ∀ s ∈ ss, ∀ r ∈ s.lines, r.isToolChange = false
  tail_tooled : ∀ s ∈ ss.tail, s.isHeader = false
  header_iff : (∃ s ∈ ss, s.isHeader = true) ↔ rs.takeWhile (fun r ↦ !r.isToolChange) ≠ []
  header_lines : ∀ s ∈ ss, s.isHeader = true → s.lines = rs.takeWhile fun r ↦ !r.isToolChange
  /-- What precedes a run makes up the segments before it, and what follows it those after it. -/
  exists_run : ∀ before s after, ss = before ++ s :: after → s.isHeader = false →
    ∃ pre change post, IsRun rs s pre change post ∧ before.flatMap (·.lines) = kept pre ∧
      after.flatMap (·.lines) = kept post

/-- Segments are put under their tools: each once, the tools as they are first seen. -/
structure Groups (ss : List (Segment α)) (gs : List (Int × List (Segment α))) : Prop where
  keys : gs.map (·.1) = (ss.filterMap (·.tool)).eraseDups
  eq_filter : ∀ g ∈ gs, g.2 = ss.filter (·.tool = some g.1)
  perm : (gs.flatMap (·.2)).Perm (ss.filter fun s ↦ !s.isHeader)

theorem kept_eq_cut (rs : List (Line α)) :
    kept rs = (cut rs).1 ++ (cut rs).2.flatMap (·.lines) := by
  rw [kept, filter_not_isToolChange, flatMap_lines_tools]

theorem fst_cut (rs : List (Line α)) : (cut rs).1 = rs.takeWhile fun r ↦ !r.isToolChange := by
  induction rs with
  | nil => rfl
  | cons r rs ih =>
    unfold cut
    cases hr : r.tool with
    | none => rw [List.takeWhile_cons_of_pos (by simp [Line.isToolChange, hr]), ← ih]
    | some n => rw [List.takeWhile_cons_of_neg (by simp [Line.isToolChange, hr])]

/-- What follows the lines before the first tool change makes up the segments. -/
theorem kept_dropWhile (rs : List (Line α)) :
    kept (rs.dropWhile fun r ↦ !r.isToolChange) = (cut rs).2.flatMap (·.lines) := by
  have htake : kept (rs.takeWhile fun r ↦ !r.isToolChange) = (cut rs).1 := by
    rw [kept, fst_cut, List.filter_eq_self]
    exact fun r hr ↦ List.mem_takeWhile_imp (p := fun r : Line α ↦ !r.isToolChange) hr
  have hkept := kept_eq_cut rs
  have happend : kept rs = kept (rs.takeWhile fun r ↦ !r.isToolChange) ++
      kept (rs.dropWhile fun r ↦ !r.isToolChange) := by
    rw [kept, kept, kept, ← List.filter_append, List.takeWhile_append_dropWhile]
  rw [happend, htake] at hkept
  exact List.append_cancel_left hkept

theorem isToolChange_head_dropWhile {r : Line α}
    (h : r ∈ (rs.dropWhile fun r ↦ !r.isToolChange).head?) : r.isToolChange = true := by
  have hnot := List.head?_dropWhile_not (fun r : Line α ↦ !r.isToolChange) rs
  rw [Option.mem_def.1 h] at hnot
  simpa using hnot

theorem isHeader_of_mem_segments {s : Segment α} (h : s ∈ (cut rs).2.flatMap close) :
    s.isHeader = false := by
  obtain ⟨t, ht, hs⟩ := List.mem_flatMap.1 h
  rw [(mem_close.1 hs).1, isHeader, Option.isNone_eq_false_iff]
  exact tool_of_mem_cut ht

/-- The first segment runs from the first tool change to the next. -/
theorem isRun_first {r : Line α} (hr : r.isToolChange = true) :
    IsRun (r :: rs) ⟨r.tool, (cut rs).1⟩ [] r (rs.dropWhile fun r ↦ !r.isToolChange) where
  eq_append := by rw [List.nil_append, fst_cut, List.takeWhile_append_dropWhile]
  isToolChange := hr
  tool := rfl
  head_post _ h := isToolChange_head_dropWhile h

theorem IsRun.cons {s : Segment α} {pre post : List (Line α)} {change : Line α}
    (h : IsRun rs s pre change post) (r : Line α) : IsRun (r :: rs) s (r :: pre) change post where
  eq_append := by rw [h.eq_append, List.cons_append]
  isToolChange := h.isToolChange
  tool := h.tool
  head_post := h.head_post

theorem exists_isRun {before after : List (Segment α)} {s : Segment α}
    (h : (cut rs).2 = before ++ s :: after) :
    ∃ pre change post, IsRun rs s pre change post ∧
      (cut rs).1 ++ before.flatMap (·.lines) = kept pre ∧
      after.flatMap (·.lines) = kept post := by
  induction rs generalizing before with
  | nil => simp [cut] at h
  | cons r rs ih =>
    cases hr : r.tool with
    | none =>
      have hcut : cut (r :: rs) = (r :: (cut rs).1, (cut rs).2) := by rw [cut, hr]
      rw [hcut] at h ⊢
      obtain ⟨pre, change, post, hrun, hpre, hpost⟩ := ih h
      refine ⟨r :: pre, change, post, hrun.cons r, ?_, hpost⟩
      rw [kept, List.filter_cons_of_pos (by simp [Line.isToolChange, hr]), List.cons_append, hpre,
        kept]
    | some n =>
      have hchange : r.isToolChange = true := by simp [Line.isToolChange, hr]
      have hcut : cut (r :: rs) = ([], ⟨r.tool, (cut rs).1⟩ :: (cut rs).2) := by rw [cut, hr]
      rw [hcut] at h ⊢
      -- The segment is the one this change starts, or one that a later change starts.
      cases before with
      | nil =>
        obtain ⟨rfl, rfl⟩ := List.cons.inj h
        exact ⟨[], r, _, isRun_first hchange, rfl, (kept_dropWhile rs).symm⟩
      | cons t before =>
        obtain ⟨rfl, htail⟩ := List.cons.inj h
        obtain ⟨pre, change, post, hrun, hpre, hpost⟩ := ih htail
        refine ⟨r :: pre, change, post, hrun.cons r, ?_, hpost⟩
        rw [kept, List.filter_cons_of_neg (by simp [hchange]), List.nil_append, List.flatMap_cons,
          hpre, kept]

theorem close_eq_filter (ss : List (Segment α)) :
    ss.flatMap close = ss.filter fun s ↦ !s.lines.isEmpty := by
  induction ss with
  | nil => rfl
  | cons s ss ih =>
    rw [List.flatMap_cons, ih, close]
    cases hs : s.lines.isEmpty <;> simp [hs]

/-- A segment that is kept stood where the segments before it and after it were left out or kept. -/
theorem exists_of_close {ss before after : List (Segment α)} {s : Segment α}
    (h : ss.flatMap close = before ++ s :: after) :
    ∃ bs cs, ss = bs ++ s :: cs ∧ bs.flatMap close = before ∧ cs.flatMap close = after := by
  rw [close_eq_filter, List.filter_eq_append_iff] at h
  obtain ⟨bs, ds, rfl, hbefore, hrest⟩ := h
  obtain ⟨es, cs, rfl, hnone, -, hafter⟩ := List.filter_eq_cons_iff.1 hrest
  refine ⟨bs ++ es, cs, (List.append_assoc _ _ _).symm, ?_, ?_⟩
  · rw [close_eq_filter, List.filter_append, hbefore, List.filter_eq_nil_iff.2 hnone,
      List.append_nil]
  · rw [close_eq_filter, hafter]

theorem isHeader_split {s : Segment α} (hs : s ∈ split rs) (hh : s.isHeader = true) :
    s = ⟨none, (cut rs).1⟩ ∧ (cut rs).1 ≠ [] := by
  rw [split, List.flatMap_cons, List.mem_append] at hs
  rcases hs with hs | hs
  · obtain ⟨rfl, hne⟩ := mem_close.1 hs
    exact ⟨rfl, hne⟩
  · rw [isHeader_of_mem_segments hs] at hh
    cases hh

theorem flatMap_lines_split (rs : List (Line α)) : (split rs).flatMap (·.lines) = kept rs := by
  rw [split, flatMap_close, List.flatMap_cons, kept_eq_cut]

theorem partitions_split (rs : List (Line α)) : Partitions rs (split rs) where
  flatMap_lines := flatMap_lines_split rs
  lines_ne_nil s hs := by
    obtain ⟨t, -, ht⟩ := List.mem_flatMap.1 hs
    obtain ⟨rfl, hne⟩ := mem_close.1 ht
    exact hne
  no_toolChange s hs r hr := by
    have hmem : r ∈ kept rs := by
      rw [← flatMap_lines_split]
      exact List.mem_flatMap.2 ⟨s, hs, hr⟩
    simpa using (List.mem_filter.1 hmem).2
  tail_tooled s hs := by
    rw [split, List.flatMap_cons, close] at hs
    split at hs
    · exact isHeader_of_mem_segments (List.mem_of_mem_tail hs)
    · exact isHeader_of_mem_segments hs
  header_iff := by
    rw [← fst_cut]
    constructor
    · rintro ⟨s, hs, hh⟩
      exact (isHeader_split hs hh).2
    · intro hne
      refine ⟨⟨none, (cut rs).1⟩, ?_, rfl⟩
      rw [split, List.flatMap_cons]
      exact List.mem_append_left _ (mem_close.2 ⟨rfl, hne⟩)
  header_lines s hs hh := by
    rw [(isHeader_split hs hh).1, fst_cut]
  exists_run before s after h hs := by
    obtain ⟨bs, cs, heq, rfl, rfl⟩ := exists_of_close h
    rw [flatMap_close, flatMap_close]
    cases bs with
    | nil =>
      obtain ⟨rfl, -⟩ := List.cons.inj heq
      cases hs
    | cons b bs =>
      obtain ⟨rfl, hcut⟩ := List.cons.inj heq
      obtain ⟨pre, change, post, hrun, hpre, hpost⟩ := exists_isRun hcut
      exact ⟨pre, change, post, hrun, hpre, hpost⟩

end Runs

section Groups

variable {α : Type}

theorem map_fst_tooled (ss : List (Segment α)) :
    (tooled ss).map (·.1) = ss.filterMap (·.tool) := by
  rw [tooled, List.map_filterMap]
  refine List.filterMap_congr fun s _ ↦ ?_
  cases s.tool <;> rfl

theorem map_snd_tooled (ss : List (Segment α)) :
    (tooled ss).map (·.2) = ss.filter fun s ↦ !s.isHeader := by
  induction ss with
  | nil => rfl
  | cons s ss ih =>
    rw [tooled] at ih ⊢
    cases hs : s.tool <;> simp [isHeader, hs, ih]

theorem filter_tooled (n : Int) (ss : List (Segment α)) :
    ((tooled ss).filter (·.1 = n)).map (·.2) = ss.filter (·.tool = some n) := by
  induction ss with
  | nil => rfl
  | cons s ss ih =>
    rw [tooled] at ih ⊢
    cases hs : s.tool with
    | none => simp [hs, ih]
    | some m => by_cases hm : m = n <;> simp [hs, hm, ih]

theorem perm_addTo (n : Int) (s : Segment α) (gs : List (Int × List (Segment α))) :
    ((addTo n s gs).flatMap (·.2)).Perm (gs.flatMap (·.2) ++ [s]) := by
  induction gs with
  | nil => exact .refl _
  | cons g gs ih =>
    unfold addTo
    split
    · rw [List.flatMap_cons, List.flatMap_cons, List.append_assoc, List.append_assoc]
      exact List.perm_append_comm.append_left g.2
    · rw [List.flatMap_cons, List.flatMap_cons, List.append_assoc]
      exact ih.append_left g.2

theorem perm_group (ts : List (Int × Segment α)) (gs : List (Int × List (Segment α))) :
    ((group gs ts).flatMap (·.2)).Perm (gs.flatMap (·.2) ++ ts.map (·.2)) := by
  induction ts generalizing gs with
  | nil => rw [List.map_nil, List.append_nil]; exact .refl _
  | cons t ts ih =>
    have hg : group gs (t :: ts) = group (addTo t.1 t.2 gs) ts := rfl
    rw [hg, List.map_cons, ← List.singleton_append, ← List.append_assoc]
    exact (ih _).trans ((perm_addTo t.1 t.2 gs).append_right _)

theorem groups_byTool (ss : List (Segment α)) : Groups ss (byTool ss) where
  keys := by
    rw [byTool_eq, map_fst_group, map_fst_tooled, List.map_nil, List.nil_append]
    simp
  eq_filter g hg := by
    rw [byTool_eq] at hg
    rw [eq_filter_of_mem_group hg, filter_tooled]
  perm := by
    rw [byTool_eq, ← map_snd_tooled]
    exact perm_group (tooled ss) []

end Groups

section Programs

variable {α : Type} [Coordinate α] {program : Text} {ss : List (Segment α)}

/-- The segments of a program partition its lines, each line that ends the program standing there
without its end words or not at all, and the segments are put under their tools. -/
theorem partitions_ofProgram (h : ofProgram program = .ok ss) :
    ∃ ls rs : List (Line α), Line.readAll program = .ok ls ∧
      rs.map Line.text = ls.flatMap Ending.left ∧ (∀ r ∈ rs, r.IsRead) ∧ Partitions rs ss ∧
      Groups ss (byTool ss) := by
  obtain ⟨ls, rs, hls, hrs, rfl⟩ := exists_of_ofProgram h
  exact ⟨ls, rs, hls, Ending.map_text_of_cleanAll hrs,
    Ending.isRead_of_cleanAll (Line.isRead_of_readFrom hls) hrs, partitions_split rs,
    groups_byTool _⟩

def hiddenChange : Text := "G21\nT1 M6\nT2 M6\nG1 X1\nM30 T3\nG1 X2\nM2\nT2 M6\nM3 M30".toList

def runUnder (program : Text) (tools : List (Option Int)) (keys : List Int) : Bool :=
  match (ofProgram program : Except LineFault (List (Segment Float))) with
  | .ok ss => ss.map (·.tool) = tools && (byTool ss).map (·.1) = keys
  | .error _ => false

theorem runUnder_hiddenChange :
    runUnder hiddenChange [none, some 2, some 3, some 2] [2, 3] = true := by
  decide +kernel

theorem partitions_hiddenChange :
    ∃ (ss : List (Segment Float)) (ls rs : List (Line Float)), ofProgram hiddenChange = .ok ss ∧
      ss.map (·.tool) = [none, some 2, some 3, some 2] ∧ (byTool ss).map (·.1) = [2, 3] ∧
      Line.readAll hiddenChange = .ok ls ∧ rs.map Line.text = ls.flatMap Ending.left ∧
      Partitions rs ss ∧ Groups ss (byTool ss) := by
  have h := runUnder_hiddenChange
  unfold runUnder at h
  split at h
  next ss hss =>
    simp only [Bool.and_eq_true, decide_eq_true_eq] at h
    obtain ⟨ls, rs, hls, htext, -, hparts, hgroups⟩ := partitions_ofProgram hss
    exact ⟨ss, ls, rs, hss, h.1, h.2, hls, htext, hparts, hgroups⟩
  next => cases h

end Programs

end StepAndRepeat.Segment
