import StepAndRepeat.Proofs.Replication.Coverage
import StepAndRepeat.Proofs.Replication.ProgramEnds

namespace StepAndRepeat

variable {α : Type} [Coordinate α]

open Text Line Assembly

theorem Line.tool_of_not_code {i : Nat} {t : Text} {l : Line α} (h : readAt i t = .ok l)
    (hk : kindOf t ≠ .code) : l.tool = none := by
  unfold readAt at h
  split at h
  next hc => exact absurd hc hk
  next => rw [← Except.ok.inj h]

namespace Segment

omit [Coordinate α] in
theorem tool_of_mem_working {ls : List (Line α)} {l : Line α}
    (h : l ∈ ls.filter fun l ↦ !l.isToolChange) : l.tool = none := by
  have ht := (List.mem_filter.1 h).2
  rwa [Bool.not_eq_true', isToolChange, Option.isSome_eq_false_iff, Option.isNone_iff_eq_none] at ht

end Segment

namespace Entry

def calls (e : Entry α) : Option Int :=
  match (readAt 0 e.text : Except LineFault (Line α)) with
  | .ok l => l.tool
  | .error _ => none

theorem calls_eq {e : Entry α} {i : Nat} {l : Line α} (h : readAt i e.text = .ok l) :
    e.calls = l.tool := by
  rw [calls, readAt_zero h]

/-- The text is read, and changes the tool just if the assembly has written it to do so. -/
structure Told (e : Entry α) : Prop where
  read : ∃ l : Line α, readAt 0 e.text = .ok l
  calls : ∀ n, e.calls = some n ↔ e = .note (toolChange n)

theorem told_of_not_code {t : Text} (h : kindOf t ≠ .code) : (note t : Entry α).Told := by
  obtain ⟨l, hl, -⟩ := exists_readAt_of_not_code (α := α) h 0
  refine ⟨⟨l, hl⟩, fun n ↦ ?_⟩
  rw [calls_eq hl, tool_of_not_code hl h]
  refine ⟨fun hn ↦ (by cases hn), fun hn ↦ absurd (kindOf_toolChange n) ?_⟩
  cases hn
  exact h

theorem told_copy {c : Copy α} {l : Line α} (hl : readAt 0 c.text = .ok l)
    (ht : l.tool = none) : (copy c : Entry α).Told := by
  refine ⟨⟨l, hl⟩, fun n ↦ ?_⟩
  rw [calls_eq (e := copy c) hl, ht]
  exact ⟨fun hn ↦ (by cases hn), fun hn ↦ (by cases hn)⟩

end Entry

namespace Offset

theorem exists_readAt_copyText {o : Offset α} {m : Modes} {l : Line α} (hl : l.IsRead)
    (ho : o.copyText m l ≠ l.text → o.WritesDecimals l) :
    ∃ r : Line α, readAt 0 (o.copyText m l) = .ok r ∧ r.tool = l.tool := by
  have hsame : ∃ r : Line α, readAt 0 l.text = .ok r ∧ r.tool = l.tool := ⟨_, readAt_zero hl, rfl⟩
  by_cases hs : o.copyText m l = l.text
  · rwa [hs]
  · rcases o.copyText_cases m l with ⟨-, ht⟩ | ⟨-, hk, ht⟩
    · exact absurd ht hs
    · obtain ⟨r, hr, hshift⟩ := o.exists_lineShifted_shiftText hl hk (ho hs) 0
      exact ⟨r, ht ▸ hr, hshift.tool⟩

end Offset

namespace Stretch

def Told (s : Stretch α) : Prop := ∀ e ∈ s.entries, e.Told

def calls (s : Stretch α) : List Int := s.entries.filterMap Entry.calls

theorem Of.told {s : Stretch α}
    (h : s.Of (fun t ↦ (Entry.note t : Entry α).Told) fun l ↦ l.IsRead ∧ l.tool = none)
    (hb : ∀ b, s = .block b → b.WritesDecimals) : s.Told := by
  intro e he
  cases s with
  | note t =>
    rw [List.mem_singleton.1 he]
    exact h
  | verbatim ls =>
    obtain ⟨l, hl, rfl⟩ := List.mem_map.1 he
    obtain ⟨hr, ht⟩ := h l hl
    exact Entry.told_copy (c := .verbatim l) (readAt_zero hr) ht
  | block b =>
    obtain ⟨c, hc, rfl⟩ := List.mem_map.1 he
    obtain ⟨hl, ps, ks, -, hct⟩ := Block.mem_copies hc
    obtain ⟨hr, ht⟩ := h c.line hl
    have hw := hb b rfl c hc
    rw [hct] at hw
    obtain ⟨r, hread, htool⟩ := Offset.exists_readAt_copyText hr hw
    exact Entry.told_copy (hct ▸ hread) (htool.trans ht)

theorem Told.calls_toolChange {n : Int} (h : (note (toolChange n) : Stretch α).Told) :
    (note (toolChange n) : Stretch α).calls = [n] := by
  have hn := ((h _ (List.mem_singleton_self _)).calls n).2 rfl
  rw [calls, entries, List.filterMap_cons_some hn, List.filterMap_nil]

theorem Told.calls_eq_nil {s : Stretch α} (h : s.Told) (hs : ∀ n, s ≠ note (toolChange n)) :
    s.calls = [] := by
  rw [calls, List.filterMap_eq_nil_iff]
  intro e he
  rw [Option.eq_none_iff_forall_ne_some]
  intro n hn
  have hnote := ((h e he).calls n).1 hn
  cases s with
  | note t =>
    rw [List.mem_singleton.1 he, Entry.note.injEq] at hnote
    exact hs n (by rw [hnote])
  | verbatim ls =>
    obtain ⟨l, -, rfl⟩ := List.mem_map.1 he
    cases hnote
  | block b =>
    obtain ⟨c, -, rfl⟩ := List.mem_map.1 he
    cases hnote

end Stretch

namespace Assembly

theorem IsRemark.calls {t : Text} (h : IsRemark t) : (Stretch.note t : Stretch α).calls = [] := by
  refine Stretch.Told.calls_eq_nil (fun e he ↦ ?_) fun n hn ↦ h.ne_toolChange n (by cases hn; rfl)
  rw [List.mem_singleton.1 he]
  exact Entry.told_of_not_code h.kindOf_ne

def toolCalls (o : Order α) (ts : List (Int × Segment α)) : List Int :=
  if o.sortByTool then (ts.map (·.1)).eraseDups else o.instances.flatMap fun _ ↦ ts.map (·.1)

section Calls

theorem calls_header {ls : List (Line α)} (h : ∀ s ∈ headerStretches ls, s.Told) :
    (headerStretches ls).flatMap Stretch.calls = [] := by
  rw [List.flatMap_eq_nil_iff]
  intro s hs
  refine (h s hs).calls_eq_nil fun n ↦ ?_
  have hof := of_header (fun t ht ↦ IsRemark.ne_toolChange ht n) (fun l (_ : l ∈ ls) ↦ trivial)
    (List.Subset.refl ls) s hs
  rintro rfl
  exact hof rfl

theorem calls_pass {k : Nat} {i : Instance α} {last : Bool} {before : List (Line α)}
    {ss : List ((Int × Segment α) × Bool)} (h : ∀ s ∈ pass k i last before ss, s.Told) :
    (pass k i last before ss).flatMap Stretch.calls = ss.map (·.1.1) := by
  induction ss generalizing before with
  | nil => rfl
  | cons t ss ih =>
    obtain ⟨⟨n, s⟩, lastSegment⟩ := t
    simp only [pass, List.forall_mem_cons] at h
    obtain ⟨hn, hb, -, hrest⟩ := h
    simp only [pass, List.flatMap_cons, hn.calls_toolChange,
      hb.calls_eq_nil fun n h ↦ (by cases h), isRemark_nil.calls, ih hrest, List.map_cons]
    rfl

variable [OneLine α]

theorem calls_standard {o : Order α} {head : List (Line α)} {ts : List (Int × Segment α)}
    (h : ∀ s ∈ standardStretches o head ts, s.Told) :
    (standardStretches o head ts).flatMap Stretch.calls =
      o.instances.flatMap fun _ ↦ ts.map (·.1) := by
  have hpass : ∀ c ∈ cells o, (pass c.2 c.1.1 c.1.2 [] (marked ts)).flatMap Stretch.calls =
      ts.map (·.1) := by
    intro c hc
    have hm := congrArg (List.map Prod.fst) (map_marked ts)
    rw [List.map_map] at hm
    refine (calls_pass fun s hs ↦ ?_).trans hm
    refine h s (List.mem_append_right _ (List.mem_flatMap.2 ⟨c, hc, ?_⟩))
    exact List.mem_append_right _ hs
  have hhead := calls_header fun s hs ↦ h s <|
    List.mem_append_left _ (List.mem_append_right _ hs)
  rw [standardStretches, List.flatMap_append, List.flatMap_append, hhead, List.flatMap_assoc,
    ← map_cells o, List.flatMap_map]
  simp only [List.flatMap_cons, List.flatMap_nil, isRemark_nil.calls,
    (isRemark_constant standardNote (by simp)).calls, (isRemark_changesNote _).calls,
    List.nil_append]
  apply List.flatMap_congr
  intro c hc
  rw [List.flatMap_append, hpass c hc]
  simp [isRemark_nil.calls, (isRemark_partNote _ _).calls, (isRemark_offsetNote _).calls]

theorem calls_sorted {o : Order α} {head : List (Line α)} {ts : List (Int × Segment α)}
    {gs : List (Int × List (Segment α))} (h : ∀ s ∈ sortedStretches o head ts gs, s.Told) :
    (sortedStretches o head ts gs).flatMap Stretch.calls = gs.map (·.1) := by
  have hhead := calls_header fun s hs ↦ h s <|
    List.mem_append_left _ (List.mem_append_right _ hs)
  rw [sortedStretches, List.flatMap_append, List.flatMap_append, hhead, List.flatMap_assoc,
    List.map_eq_flatMap]
  simp only [List.flatMap_cons, List.flatMap_nil, isRemark_nil.calls,
    (isRemark_constant sortedNote (by simp)).calls, (isRemark_toolsNote _).calls,
    (isRemark_reducedNote _ _).calls, List.nil_append]
  apply List.flatMap_congr
  rintro ⟨n, group⟩ hg
  have htold : ∀ s ∈ [Stretch.note (toolNote n), .note (toolChange n), .note []] ++
      (cells o).flatMap (fun c ↦ [.note (toolPartNote n c.1.1), .note (offsetNote c.1.1),
        .block (toolBlock n group c), .note []]), s.Told := fun s hs ↦
    h s (List.mem_append_right _ (List.mem_flatMap.2 ⟨(n, group), hg, hs⟩))
  have hn := htold (.note (toolChange n)) (by simp)
  have hcells : ((cells o).flatMap fun c ↦ [Stretch.note (toolPartNote n c.1.1),
      .note (offsetNote c.1.1), .block (toolBlock n group c), .note []]).flatMap Stretch.calls =
      [] := by
    rw [List.flatMap_assoc, List.flatMap_eq_nil_iff]
    intro c hc
    have hb := htold (.block (toolBlock n group c))
      (List.mem_append_right _ (List.mem_flatMap.2 ⟨c, hc, by simp⟩))
    simp [isRemark_nil.calls, (isRemark_toolPartNote _ _).calls, (isRemark_offsetNote _).calls,
      hb.calls_eq_nil fun n h ↦ (by cases h)]
  rw [List.flatMap_append, hcells]
  simp [(isRemark_toolNote n).calls, isRemark_nil.calls, hn.calls_toolChange]

theorem calls_withoutTools {o : Order α} {p : Phases α}
    (h : ∀ s ∈ withoutToolsStretches o p, s.Told) :
    (withoutToolsStretches o p).flatMap Stretch.calls = [] := by
  rw [List.flatMap_eq_nil_iff]
  intro s hs
  refine (h s hs).calls_eq_nil fun n ↦ ?_
  have hof := of_withoutTools (fun t ht ↦ IsRemark.ne_toolChange ht n)
    (fun l (_ : l ∈ p.preamble ++ p.cutting ++ p.postamble) ↦ trivial) (by simp) (by simp)
    (by simp) s hs
  rintro rfl
  exact hof rfl

end Calls

section Output

variable {o : Order α} {program : Text}

theorem stretches_without_banner {ss : List (Stretch α)} (h : stretches o program = .ok ss) :
    ∃ rest, stretches { o with banner := [] } program = .ok rest ∧
      ss = o.banner.map .note ++ rest := by
  obtain ⟨ls, rs, body, hl, hr, hb, rfl⟩ := stretches_cases h
  have hb' : bodyStretches { o with banner := [] } rs = .ok body := hb
  refine ⟨body ++ [.note programEnd], ?_, List.append_assoc ..⟩
  simp only [stretches, hl, hr, hb', bind, Except.bind]
  rfl

theorem exists_lines_assemble {out : Text} (h : assemble o program = .ok out) :
    ∃ rest vs, assemble { o with banner := [] } program = .ok rest ∧
      lines out = vs ++ lines rest ∧ ∀ v ∈ vs, v = [] ∨ ∃ b ∈ o.banner, v ∈ lines b := by
  obtain ⟨ss, hss⟩ := exists_stretches_of_assemble h
  obtain ⟨rest, hrest, rfl⟩ := stretches_without_banner hss
  have hne : (rest.flatMap Stretch.entries).map Entry.text ≠ [] := fun he ↦ by
    have hlast := getLast?_entries hrest
    rw [he] at hlast
    cases hlast
  have hbanner : ((o.banner.map Stretch.note).flatMap Stretch.entries).map (Entry.text (α := α)) =
      o.banner := by
    rw [List.flatMap_map, List.map_flatMap]
    exact List.flatMap_singleton' _
  rw [assemble, entries_of_stretches hss] at h
  obtain ⟨vs, hvs, hv⟩ := exists_lines_join_append o.banner hne
  refine ⟨_, vs, by rw [assemble, entries_of_stretches hrest]; rfl, ?_, hv⟩
  rw [← Except.ok.inj h, ← hvs, List.flatMap_append]
  dsimp only
  rw [List.map_append, hbanner]

variable [OneLine α]

theorem told_body {rs : List (Line α)} {body : List (Stretch α)} (hrs : ∀ r ∈ rs, r.IsOpen)
    (hT : ∀ (x : α) (n : Int), Coordinate.trunc? x = some n →
      (Entry.note (toolChange n) : Entry α).Told)
    (hw : ∀ b ∈ Stretch.blocks body, b.WritesDecimals) (h : bodyStretches o rs = .ok body) :
    (∀ s ∈ body, s.Told) ∧ body.flatMap Stretch.calls = toolCalls o (Segment.tools rs) := by
  have hN : ∀ t, IsRemark t → (Entry.note t : Entry α).Told := fun t ht ↦
    Entry.told_of_not_code ht.kindOf_ne
  have hL : ∀ l ∈ rs.filter (fun l ↦ !l.isToolChange), l.IsRead ∧ l.tool = none := fun l hl ↦
    ⟨(hrs l (List.mem_of_mem_filter hl)).1.1, Segment.tool_of_mem_working hl⟩
  have hhead : (Segment.cut rs).1 ⊆ rs.filter fun l ↦ !l.isToolChange := by
    rw [Segment.filter_not_isToolChange]
    exact List.subset_append_left _ _
  have htools : ∀ t ∈ Segment.tools rs, (Entry.note (toolChange t.1) : Entry α).Told ∧
      t.2.lines ⊆ rs.filter fun l ↦ !l.isToolChange := by
    intro t ht
    obtain ⟨l, hm, htool⟩ := Segment.exists_tool_of_mem_tools ht
    obtain ⟨x, hx⟩ := (hrs l hm).1.1.exists_trunc? htool
    refine ⟨hT x t.1 hx, ?_⟩
    rw [Segment.filter_not_isToolChange]
    exact fun l hl ↦ List.mem_append_right _ (List.mem_flatMap.2 ⟨t, ht, hl⟩)
  have hblocks : ∀ s ∈ body, ∀ b, s = .block b → b.WritesDecimals := fun s hs b hb ↦
    hw b (Stretch.mem_blocks (hb ▸ hs))
  unfold bodyStretches at h
  split at h
  next he =>
    -- no end words are left, so those taken out once more change nothing
    have hclean : Ending.cleanAll (Segment.cut rs).1 = .ok (Segment.cut rs).1 :=
      Ending.cleanAll_of_open fun l hl ↦ (hrs l ((Segment.cut_isPrefix rs).subset hl)).2
    simp only [Phases.ofLines, hclean, Except.map, Except.ok.injEq] at h
    subst h
    have hp : ∀ ks ⊆ (Segment.cut rs).1, ks ⊆ rs.filter fun l ↦ !l.isToolChange := fun ks hk ↦
      List.Subset.trans hk hhead
    have htold : ∀ s ∈ withoutToolsStretches o (Phases.split (Segment.cut rs).1), s.Told :=
      fun s hs ↦ (of_withoutTools hN hL (hp _ (List.takeWhile_subset _))
        (hp _ ((List.takeWhile_sublist _).trans (List.dropWhile_sublist _)).subset)
        (hp _ ((List.dropWhile_sublist _).trans (List.dropWhile_sublist _)).subset) s hs).told
        (hblocks s hs)
    rw [calls_withoutTools htold, List.isEmpty_iff.1 he, toolCalls]
    exact ⟨htold, by simp⟩
  next =>
    split at h
    next hs =>
      rw [← Except.ok.inj h] at hblocks ⊢
      have htold : ∀ s ∈ sortedStretches o (Segment.cut rs).1 (Segment.tools rs)
          (Segment.group [] (Segment.tools rs)), s.Told := by
        refine fun s hs ↦ (of_sorted hN hL hhead (fun g hg ↦ ⟨?_, fun t ht ↦ ?_⟩) s hs).told
          (hblocks s hs)
        · obtain ⟨t, ht, hn⟩ := Segment.exists_of_mem_group hg
          exact hn ▸ (htools t ht).1
        · obtain ⟨u, hu, rfl⟩ := Segment.mem_of_mem_group hg ht
          exact (htools u hu).2
      refine ⟨htold, ?_⟩
      rw [calls_sorted htold, Segment.map_fst_group, toolCalls, if_pos hs]
      simp
    next hs =>
      rw [← Except.ok.inj h] at hblocks ⊢
      have htold : ∀ s ∈ standardStretches o (Segment.cut rs).1 (Segment.tools rs), s.Told :=
        fun s hs ↦ (of_standard hN hL hhead htools s hs).told (hblocks s hs)
      refine ⟨htold, ?_⟩
      rw [calls_standard htold, toolCalls, if_neg hs]

omit [Coordinate α] [OneLine α] in
theorem toolCalls_nil (o : Order α) : toolCalls o [] = [] := by simp [toolCalls]

theorem toolChange_injective : Function.Injective toolChange := by
  intro n m h
  have hi : ofInt n = ofInt m := List.append_cancel_left h
  have hn := congrArg Numeral.ofText hi
  rw [Numeral.ofText_ofInt, Numeral.ofText_ofInt, Numeral.mk.injEq, decide_eq_decide] at hn
  omega

omit [OneLine α] in
theorem tools_readFrom {es : List (Entry α)} {i : Nat} {ls : List (Line α)}
    (ht : ∀ e ∈ es, e.Told) (hr : readFrom i (es.map Entry.text) = .ok ls) :
    List.Forall₂ (fun e l ↦ l.text = e.text ∧ ∀ n, l.tool = some n ↔ e = .note (toolChange n))
        es ls ∧
      ls.filterMap Line.tool = es.filterMap Entry.calls := by
  have h := List.forall₂_map_left_iff.1 (forall₂_readFrom hr)
  constructor
  · refine ((List.forall₂_and_left es ls).2 ⟨ht, h⟩).imp fun e l ⟨he, _, hl⟩ ↦ ?_
    exact ⟨(readAt_fields hl).2.1, fun n ↦ Entry.calls_eq hl ▸ he.calls n⟩
  · have hmap : ls.map Line.tool = es.map Entry.calls :=
      (map_readFrom (fun hl ↦ (Entry.calls_eq (e := .note _) hl).symm) hr).trans (List.map_map ..)
    have hid := congrArg (List.filterMap id) hmap
    rw [List.filterMap_map, List.filterMap_map] at hid
    exact hid

end Output

section Binary

theorem told_toolChange {x : Float} {n : Int} (h : Coordinate.trunc? x = some n) :
    (Entry.note (toolChange n) : Entry Float).Told := by
  refine ⟨⟨_, readAt_toolChange h 0⟩, fun m ↦ ?_⟩
  rw [Entry.calls_eq (e := .note (toolChange n)) (readAt_toolChange h 0), Entry.note.injEq,
    toolChange_injective.eq_iff]
  exact Option.some_inj

theorem told_programEnd : (Entry.note programEnd : Entry Float).Told := by
  refine ⟨⟨_, readAt_programEnd 0⟩, fun m ↦ ?_⟩
  rw [Entry.calls_eq (e := .note programEnd) (readAt_programEnd 0)]
  exact ⟨fun h ↦ (by cases h), fun h ↦ (by cases h)⟩

theorem told_stretches {o : Order Float} {program : Text} {ss : List (Stretch Float)}
    (hb : o.banner = []) (h : stretches o program = .ok ss)
    (hc : ∀ t ∈ lines program, kindOf t = .code → Ending.ClearEnds Float (LinePart.ofLine t))
    (hw : ∀ b ∈ Stretch.blocks ss, b.WritesDecimals) :
    ∃ segs, Segment.ofProgram program = .ok segs ∧ (∀ e ∈ ss.flatMap Stretch.entries, e.Told) ∧
      (ss.flatMap Stretch.entries).filterMap Entry.calls = toolCalls o (Segment.tooled segs) := by
  obtain ⟨ls, rs, body, hl, hr, hbody, rfl⟩ := stretches_cases h
  rw [hb, List.map_nil, List.nil_append] at hw ⊢
  obtain ⟨htold, hcalls⟩ := told_body (isOpen_of_cleanAll hl hc hr) (fun _ _ ↦ told_toolChange)
    (fun b hm ↦ hw b (by simp [hm])) hbody
  have hend : (Entry.note programEnd : Entry Float).calls = none :=
    Entry.calls_eq (e := .note programEnd) (readAt_programEnd 0)
  refine ⟨Segment.split rs, ?_, fun e he ↦ ?_, ?_⟩
  · simp [Segment.ofProgram, hl, hr, bind, Except.bind, pure, Except.pure]
  · rw [List.flatMap_append, List.mem_append] at he
    rcases he with he | he
    · obtain ⟨s, hs, he⟩ := List.mem_flatMap.1 he
      exact htold s hs e he
    · rw [List.mem_singleton.1 he]
      exact told_programEnd
  · rw [Segment.tooled_split, ← hcalls, List.flatMap_append, List.filterMap_append,
      List.filterMap_flatMap, List.flatMap_singleton, Stretch.entries,
      List.filterMap_cons_none hend, List.filterMap_nil, List.append_nil]
    rfl

/-- The tool changes of an assembled program are the lines that are written as such: one for each
tool segment and instance, or one for each tool when the program is sorted by tool. -/
theorem toolChanges_assemble {o : Order Float} {program out : Text}
    (ho : assemble o program = .ok out)
    (hc : ∀ t ∈ lines program, kindOf t = .code → Ending.ClearEnds Float (LinePart.ofLine t))
    (hb : ∀ t ∈ o.banner, ∀ u ∈ lines t, kindOf u ≠ .code)
    (hw : ∀ bs, blocks o program = .ok bs → ∀ b ∈ bs, b.FiniteSums) :
    ∃ (ss : List (Segment Float)) (es : List (Entry Float)) (top ls : List (Line Float)),
      Segment.ofProgram program = .ok ss ∧ entries { o with banner := [] } program = .ok es ∧
      readAll out = .ok (top ++ ls) ∧ (∀ l ∈ top, l.isToolChange = false) ∧
      List.Forall₂ (fun e l ↦ l.text = e.text ∧ ∀ n, l.tool = some n ↔ e = .note (toolChange n))
        es ls ∧
      (top ++ ls).filterMap Line.tool = toolCalls o (Segment.tooled ss) ∧
      (Segment.tooled ss = [] → ∀ l ∈ top ++ ls, l.isToolChange = false) := by
  obtain ⟨all, hall⟩ := exists_stretches_of_assemble ho
  obtain ⟨ss, hss, hbanner⟩ := stretches_without_banner hall
  have hwrites : ∀ b ∈ Stretch.blocks ss, b.WritesDecimals := by
    refine fun b hm ↦ (hw _ (by rw [blocks, hall]; rfl) b ?_).writesDecimals
    rw [hbanner, Stretch.blocks_append, Stretch.blocks_map_note]
    exact hm
  obtain ⟨segs, hsegs, htold, hcalls⟩ := told_stretches rfl hss hc hwrites
  obtain ⟨rest, vs, hrest, hlines, hvs⟩ := exists_lines_assemble ho
  have hentries : lines rest = (ss.flatMap Stretch.entries).map Entry.text := by
    obtain ⟨ts, hts, hopen⟩ := exists_isOpen hss (fun _ _ ↦ runsOn_toolChange) hc (by simp)
      fun bs hbs b hm ↦ hwrites b (by
        rw [blocks, hss] at hbs
        rwa [Except.ok.inj hbs])
    exact lines_assemble hrest hss (unbroken_of_entries hts hopen)
  have hnocode : ∀ v ∈ vs, kindOf v ≠ .code := by
    intro v hv
    rcases hvs v hv with rfl | ⟨t, ht, hv⟩
    · decide
    · exact hb t ht v hv
  obtain ⟨top, htop⟩ : ∃ top : List (Line Float), readFrom 0 vs = .ok top :=
    exists_readFrom_of_forall
      (fun v hv ↦ (exists_readAt_of_not_code (hnocode v hv) 0).imp fun _ h ↦ h.1) 0
  have hreads : ∀ t ∈ (ss.flatMap Stretch.entries).map Entry.text,
      ∃ l : Line Float, readAt 0 t = .ok l := by
    intro t ht
    obtain ⟨e, he, rfl⟩ := List.mem_map.1 ht
    exact (htold e he).read
  obtain ⟨outs, houts⟩ := exists_readFrom_of_forall hreads (0 + vs.length)
  have hplain : ∀ l ∈ top, l.tool = none := fun l hm ↦ by
    obtain ⟨t, ht, j, hj⟩ := exists_text_of_mem htop hm
    exact tool_of_not_code hj (hnocode t ht)
  obtain ⟨hpairs, hnumbers⟩ := tools_readFrom htold houts
  have hcalled : (top ++ outs).filterMap Line.tool = toolCalls o (Segment.tooled segs) := by
    rw [List.filterMap_append, List.filterMap_eq_nil_iff.2 hplain, List.nil_append, hnumbers]
    exact hcalls
  refine ⟨segs, _, top, outs, hsegs, entries_of_stretches hss, ?_, fun l hm ↦ ?_, hpairs, hcalled,
    fun hnone l hm ↦ ?_⟩
  · rw [readAll, hlines, hentries]
    exact readFrom_append htop houts
  · rw [isToolChange, hplain l hm]
    rfl
  · rw [hnone, toolCalls_nil, List.filterMap_eq_nil_iff] at hcalled
    rw [isToolChange, hcalled l hm]
    rfl

def alternating : Text :=
  "G21\nT1 M6\nG1 X5 M2 (side)\nT2 M6\nG1 Y1\nt01m6\nG0X2\nM30".toList

def bannered : Order Float :=
  { twoCells with sortByTool := true, banner := ["(Two cells)\n(by tool)".toList] }

def toldTools (o : Order Float) (program : Text) : Option (List Int) :=
  match assemble o program, blocks o program, Segment.ofProgram program with
  | .ok _, .ok bs, .ok ss =>
    if (∀ t ∈ lines program, kindOf t = .code → Ending.ClearEnds Float (LinePart.ofLine t)) ∧
        (∀ t ∈ o.banner, ∀ u ∈ lines t, kindOf u ≠ .code) ∧ ∀ b ∈ bs, b.FiniteSums then
      some (toolCalls o (Segment.tooled ss))
    else none
  | _, _, _ => none

theorem toldTools_alternating : toldTools bannered alternating = some [1, 2] := by
  decide +kernel

theorem toolChanges_assemble_alternating :
    ∃ (out : Text) (es : List (Entry Float)) (top ls : List (Line Float)),
      assemble bannered alternating = .ok out ∧
      entries { bannered with banner := [] } alternating = .ok es ∧
      readAll out = .ok (top ++ ls) ∧ (∀ l ∈ top, l.isToolChange = false) ∧
      List.Forall₂ (fun e l ↦ l.text = e.text ∧ ∀ n, l.tool = some n ↔ e = .note (toolChange n))
        es ls ∧
      (top ++ ls).filterMap Line.tool = [1, 2] := by
  have h := toldTools_alternating
  unfold toldTools at h
  split at h
  next out bs ss hout hbs hss =>
    split at h
    next hclear =>
      obtain ⟨hc, hb, hw⟩ := hclear
      obtain ⟨ss', es, top, ls, hss', hes, hread, htop, hpairs, htools, -⟩ :=
        toolChanges_assemble hout hc hb fun bs' hbs' ↦ by
          rw [hbs, Except.ok.injEq] at hbs'
          exact hbs' ▸ hw
      rw [hss, Except.ok.injEq] at hss'
      rw [← hss', Option.some_inj.1 h] at htools
      exact ⟨out, es, top, ls, hout, hes, hread, htop, hpairs, htools⟩
    next => cases h
  next => cases h

end Binary

end Assembly

end StepAndRepeat
