import Mathlib.Data.List.Nodup
import StepAndRepeat.Program.Segment

namespace StepAndRepeat.Segment

variable {α : Type}

section Groups

def ofTool (n : Int) (gs : List (Int × List (Segment α))) : List (Segment α) :=
  (gs.filter (·.1 = n)).flatMap (·.2)

theorem mem_keys_addTo {n m : Int} {s : Segment α} {gs : List (Int × List (Segment α))} :
    m ∈ (addTo n s gs).map (·.1) ↔ m = n ∨ m ∈ gs.map (·.1) := by
  induction gs with
  | nil => simp [addTo]
  | cons g gs ih =>
    unfold addTo
    split
    next h =>
      subst h
      simp
    next => simp only [List.map_cons, List.mem_cons, ih]; tauto

theorem nodup_keys_addTo (n : Int) (s : Segment α) {gs : List (Int × List (Segment α))}
    (h : (gs.map (·.1)).Nodup) : ((addTo n s gs).map (·.1)).Nodup := by
  induction gs with
  | nil => simp [addTo]
  | cons g gs ih =>
    rw [List.map_cons, List.nodup_cons] at h
    unfold addTo
    split
    · exact List.nodup_cons.2 h
    next hn =>
      refine List.nodup_cons.2 ⟨?_, ih h.2⟩
      rw [mem_keys_addTo, not_or]
      exact ⟨hn, h.1⟩

theorem ofTool_eq_nil {n : Int} {gs : List (Int × List (Segment α))}
    (h : n ∉ gs.map (·.1)) : ofTool n gs = [] := by
  have hf : gs.filter (·.1 = n) = [] := by
    rw [List.filter_eq_nil_iff]
    intro g hg hn
    exact h (List.mem_map.2 ⟨g, hg, by simpa using hn⟩)
  rw [ofTool, hf, List.flatMap_nil]

theorem ofTool_cons (n : Int) (g : Int × List (Segment α)) (gs : List (Int × List (Segment α))) :
    ofTool n (g :: gs) = (if g.1 = n then g.2 else []) ++ ofTool n gs := by
  unfold ofTool
  by_cases h : g.1 = n <;> simp [h]

theorem ofTool_addTo (n m : Int) (s : Segment α) {gs : List (Int × List (Segment α))}
    (h : (gs.map (·.1)).Nodup) :
    ofTool m (addTo n s gs) = ofTool m gs ++ if n = m then [s] else [] := by
  induction gs with
  | nil =>
    rw [addTo, ofTool_cons]
    simp [ofTool]
  | cons g gs ih =>
    rw [List.map_cons, List.nodup_cons] at h
    unfold addTo
    split
    next hn =>
      rw [ofTool_cons, ofTool_cons]
      by_cases hm : g.1 = m
      · have hnil := ofTool_eq_nil (hm ▸ h.1)
        simp [hm, hnil, ← hn]
      · have hm' : ¬ n = m := fun e ↦ hm (hn.trans e)
        simp [hm, hm']
    next hn =>
      rw [ofTool_cons, ofTool_cons, ih h.2, List.append_assoc]

/-- Tool segments put in entries one after another. -/
def group (gs : List (Int × List (Segment α))) (ts : List (Int × Segment α)) :
    List (Int × List (Segment α)) :=
  ts.foldl (fun gs (n, s) ↦ addTo n s gs) gs

theorem byTool_eq (ss : List (Segment α)) : byTool ss = group [] (tooled ss) := rfl

theorem nodup_keys_group (ts : List (Int × Segment α)) {gs : List (Int × List (Segment α))}
    (h : (gs.map (·.1)).Nodup) : ((group gs ts).map (·.1)).Nodup := by
  induction ts generalizing gs with
  | nil => exact h
  | cons t ts ih => exact ih (nodup_keys_addTo t.1 t.2 h)

theorem ofTool_group (m : Int) (ts : List (Int × Segment α)) {gs : List (Int × List (Segment α))}
    (h : (gs.map (·.1)).Nodup) :
    ofTool m (group gs ts) = ofTool m gs ++ (ts.filter (·.1 = m)).map (·.2) := by
  induction ts generalizing gs with
  | nil => simp [group]
  | cons t ts ih =>
    have hg : group gs (t :: ts) = group (addTo t.1 t.2 gs) ts := rfl
    rw [hg, ih (nodup_keys_addTo t.1 t.2 h), ofTool_addTo t.1 m t.2 h, List.append_assoc]
    by_cases ht : t.1 = m <;> simp [ht]

/-- There is at most one entry for a tool, and it holds the segments of the tool in order. -/
theorem filter_group (n : Int) (ts : List (Int × Segment α)) :
    (group [] ts).filter (·.1 = n) = [] ∧ ts.filter (·.1 = n) = [] ∨
      (group [] ts).filter (·.1 = n) = [(n, (ts.filter (·.1 = n)).map (·.2))] := by
  have hn : ((group [] ts).map (·.1)).Nodup := nodup_keys_group ts (by simp)
  have ho : ofTool n (group [] ts) = (ts.filter (·.1 = n)).map (·.2) := by
    rw [ofTool_group n ts (by simp)]
    simp [ofTool]
  unfold ofTool at ho
  generalize group [] ts = gs at hn ho
  have hs : ((gs.filter (·.1 = n)).map (·.1)).Nodup :=
    hn.sublist (List.filter_sublist.map _)
  have hk : ∀ g ∈ gs.filter (·.1 = n), g.1 = n := fun g hg ↦ by
    simpa using (List.mem_filter.1 hg).2
  generalize gs.filter (·.1 = n) = fs at hs ho hk
  match fs with
  | [] =>
    left
    exact ⟨rfl, by simpa using ho.symm⟩
  | [g] =>
    right
    have h1 := hk g (by simp)
    have h2 : g.2 = (ts.filter (·.1 = n)).map (·.2) := by simpa using ho
    rw [← h2, ← h1]
  | g :: g' :: gs =>
    have h1 := hk g (by simp)
    have h2 := hk g' (by simp)
    simp [h1, h2] at hs

theorem eq_filter_of_mem_group {ts : List (Int × Segment α)} {g : Int × List (Segment α)}
    (h : g ∈ group [] ts) : g.2 = (ts.filter (·.1 = g.1)).map (·.2) := by
  have hg : g ∈ (group [] ts).filter (·.1 = g.1) := by simp [h]
  rcases filter_group g.1 ts with ⟨hn, -⟩ | hn
  · simp [hn] at hg
  · rw [hn, List.mem_singleton] at hg
    exact congrArg Prod.snd hg

theorem mem_of_mem_group {ts : List (Int × Segment α)} {g : Int × List (Segment α)}
    (h : g ∈ group [] ts) {s : Segment α} (hs : s ∈ g.2) : ∃ t ∈ ts, t.2 = s := by
  rw [eq_filter_of_mem_group h] at hs
  obtain ⟨t, ht, rfl⟩ := List.mem_map.1 hs
  exact ⟨t, (List.mem_filter.1 ht).1, rfl⟩

theorem mem_keys_group {n : Int} {ts : List (Int × Segment α)}
    {gs : List (Int × List (Segment α))} :
    n ∈ (group gs ts).map (·.1) ↔ n ∈ gs.map (·.1) ∨ n ∈ ts.map (·.1) := by
  induction ts generalizing gs with
  | nil => simp [group]
  | cons t ts ih =>
    have hg : group gs (t :: ts) = group (addTo t.1 t.2 gs) ts := rfl
    rw [hg, ih, mem_keys_addTo, List.map_cons, List.mem_cons]
    tauto

theorem exists_of_mem_group {ts : List (Int × Segment α)} {g : Int × List (Segment α)}
    (h : g ∈ group [] ts) : ∃ t ∈ ts, t.1 = g.1 := by
  have hm : g.1 ∈ (group [] ts).map (·.1) := List.mem_map_of_mem h
  rw [mem_keys_group, List.map_nil] at hm
  exact List.mem_map.1 (hm.resolve_left List.not_mem_nil)

theorem map_fst_addTo (n : Int) (s : Segment α) (gs : List (Int × List (Segment α))) :
    (addTo n s gs).map (·.1) =
      if n ∈ gs.map (·.1) then gs.map (·.1) else gs.map (·.1) ++ [n] := by
  induction gs with
  | nil => simp [addTo]
  | cons g gs ih =>
    unfold addTo
    split
    next h => simp [h]
    next h =>
      rw [List.map_cons, ih, List.map_cons]
      have hn : n ≠ g.1 := fun e ↦ h e.symm
      by_cases hm : n ∈ gs.map (·.1) <;> simp [hm, hn]

theorem map_fst_group (ts : List (Int × Segment α)) (gs : List (Int × List (Segment α))) :
    (group gs ts).map (·.1) =
      gs.map (·.1) ++ ((ts.map (·.1)).filter (· ∉ gs.map (·.1))).eraseDups := by
  induction ts generalizing gs with
  | nil => simp [group]
  | cons t ts ih =>
    have hg : group gs (t :: ts) = group (addTo t.1 t.2 gs) ts := rfl
    rw [hg, ih, map_fst_addTo, List.map_cons]
    by_cases hm : t.1 ∈ gs.map (·.1)
    · rw [if_pos hm, List.filter_cons_of_neg (by simpa using hm)]
    · rw [if_neg hm, List.filter_cons_of_pos (by simpa using hm), List.eraseDups_cons,
        List.filter_filter, List.append_assoc, List.singleton_append]
      congr 3
      apply List.filter_congr
      intro n _
      rw [Bool.eq_iff_iff]
      simp only [List.mem_append, List.mem_singleton, decide_eq_true_eq, Bool.and_eq_true,
        Bool.not_eq_true', beq_eq_false_iff_ne, not_or]
      exact And.comm

end Groups

section Cut

/-- The tool segments among lines: those between tool changes that hold lines. -/
def tools (ls : List (Line α)) : List (Int × Segment α) := tooled ((cut ls).2.flatMap close)

theorem tool_of_mem_cut {ls : List (Line α)} {s : Segment α} (h : s ∈ (cut ls).2) :
    s.tool.isSome = true := by
  induction ls with
  | nil => simp [cut] at h
  | cons l ls ih =>
    unfold cut at h
    cases hl : l.tool with
    | none => exact ih (by simpa [hl] using h)
    | some n =>
      simp only [hl, List.mem_cons] at h
      rcases h with rfl | h
      · rfl
      · exact ih h

theorem cut_of_no_tool {ls : List (Line α)} (h : ∀ l ∈ ls, l.tool = none) : cut ls = (ls, []) := by
  induction ls with
  | nil => rfl
  | cons l ls ih =>
    simp only [cut, h l (by simp), ih fun k hk ↦ h k (by simp [hk])]

theorem mem_close {s t : Segment α} : t ∈ close s ↔ t = s ∧ s.lines ≠ [] := by
  unfold close
  by_cases h : s.lines = [] <;> simp [h]

theorem tooled_split (ls : List (Line α)) : tooled (split ls) = tools ls := by
  have hc : tooled (close (⟨none, (cut ls).1⟩ : Segment α)) = [] := by
    unfold close
    split <;> rfl
  rw [split, tools, List.flatMap_cons, tooled, List.filterMap_append]
  exact (congrArg (· ++ _) hc).trans (List.nil_append _)

theorem header_split (ls : List (Line α)) :
    (((split ls).find? (·.isHeader)).map (·.lines)).getD [] = (cut ls).1 := by
  have hn : ((cut ls).2.flatMap close).find? (·.isHeader) = none := by
    rw [List.find?_eq_none]
    intro s hs
    obtain ⟨t, ht, hs⟩ := List.mem_flatMap.1 hs
    rw [(mem_close.1 hs).1]
    simp [isHeader, Option.isNone_iff_eq_none, Option.isSome_iff_ne_none.1 (tool_of_mem_cut ht)]
  rw [split, List.flatMap_cons, List.find?_append, hn, Option.or_none]
  unfold close
  by_cases h : (cut ls).1 = [] <;> simp [h, isHeader]

theorem byTool_split (ls : List (Line α)) : byTool (split ls) = group [] (tools ls) := by
  rw [byTool_eq, tooled_split]

theorem cut_sublist (ls : List (Line α)) :
    ((cut ls).1 ++ (cut ls).2.flatMap (·.lines)).Sublist ls := by
  induction ls with
  | nil => simp [cut]
  | cons l ls ih =>
    unfold cut
    cases l.tool with
    | none => exact ih.cons_cons l
    | some n => exact ih.cons l

theorem cut_isPrefix (ls : List (Line α)) : (cut ls).1 <+: ls := by
  induction ls with
  | nil => simp [cut]
  | cons l ls ih =>
    unfold cut
    cases l.tool with
    | none => exact List.cons_prefix_cons.2 ⟨rfl, ih⟩
    | some n => exact List.nil_prefix

theorem lines_infix_of_mem_cut {ls : List (Line α)} {s : Segment α} (h : s ∈ (cut ls).2) :
    s.lines <:+: ls := by
  induction ls with
  | nil => simp [cut] at h
  | cons l ls ih =>
    unfold cut at h
    cases hl : l.tool with
    | none => exact (ih (by simpa [hl] using h)).trans (List.suffix_cons l ls).isInfix
    | some n =>
      simp only [hl, List.mem_cons] at h
      rcases h with rfl | h
      · exact (cut_isPrefix ls).isInfix.trans (List.suffix_cons l ls).isInfix
      · exact (ih h).trans (List.suffix_cons l ls).isInfix

theorem flatMap_lines_close (s : Segment α) : (close s).flatMap (·.lines) = s.lines := by
  unfold close
  by_cases h : s.lines = [] <;> simp [h]

theorem flatMap_close (ss : List (Segment α)) :
    (ss.flatMap close).flatMap (·.lines) = ss.flatMap (·.lines) := by
  rw [List.flatMap_assoc]
  exact List.flatMap_congr fun s _ ↦ flatMap_lines_close s

theorem map_tooled {ss : List (Segment α)} (h : ∀ s ∈ ss, s.tool.isSome = true) :
    (tooled ss).map (·.2) = ss := by
  induction ss with
  | nil => rfl
  | cons s ss ih =>
    obtain ⟨n, hn⟩ := Option.isSome_iff_exists.1 (h s (by simp))
    have hs := ih fun t ht ↦ h t (by simp [ht])
    simpa [tooled, hn] using hs

theorem map_tools (ls : List (Line α)) :
    (tools ls).map (·.2) = (cut ls).2.flatMap close := by
  apply map_tooled
  intro s hs
  obtain ⟨t, ht, hs⟩ := List.mem_flatMap.1 hs
  rw [(mem_close.1 hs).1]
  exact tool_of_mem_cut ht

theorem flatMap_lines_tools (ls : List (Line α)) :
    (tools ls).flatMap (·.2.lines) = (cut ls).2.flatMap (·.lines) := by
  have h : (tools ls).flatMap (·.2.lines) = ((tools ls).map (·.2)).flatMap (·.lines) := by
    rw [List.flatMap_map]
  rw [h, map_tools, flatMap_close]

theorem tools_sublist (ls : List (Line α)) : ((tools ls).flatMap (·.2.lines)).Sublist ls := by
  rw [flatMap_lines_tools]
  exact (List.sublist_append_right _ _).trans (cut_sublist ls)

theorem mem_cut_of_mem_tools {ls : List (Line α)} {t : Int × Segment α} (h : t ∈ tools ls) :
    t.2 ∈ (cut ls).2 := by
  have hm : t.2 ∈ (tools ls).map (·.2) := List.mem_map_of_mem h
  rw [map_tools] at hm
  obtain ⟨s, hs, ht⟩ := List.mem_flatMap.1 hm
  rwa [(mem_close.1 ht).1]

theorem exists_tool_of_mem_cut {ls : List (Line α)} {s : Segment α} (h : s ∈ (cut ls).2) :
    ∃ l ∈ ls, l.tool = s.tool := by
  induction ls with
  | nil => simp [cut] at h
  | cons l ls ih =>
    unfold cut at h
    cases hl : l.tool with
    | none =>
      obtain ⟨k, hk, hs⟩ := ih (by simpa [hl] using h)
      exact ⟨k, List.mem_cons_of_mem l hk, hs⟩
    | some n =>
      simp only [hl, List.mem_cons] at h
      rcases h with rfl | h
      · exact ⟨l, List.mem_cons_self, hl⟩
      · obtain ⟨k, hk, hs⟩ := ih h
        exact ⟨k, List.mem_cons_of_mem l hk, hs⟩

theorem exists_tool_of_mem_tools {ls : List (Line α)} {t : Int × Segment α} (h : t ∈ tools ls) :
    ∃ l ∈ ls, l.tool = some t.1 := by
  obtain ⟨l, hl, ht⟩ := exists_tool_of_mem_cut (mem_cut_of_mem_tools h)
  rw [tools, tooled, List.mem_filterMap] at h
  obtain ⟨s, -, hs⟩ := h
  obtain ⟨n, hn, rfl⟩ := Option.map_eq_some_iff.1 hs
  exact ⟨l, hl, ht.trans hn⟩

theorem lines_infix {ls : List (Line α)} {t : Int × Segment α} (h : t ∈ tools ls) :
    t.2.lines <:+: ls := lines_infix_of_mem_cut (mem_cut_of_mem_tools h)

theorem filter_not_isToolChange (ls : List (Line α)) :
    ls.filter (fun l ↦ !l.isToolChange) = (cut ls).1 ++ (tools ls).flatMap (·.2.lines) := by
  rw [flatMap_lines_tools]
  induction ls with
  | nil => rfl
  | cons l ls ih =>
    unfold cut
    cases hl : l.tool with
    | none => rw [List.filter_cons_of_pos (by simp [Line.isToolChange, hl]), ih]; rfl
    | some n => rw [List.filter_cons_of_neg (by simp [Line.isToolChange, hl]), ih]; rfl

end Cut

end StepAndRepeat.Segment
