import StepAndRepeat.Extent.Survey
import StepAndRepeat.Proofs.Number.Truncation
import StepAndRepeat.Proofs.Program.Overflow
import StepAndRepeat.Proofs.Replication.Untooled

namespace StepAndRepeat

section Arcs

variable {α : Type} [Circular α]

namespace Survey

end Survey

end Arcs

variable {α : Type} [Coordinate α] {program : Text}

theorem Segment.exists_ofProgram_iff {ls : List (Line α)} (h : Line.readAll program = .ok ls) :
    (∃ ss : List (Segment α), ofProgram program = .ok ss) ↔
      ∀ l ∈ ls, ∀ t ∈ Ending.left l, ¬ Line.Overflows α t := by
  rw [← Ending.exists_cleanAll_iff (Line.isRead_of_readFrom h), ofProgram, h]
  simp only [bind, Except.bind]
  cases Ending.cleanAll ls <;> simp [pure, Except.pure]

theorem Segment.headLines_subset {ss : List (Segment α)} (h : ofProgram program = .ok ss) :
    ∃ ls rs : List (Line α), Line.readAll program = .ok ls ∧ Ending.cleanAll ls = .ok rs ∧
      headLines ss ⊆ rs := by
  obtain ⟨ls, rs, hl, hr, rfl⟩ := exists_of_ofProgram h
  refine ⟨ls, rs, hl, hr, ?_⟩
  rw [headLines, header_split]
  exact (cut_isPrefix rs).subset

theorem Segment.isRead_headLines {ss : List (Segment α)} (h : ofProgram program = .ok ss) :
    ∀ l ∈ headLines ss, l.IsRead := by
  obtain ⟨ls, rs, hl, hr, hsub⟩ := headLines_subset h
  exact fun l hm ↦ Ending.isRead_of_cleanAll (Line.isRead_of_readFrom hl) hr l (hsub hm)

theorem Segment.exists_left_of_mem_headLines {ss : List (Segment α)} {ls : List (Line α)}
    (hls : Line.readAll program = .ok ls) (hss : ofProgram program = .ok ss) {l : Line α}
    (hl : l ∈ headLines ss) : ∃ k ∈ ls, l.text ∈ Ending.left k := by
  obtain ⟨ls', rs, hl', hr, hsub⟩ := headLines_subset hss
  obtain rfl := Except.ok.inj (hls.symm.trans hl')
  have hm : l.text ∈ rs.map Line.text := List.mem_map_of_mem (hsub hl)
  rw [Ending.map_text_of_cleanAll hr] at hm
  exact List.mem_flatMap.1 hm

namespace Assembly

theorem exists_assemble_iff_entries {o : Order α} :
    (∃ out, assemble o program = .ok out) ↔ ∃ es, entries o program = .ok es := by
  rw [assemble, exists_map_eq_ok]

/-- With tool segments an assembly does not fail. Without them, the lines are to be read again once
end words are taken out of what is left of them. -/
theorem exists_assemble_iff {o : Order α} {ss : List (Segment α)}
    (hs : Segment.ofProgram program = .ok ss) :
    (∃ out, assemble o program = .ok out) ↔ (Segment.tooled ss = [] →
      ∀ l ∈ Segment.headLines ss, ∀ t ∈ Ending.left l, ¬ Line.Overflows α t) := by
  rw [exists_assemble_iff_entries]
  by_cases ht : Segment.tooled ss = []
  · rw [entries_of_untooled o hs ht, exists_map_eq_ok,
      Phases.exists_ofLines_iff (Segment.isRead_headLines hs)]
    exact ⟨fun h _ ↦ h, fun h ↦ h ht⟩
  · refine iff_of_true ?_ fun hnone ↦ absurd hnone ht
    exact ⟨_, entries_of_tooled o hs ht⟩

theorem exists_segments_of_assemble {o : Order α} (h : ∃ out, assemble o program = .ok out) :
    ∃ ss : List (Segment α), Segment.ofProgram program = .ok ss := by
  obtain ⟨es, hes⟩ := exists_assemble_iff_entries.1 h
  rw [entries] at hes
  cases hs : (Segment.ofProgram program : Except LineFault (List (Segment α))) with
  | error f => simp [hs, bind, Except.bind] at hes
  | ok ss => exact ⟨ss, rfl⟩

end Assembly

section Passes

variable {α : Type} [Circular α]

end Passes

section OnAxis

end OnAxis

section HugeTool

example : (Line.readAll (hugeTool ++ " M30".toList) : Except LineFault (List (Line Float))).isOk =
      true ∧
    (Segment.ofProgram (hugeTool ++ " M30".toList) : Except LineFault (List (Segment Float))).isOk =
      false := by decide +kernel

end HugeTool

section Binary

theorem Line.Overflows.length_lt {t : Text} (h : Line.Overflows Float t) : 309 < t.length := by
  obtain ⟨w, hw, htrunc⟩ := h.isEndless
  have hmem : w.key ∈ (Word.ofLine t : List (Word Float)).map Word.key :=
    List.mem_map_of_mem (List.mem_of_find?_eq_some hw)
  rw [Word.map_key_ofLine] at hmem
  obtain ⟨p, hp, hkey⟩ := List.mem_filterMap.1 hmem
  cases p with
  | comment u => cases hkey
  | token k =>
    cases k with
    | other c => cases hkey
    | word c n =>
      have hvalue : Coordinate.ofNumeral (.ofText n) = w.value :=
        congrArg Prod.snd (Option.some_inj.1 hkey)
      have hlong : 308 < n.length := Binary.length_of_trunc? (by rw [hvalue]; exact htrunc)
      have htexts := List.mem_map_of_mem (f := LinePart.text) hp
      have hpart := (List.sublist_flatten_of_mem htexts).length_le
      rw [← List.flatMap_def, LinePart.flatMap_text_ofLine] at hpart
      change n.length + 1 ≤ t.length at hpart
      omega

variable {program : Text}

theorem passes_return_of_short (h : ∀ t ∈ Text.lines program, t.length ≤ 309) :
    (∃ ls : List (Line Float), Line.readAll program = .ok ls) ∧
      (∃ ss : List (Segment Float), Segment.ofProgram program = .ok ss) ∧
      ∀ o : Order Float, ∃ out, Assembly.assemble o program = .ok out := by
  have hclear {t : Text} (ht : t.length ≤ 309) : ¬ Line.Overflows Float t := fun hover ↦
    absurd hover.length_lt (by omega)
  obtain ⟨ls, hls⟩ := Line.exists_readAll_iff.2 fun t ht ↦ hclear (h t ht)
  have htexts : ∀ l ∈ ls, l.text.length ≤ 309 := by
    intro l hl
    obtain ⟨t, ht, j, hj⟩ := Line.exists_text_of_mem hls hl
    rw [(Line.readAt_fields hj).2.1]
    exact h t ht
  have hleft : ∀ l ∈ ls, ∀ t ∈ Ending.left l, t.length ≤ 309 := fun l hl t ht ↦
    (Ending.length_le_of_mem_left ht).trans (htexts l hl)
  obtain ⟨ss, hss⟩ :=
    (Segment.exists_ofProgram_iff hls).2 fun l hl t ht ↦ hclear (hleft l hl t ht)
  refine ⟨⟨ls, hls⟩, ⟨ss, hss⟩, fun o ↦ (Assembly.exists_assemble_iff hss).2 fun _ l hl t ht ↦ ?_⟩
  obtain ⟨k, hk, hkl⟩ := Segment.exists_left_of_mem_headLines hls hss hl
  exact hclear ((Ending.length_le_of_mem_left ht).trans (hleft k hk l.text hkl))

end Binary

end StepAndRepeat
