import StepAndRepeat.Proofs.Program.Phases
import StepAndRepeat.Proofs.Replication.Placing

namespace StepAndRepeat

variable {α : Type} [Coordinate α]

namespace Phases

/-- A line that leads in X or Y is cut with, or comes after the cutting. -/
theorem mem_cutting_or_postamble {ls : List (Line α)} {l : Line α} (hl : l ∈ ls)
    (hxy : l.hasXY = true) (hm : l.isMachineMove = false) :
    l ∈ (split ls).cutting ∨ l ∈ (split ls).postamble := by
  rw [← split_append ls, List.append_assoc, List.mem_append, List.mem_append] at hl
  refine hl.resolve_left fun hp ↦ ?_
  have hb := not_begins_of_mem_preamble hp
  simp [begins, hxy, hm] at hb

end Phases

namespace Line

omit [Coordinate α] in
theorem exists_word_of_hasXY {l : Line α} (h : l.hasXY = true) :
    ∃ w ∈ l.words, w.letter = 'X' ∨ w.letter = 'Y' := by
  have hfind : ∀ c, (l.value? c).isSome = true → ∃ w ∈ l.words, w.letter = c := by
    intro c hc
    rw [value?, Option.isSome_map, List.find?_isSome] at hc
    exact hc.imp fun w hw ↦ ⟨hw.1, of_decide_eq_true hw.2⟩
  rcases Bool.or_eq_true_iff.1 h with h | h
  · exact (hfind 'X' h).imp fun w hw ↦ ⟨hw.1, .inl hw.2⟩
  · exact (hfind 'Y' h).imp fun w hw ↦ ⟨hw.1, .inr hw.2⟩

theorem IsRead.isCode_of_hasXY {l : Line α} (hl : l.IsRead) (h : l.hasXY = true) :
    l.isCode = true := by
  rw [isCode_iff, hl.kind_eq]
  by_contra hk
  obtain ⟨w, hw, -⟩ := exists_word_of_hasXY h
  rw [(readAt_fields hl).2.2.2, if_neg hk] at hw
  simp at hw

end Line

namespace Ending

theorem strip_ne_none_of_hasXY {l : Line α} (h : l.hasXY = true) : strip l ≠ none := by
  obtain ⟨w, hw, hl⟩ := Line.exists_word_of_hasXY h
  have hother : (l.words.any fun w ↦ !w.isProgramEnd && w.letter ≠ 'N') = true := by
    rw [List.any_eq_true]
    refine ⟨w, hw, ?_⟩
    rcases hl with hl | hl <;> simp [Word.isProgramEnd, Word.isCode, hl]
  simp only [strip, hother, ↓reduceIte]
  exact Option.some_ne_none _

theorem CleansAll.exists_mem {ls rs : List (Line α)} (h : CleansAll ls rs) {l : Line α}
    (hl : l ∈ ls) (hxy : ∀ r, Cleans l r → r.hasXY = true) : ∃ r ∈ rs, Cleans l r := by
  induction h with
  | nil => simp at hl
  | dropped hc hn _ ih =>
    rcases List.mem_cons.1 hl with rfl | hl
    · rcases clean_cases hn with ⟨-, h⟩ | ⟨-, hs, -⟩ | ⟨t, s, -, -, -, h⟩
      · simp at h
      · exact absurd hs (strip_ne_none_of_hasXY (hxy _ hc))
      · simp at h
    · exact ih hl
  | kept hc _ ih =>
    rcases List.mem_cons.1 hl with rfl | hl
    · exact ⟨_, List.mem_cons_self, hc⟩
    · obtain ⟨r, hr, hlr⟩ := ih hl
      exact ⟨r, List.mem_cons_of_mem _ hr, hlr⟩

end Ending

namespace Assembly

section Copies

variable (p : Line α → Bool) (n : Nat)

/-- The copies among entries of lines that pass a test. -/
def copiesWhere (es : List (Entry α)) : List (Copy α) :=
  (es.flatMap Entry.copied).filter fun c ↦ p c.line

def copiesOf (n : Nat) (es : List (Entry α)) : List (Copy α) :=
  (es.flatMap Entry.copied).filter (·.line.index = n)

omit [Coordinate α] in
theorem copiesOf_eq (es : List (Entry α)) : copiesOf n es = copiesWhere (·.index = n) es := rfl

omit [Coordinate α] in
theorem copiesWhere_append (es fs : List (Entry α)) :
    copiesWhere p (es ++ fs) = copiesWhere p es ++ copiesWhere p fs := by
  rw [copiesWhere, List.flatMap_append, List.filter_append]
  rfl

omit [Coordinate α] in
theorem copiesWhere_note (t : Text) (es : List (Entry α)) :
    copiesWhere p (.note t :: es) = copiesWhere p es := rfl

omit [Coordinate α] in
theorem copiesWhere_flatMap {β : Type} (bs : List β) (f : β → List (Entry α)) :
    copiesWhere p (bs.flatMap f) = bs.flatMap fun b ↦ copiesWhere p (f b) := by
  rw [copiesWhere, List.flatMap_assoc, List.filter_flatMap]
  rfl

omit [Coordinate α] in
theorem copiesWhere_notes (ts : List Text) :
    copiesWhere p (ts.map Entry.note : List (Entry α)) = [] := by
  simp [copiesWhere, Entry.copied, List.flatMap_map]

omit [Coordinate α] in
theorem copiesWhere_copies (cs : List (Copy α)) :
    copiesWhere p (cs.map Entry.copy) = cs.filter fun c ↦ p c.line := by
  rw [copiesWhere, List.flatMap_map]
  exact congrArg _ (List.flatMap_singleton' cs)

omit [Coordinate α] in
theorem copiesWhere_verbatim (ls : List (Line α)) :
    copiesWhere p (Entry.verbatim ls) = (ls.filter p).map Copy.verbatim := by
  have h : Entry.verbatim ls = (ls.map Copy.verbatim).map Entry.copy := by
    rw [List.map_map]
    rfl
  rw [h, copiesWhere_copies, List.filter_map]
  rfl

omit [Coordinate α] in
theorem copiesOf_append (es fs : List (Entry α)) :
    copiesOf n (es ++ fs) = copiesOf n es ++ copiesOf n fs :=
  copiesWhere_append (·.index = n) es fs

omit [Coordinate α] in
theorem copiesOf_notes (ts : List Text) : copiesOf n (ts.map Entry.note : List (Entry α)) = [] :=
  copiesWhere_notes (·.index = n) ts

end Copies

/-- Apart from the notes, a program without tools is its preamble, the cutting phase for each
instance, and its postamble. -/
theorem copiesOf_withoutTools (n : Nat) (o : Order α) (p : Phases α) :
    copiesOf n (withoutTools o p) = (p.preamble.filter (·.index = n)).map Copy.verbatim ++
      (marked o.instances).flatMap (fun c ↦
        (Replay.lines c.1.offset (!c.2) {} p.cutting).2.filter (·.line.index = n)) ++
      (p.postamble.filter (·.index = n)).map Copy.verbatim := by
  have hnil : copiesWhere (·.index = n) ([] : List (Entry α)) = [] := rfl
  simp only [copiesOf_eq, withoutTools, replay, Entry.blank, copiesWhere_append,
    copiesWhere_flatMap, copiesWhere_note, hnil, copiesWhere_verbatim, copiesWhere_copies,
    List.append_nil, List.nil_append]

omit [Coordinate α] in
theorem filter_index_eq_nil {ls : List (Line α)} {n : Nat} (h : ∀ l ∈ ls, l.index ≠ n) :
    ls.filter (·.index = n) = [] := by
  simpa [List.filter_eq_nil_iff] using h

section Written

variable {ps ks : List (Line α)} {r : Line α}
  (hp : (ps ++ r :: ks).Pairwise (·.index < ·.index))
include hp

omit [Coordinate α] in
theorem index_ne_of_pairwise : (∀ l ∈ ps, l.index ≠ r.index) ∧ ∀ l ∈ ks, l.index ≠ r.index := by
  obtain ⟨-, hr, hl⟩ := List.pairwise_append.1 hp
  refine ⟨fun l h ↦ (hl l h r (by simp)).ne, fun l h ↦ ?_⟩
  exact ((List.pairwise_cons.1 hr).1 l h).ne'

omit [Coordinate α] in
theorem filter_index : (ps ++ r :: ks).filter (·.index = r.index) = [r] := by
  obtain ⟨hps, hks⟩ := index_ne_of_pairwise hp
  rw [List.filter_append, filter_index_eq_nil hps, List.filter_cons_of_pos (by simp),
    filter_index_eq_nil hks]
  rfl

theorem filter_index_rewrites (o : Offset α) (m : Modes) :
    (o.rewrites m (ps ++ r :: ks)).filter (·.line.index = r.index) =
      [⟨r, o.copyText (m.through (ps ++ [r])) r⟩] := by
  obtain ⟨hps, hks⟩ := index_ne_of_pairwise hp
  have hn {ls : List (Line α)} (h : ∀ l ∈ ls, l.index ≠ r.index) (m : Modes) :
      (o.rewrites m ls).filter (·.line.index = r.index) = [] := by
    rw [List.filter_eq_nil_iff]
    intro c hc
    simpa using h c.line (o.line_mem hc)
  rw [Offset.rewrites_append, List.filter_append, hn hps, Offset.rewrites,
    List.filter_cons_of_pos (by simp), hn hks, Modes.through_append]
  rfl

theorem filter_index_replay (hc : r.isCode = true) (hs : r.isSpindleStop = false) (o : Offset α)
    (dropStops : Bool) (m : Modes) :
    (Replay.lines o dropStops m (ps ++ r :: ks)).2.filter (·.line.index = r.index) =
      [⟨r, o.copyText (m.through (ps ++ [r])) r⟩] := by
  have hline : ∀ c ∈ o.rewrites m (ps ++ r :: ks), c.line.index = r.index → c.line = r := by
    intro c hm hi
    have hf : c.line ∈ (ps ++ r :: ks).filter (·.index = r.index) :=
      List.mem_filter.2 ⟨o.line_mem hm, by simpa using hi⟩
    rw [filter_index hp] at hf
    exact List.mem_singleton.1 hf
  -- among the lines with this number all are code and none is left out
  have hfilter {cs : List (Copy α)} (hcs : cs ⊆ o.rewrites m (ps ++ r :: ks))
      {q : Copy α → Bool} (hq : ∀ c, c.line = r → q c = true) :
      cs.filter (·.line.index = r.index) = (cs.filter q).filter (·.line.index = r.index) := by
    rw [List.filter_filter]
    refine List.filter_congr fun c hm ↦ ?_
    by_cases hi : c.line.index = r.index
    · simp [hi, hq c (hline c (hcs hm) hi)]
    · simp [hi]
  rw [hfilter (fun c ↦ Replay.mem_lines) (q := fun c ↦ c.line.isCode) fun c h ↦ h ▸ hc,
    Replay.code_lines, ← hfilter (List.Subset.refl _) fun c h ↦ by simp [h, hc, hs],
    filter_index_rewrites hp]

end Written

section Phases

variable (o : Order α) {p : Phases α} {r : Line α}
  (hp : (p.preamble ++ p.cutting ++ p.postamble).Pairwise (·.index < ·.index))
include hp

theorem copiesOf_cutting {ps ks : List (Line α)} (hcut : p.cutting = ps ++ r :: ks)
    (hc : r.isCode = true) (hs : r.isSpindleStop = false) :
    copiesOf r.index (withoutTools o p) = o.instances.map fun i ↦
      ⟨r, i.offset.copyText (Modes.through {} (ps ++ [r])) r⟩ := by
  have hpos : p.preamble ++ p.cutting ++ p.postamble =
      (p.preamble ++ ps) ++ r :: (ks ++ p.postamble) := by simp [hcut]
  obtain ⟨hbefore, hafter⟩ := index_ne_of_pairwise (hpos ▸ hp)
  have hcutting : (ps ++ r :: ks).Pairwise (·.index < ·.index) :=
    hcut ▸ (List.pairwise_append.1 (List.pairwise_append.1 hp).1).2.1
  rw [copiesOf_withoutTools, filter_index_eq_nil fun l hl ↦ hbefore l (List.mem_append_left _ hl),
    filter_index_eq_nil fun l hl ↦ hafter l (List.mem_append_right _ hl), hcut]
  simp only [filter_index_replay hcutting hc hs]
  conv_rhs => rw [← map_marked o.instances, List.map_map]
  simp [List.map_eq_flatMap]

theorem copiesOf_postamble (hr : r ∈ p.postamble) :
    copiesOf r.index (withoutTools o p) = [.verbatim r] := by
  obtain ⟨ps, ks, hpost⟩ := List.append_of_mem hr
  have hpos : p.preamble ++ p.cutting ++ p.postamble =
      (p.preamble ++ p.cutting ++ ps) ++ r :: ks := by simp [hpost]
  obtain ⟨hbefore, -⟩ := index_ne_of_pairwise (hpos ▸ hp)
  have hcutting : ∀ l ∈ p.cutting, l.index ≠ r.index := fun l hl ↦ hbefore l (by simp [hl])
  have hcopies (c : Instance α × Bool) :
      (Replay.lines c.1.offset (!c.2) {} p.cutting).2.filter (·.line.index = r.index) = [] := by
    rw [List.filter_eq_nil_iff]
    intro k hk
    simpa using hcutting k.line (Offset.line_mem _ (Replay.mem_lines hk))
  have hpostamble : (ps ++ r :: ks).Pairwise (·.index < ·.index) :=
    hpost ▸ (List.pairwise_append.1 hp).2.1
  rw [copiesOf_withoutTools, filter_index_eq_nil fun l hl ↦ hbefore l (by simp [hl]), hpost,
    filter_index hpostamble]
  simp [hcopies]

end Phases

variable {o : Order α} {program : Text} {ls rs ms : List (Line α)}

/-- Without tools, the lines between banner and program end are written in their phases. -/
theorem entries_of_no_tool (hl : Line.readAll program = .ok ls) (hr : Ending.cleanAll ls = .ok rs)
    (ht : ∀ r ∈ rs, r.tool = none) (hm : Ending.cleanAll rs = .ok ms) :
    entries o program = .ok (o.banner.map .note ++ withoutTools o (Phases.split ms) ++
      [.note programEnd]) := by
  have hcut := Segment.cut_of_no_tool ht
  have htools : Segment.tools rs = [] := by simp [Segment.tools, hcut, Segment.tooled]
  have hbody : bodyStretches o rs = .ok (withoutToolsStretches o (Phases.split ms)) := by
    simp [bodyStretches, htools, hcut, Phases.ofLines, hm, Except.map]
  have hss : stretches o program = .ok (o.banner.map .note ++
      withoutToolsStretches o (Phases.split ms) ++ [.note programEnd]) := by
    simp only [stretches, hl, hr, hbody, bind, Except.bind]
    rfl
  rw [entries_eq, hss, Except.map, flatMap_entries_framed, flatMap_entries_withoutTools]

/-- A line that leads in X or Y is copied once for each instance, shifted, if it is in the cutting
phase, and is written once as it is otherwise. -/
theorem copiesOf_entries {l : Line α} (hl : Line.readAll program = .ok ls)
    (hr : Ending.cleanAll ls = .ok rs) (ht : ∀ r ∈ rs, r.tool = none)
    (hm : Ending.cleanAll rs = .ok ms) (hmem : l ∈ ls)
    (hk : ∀ r, Ending.Cleans l r → r.hasXY = true ∧ r.isMachineMove = false) :
    ∃ es r, entries o program = .ok es ∧ r ∈ ms ∧ Ending.Cleans l r ∧
      ((∃ ps ks, (Phases.split ms).cutting = ps ++ r :: ks ∧
          copiesOf l.index es = o.instances.map fun i ↦
            ⟨r, i.offset.copyText (Modes.through {} (ps ++ [r])) r⟩) ∨
        r ∈ (Phases.split ms).postamble ∧ copiesOf l.index es = [.verbatim r]) := by
  have hclean := (Ending.cleansAll_of_cleanAll hr).trans_cleanAll hm
  obtain ⟨r, hrm, hlr⟩ := hclean.exists_mem hmem fun r h ↦ (hk r h).1
  obtain ⟨hxy, hg⟩ := hk r hlr
  have hcode : r.isCode = true :=
    (hlr.isSound (Line.isSound_of_readAll hl l hmem)).1.isCode_of_hasXY hxy
  have hp := hclean.pairwise_index (Line.pairwise_index (Line.map_index_readAll hl))
  rw [← Phases.split_append ms] at hp
  refine ⟨_, r, entries_of_no_tool hl hr ht hm, hrm, hlr, ?_⟩
  rw [← hlr.index_eq, copiesOf_append, copiesOf_append, copiesOf_notes, List.nil_append]
  have hend : copiesOf r.index [(.note programEnd : Entry α)] = [] := rfl
  rw [hend, List.append_nil]
  rcases Phases.mem_cutting_or_postamble hrm hxy hg with hmem | hmem
  · obtain ⟨ps, ks, hcut⟩ := List.append_of_mem hmem
    exact .inl ⟨ps, ks, hcut, copiesOf_cutting o hp hcut hcode
      (Phases.not_ends_of_mem_cutting hmem).2⟩
  · exact .inr ⟨hmem, copiesOf_postamble o hp hmem⟩

section Operations

def twoOperations : Text := "M3\nG1 X1 Y1\nM5\nM3\nG1 X5\nM5\nM30".toList

def leadsPlainly (program : Text) (n : Nat) : Bool :=
  match (Line.readAll program : Except LineFault (List (Line Float))) with
  | .ok ls =>
    match Ending.cleanAll ls with
    | .ok rs =>
      match Ending.cleanAll rs with
      | .ok _ => decide (∀ r ∈ rs, r.tool = none) && ls.any fun l ↦
          decide (l.index = n) && !l.isProgramEnd && l.hasXY && !l.isMachineMove
      | .error _ => false
    | .error _ => false
  | .error _ => false

theorem leadsPlainly_twoOperations : leadsPlainly twoOperations 1 = true := by decide +kernel

theorem copiesOf_entries_twoOperations :
    ∃ (ms : List (Line Float)) (es : List (Entry Float)), ∃ r ∈ ms, r.index = 1 ∧
      entries twoCells twoOperations = .ok es ∧
      ((∃ ps ks, (Phases.split ms).cutting = ps ++ r :: ks ∧
          copiesOf 1 es = twoCells.instances.map fun i ↦
            ⟨r, i.offset.copyText (Modes.through {} (ps ++ [r])) r⟩) ∨
        r ∈ (Phases.split ms).postamble ∧ copiesOf 1 es = [.verbatim r]) := by
  have h := leadsPlainly_twoOperations
  unfold leadsPlainly at h
  split at h
  next ls hl =>
    split at h
    next rs hr =>
      split at h
      next ms hm =>
        simp only [Bool.and_eq_true, List.any_eq_true, Bool.not_eq_true', decide_eq_true_eq] at h
        obtain ⟨ht, l, hmem, ⟨⟨hi, he⟩, hxy⟩, hg⟩ := h
        obtain ⟨es, r, hes, hrm, hlr, hcopies⟩ :=
          copiesOf_entries (o := twoCells) hl hr ht hm hmem fun r hlr ↦ by
            rw [hlr.eq_of_plain (.inl he)]
            exact ⟨hxy, hg⟩
        exact ⟨ms, es, r, hrm, hlr.index_eq.trans hi, hes, hi ▸ hcopies⟩
      next => cases h
    next => cases h
  next => cases h

def CopiesCuts (o : Order Float) (program : Text) : Prop :=
  match (Line.readAll program : Except LineFault (List (Line Float))), entries o program with
  | .ok ls, .ok es => (∀ l ∈ ls, l.tool = none) →
      ∀ l ∈ ls, l.IsCut ls → l.hasXY = true → (copiesOf l.index es).length = o.instances.length
  | _, _ => True

instance (o : Order Float) (program : Text) : Decidable (CopiesCuts o program) := by
  unfold CopiesCuts
  split <;> infer_instance

theorem not_copiesCuts : ¬ CopiesCuts twoCells twoOperations := by decide +kernel

end Operations

end Assembly

end StepAndRepeat
