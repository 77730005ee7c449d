import StepAndRepeat.Proofs.Program.Overflow

namespace StepAndRepeat.Phases

variable {α : Type} [Coordinate α] {p : Phases α} {l : Line α}

def lines (p : Phases α) : List (Line α) := p.preamble ++ p.cutting ++ p.postamble

/-- Each phase holds what belongs to it, and begins with what begins it. -/
structure Clean (p : Phases α) : Prop where
  preamble : ∀ l ∈ p.preamble, l.isSpindleStart = false ∧ (l.hasXY = true → l.isMachineMove = true)
  cutting : ∀ l ∈ p.cutting, l.isMachineMove = false ∧ l.isSpindleStop = false
  head_cutting : ∀ l ∈ p.cutting.head?,
    l.isSpindleStart = true ∨ l.hasXY = true ∧ l.isMachineMove = false
  head_postamble : ∀ l ∈ p.postamble.head?, l.isMachineMove = true ∨ l.isSpindleStop = true
  /-- Where nothing is cut, the line that ends the cutting has begun it as well. -/
  head_uncut : p.cutting = [] → ∀ l ∈ p.postamble.head?,
    l.isSpindleStart = true ∨ l.hasXY = true ∧ l.isMachineMove = false

theorem begins_eq_true_iff :
    begins l = true ↔ l.isSpindleStart = true ∨ l.hasXY = true ∧ l.isMachineMove = false := by
  simp [begins]

theorem begins_eq_false_iff :
    begins l = false ↔ l.isSpindleStart = false ∧ (l.hasXY = true → l.isMachineMove = true) := by
  simp [begins]

theorem ends_eq_true_iff : ends l = true ↔ l.isMachineMove = true ∨ l.isSpindleStop = true := by
  simp [ends]

theorem ends_eq_false_iff :
    ends l = false ↔ l.isMachineMove = false ∧ l.isSpindleStop = false := by
  simp [ends]

section Split

variable {ls : List (Line α)}

theorem split_append (ls : List (Line α)) :
    (split ls).preamble ++ (split ls).cutting ++ (split ls).postamble = ls := by
  rw [split, List.append_assoc, List.takeWhile_append_dropWhile, List.takeWhile_append_dropWhile]

theorem not_begins_of_mem_preamble (h : l ∈ (split ls).preamble) : begins l = false := by
  simpa using List.mem_takeWhile_imp h

theorem not_ends_of_mem_cutting (h : l ∈ (split ls).cutting) :
    l.isMachineMove = false ∧ l.isSpindleStop = false :=
  ends_eq_false_iff.1 (by simpa using List.mem_takeWhile_imp h)

theorem begins_of_head (h : l ∈ ((split ls).cutting ++ (split ls).postamble).head?) :
    begins l = true := by
  rw [split, List.takeWhile_append_dropWhile] at h
  have hnot := List.head?_dropWhile_not (fun l : Line α ↦ !begins l) ls
  rw [Option.mem_def.1 h] at hnot
  simpa using hnot

theorem ends_of_head (h : l ∈ (split ls).postamble.head?) : ends l = true := by
  have hnot := List.head?_dropWhile_not (fun l : Line α ↦ !ends l)
    (ls.dropWhile fun l ↦ !begins l)
  rw [split] at h
  rw [Option.mem_def.1 h] at hnot
  simpa using hnot

theorem clean_split (ls : List (Line α)) : (split ls).Clean where
  preamble _ h := begins_eq_false_iff.1 (not_begins_of_mem_preamble h)
  cutting _ h := not_ends_of_mem_cutting h
  head_cutting l h := by
    have hhead : l ∈ ((split ls).cutting ++ (split ls).postamble).head? := by
      rw [List.head?_append, Option.mem_def.1 h]
      rfl
    exact begins_eq_true_iff.1 (begins_of_head hhead)
  head_postamble _ h := ends_eq_true_iff.1 (ends_of_head h)
  head_uncut hnil l h := by
    have hhead : l ∈ ((split ls).cutting ++ (split ls).postamble).head? := by
      rwa [hnil, List.nil_append]
    exact begins_eq_true_iff.1 (begins_of_head hhead)

end Split

section OnePass

/-- Put a line to the phase that it belongs to behind the lines before it. -/
def put (p : Phases α) (l : Line α) : Phases α :=
  if p.postamble ≠ [] ∨ (p.cutting ≠ [] ∨ begins l = true) ∧ ends l = true then
    { p with postamble := p.postamble ++ [l] }
  else if p.cutting ≠ [] ∨ begins l = true then { p with cutting := p.cutting ++ [l] }
  else { p with preamble := p.preamble ++ [l] }

def inOnePass (ls : List (Line α)) : Phases α := ls.foldl put ⟨[], [], []⟩

theorem lines_put (p : Phases α) (l : Line α) : (p.put l).lines = p.lines ++ [l] := by
  unfold put
  split
  next => simp [lines]
  next hpost =>
    have hnil : p.postamble = [] := by
      by_contra h
      exact hpost (.inl h)
    split
    next => simp [lines, hnil]
    next hcut =>
      have hnone : p.cutting = [] := by
        by_contra h
        exact hcut (.inl h)
      simp [lines, hnil, hnone]

omit [Coordinate α] in
theorem mem_head?_concat {ks : List (Line α)} {k : Line α} (h : k ∈ (ks ++ [l]).head?) :
    ks = [] ∧ k = l ∨ k ∈ ks.head? := by
  cases ks with
  | nil => exact .inl ⟨rfl, (Option.some_inj.1 h).symm⟩
  | cons => exact .inr h

/-- A line is put where the phases stay clean. -/
theorem Clean.put (h : p.Clean) (l : Line α) : (p.put l).Clean := by
  unfold Phases.put
  split
  next hpost =>
    refine ⟨h.preamble, h.cutting, h.head_cutting, fun k hk ↦ ?_, fun hnil k hk ↦ ?_⟩
    · rcases mem_head?_concat hk with ⟨hempty, rfl⟩ | hk
      · exact ends_eq_true_iff.1 (hpost.resolve_left (by simpa using hempty)).2
      · exact h.head_postamble k hk
    · rcases mem_head?_concat hk with ⟨hempty, rfl⟩ | hk
      · have hcut := (hpost.resolve_left (by simpa using hempty)).1
        exact begins_eq_true_iff.1 (hcut.resolve_left (by simpa using hnil))
      · exact h.head_uncut hnil k hk
  next hpost =>
    split
    next hcut =>
      have hends : ends l = false := by
        by_contra hends
        exact hpost (.inr ⟨hcut, by simpa using hends⟩)
      refine ⟨h.preamble, fun k hk ↦ ?_, fun k hk ↦ ?_, h.head_postamble, fun hnil ↦ ?_⟩
      · rcases List.mem_append.1 hk with hk | hk
        · exact h.cutting k hk
        · exact List.mem_singleton.1 hk ▸ ends_eq_false_iff.1 hends
      · rcases mem_head?_concat hk with ⟨hempty, rfl⟩ | hk
        · exact begins_eq_true_iff.1 (hcut.resolve_left (by simpa using hempty))
        · exact h.head_cutting k hk
      · simp at hnil
    next hcut =>
      have hbegins : begins l = false := by
        by_contra hbegins
        exact hcut (.inr (by simpa using hbegins))
      refine ⟨fun k hk ↦ ?_, h.cutting, h.head_cutting, h.head_postamble, h.head_uncut⟩
      rcases List.mem_append.1 hk with hk | hk
      · exact h.preamble k hk
      · exact List.mem_singleton.1 hk ▸ begins_eq_false_iff.1 hbegins

theorem clean_inOnePass (ls : List (Line α)) :
    (inOnePass ls).Clean ∧ (inOnePass ls).lines = ls := by
  have hfold (p : Phases α) (hp : p.Clean) :
      (ls.foldl Phases.put p).Clean ∧ (ls.foldl Phases.put p).lines = p.lines ++ ls := by
    induction ls generalizing p with
    | nil => exact ⟨hp, (List.append_nil _).symm⟩
    | cons l ls ih =>
      obtain ⟨hclean, hlines⟩ := ih (p.put l) (hp.put l)
      refine ⟨hclean, ?_⟩
      rw [List.foldl_cons, hlines, lines_put, List.append_assoc, List.singleton_append]
  exact hfold ⟨[], [], []⟩ ⟨by simp, by simp, by simp, by simp, by simp⟩

theorem Clean.split_lines (h : p.Clean) : split p.lines = p := by
  have hpreamble : ∀ l ∈ p.preamble, (!begins l) = true := fun l hl ↦ by
    rw [begins_eq_false_iff.2 (h.preamble l hl)]
    rfl
  have hcutting : ∀ l ∈ p.cutting, (!ends l) = true := fun l hl ↦ by
    rw [ends_eq_false_iff.2 (h.cutting l hl)]
    rfl
  have hrest : ∀ l ∈ (p.cutting ++ p.postamble).head?, (!begins l) = false := by
    intro l hl
    cases hc : p.cutting with
    | nil =>
      rw [hc, List.nil_append] at hl
      rw [begins_eq_true_iff.2 (h.head_uncut hc l hl)]
      rfl
    | cons k ks =>
      have hk : l ∈ p.cutting.head? := by
        rw [hc] at hl ⊢
        exact hl
      rw [begins_eq_true_iff.2 (h.head_cutting l hk)]
      rfl
  have hpostamble : ∀ l ∈ p.postamble.head?, (!ends l) = false := fun l hl ↦ by
    rw [ends_eq_true_iff.2 (h.head_postamble l hl)]
    rfl
  obtain ⟨htake, hdrop⟩ := Text.span_append hpreamble hrest
  obtain ⟨htake', hdrop'⟩ := Text.span_append hcutting hpostamble
  rw [lines, List.append_assoc, split, htake, hdrop, htake', hdrop']

theorem split_eq_inOnePass (ls : List (Line α)) : split ls = inOnePass ls := by
  obtain ⟨hclean, hlines⟩ := clean_inOnePass ls
  have hsplit := hclean.split_lines
  rwa [hlines] at hsplit

end OnePass

/-- The phases divide the lines, each line that ends the program standing there without its end words
or not at all. They are clean, and no other clean phases have their lines; one pass makes them. -/
theorem divides_ofLines {ts : List Text} (h : (Line.readFrom 0 ts >>= ofLines) = .ok p) :
    ∃ ls : List (Line α), Line.readFrom 0 ts = .ok ls ∧
      p.lines.map Line.text = ls.flatMap Ending.left ∧ (∀ l ∈ p.lines, l.IsRead) ∧ p.Clean ∧
      (∀ q : Phases α, q.Clean → q.lines = p.lines → q = p) ∧ p = inOnePass p.lines := by
  cases hls : (Line.readFrom 0 ts : Except LineFault (List (Line α))) with
  | error e =>
    rw [hls] at h
    cases h
  | ok ls =>
    rw [hls] at h
    obtain ⟨rs, hrs, rfl⟩ := exists_of_ofLines h
    have hlines : (split rs).lines = rs := split_append rs
    rw [hlines]
    refine ⟨ls, rfl, Ending.map_text_of_cleanAll hrs,
      Ending.isRead_of_cleanAll (Line.isRead_of_readFrom hls) hrs, clean_split rs, ?_,
      split_eq_inOnePass rs⟩
    rintro q hq rfl
    exact hq.split_lines.symm

section Cut

def fallsInto (ts preamble cutting postamble : List Text) : Bool :=
  match (Line.readFrom 0 ts >>= ofLines : Except LineFault (Phases Float)) with
  | .ok p => p.preamble.map Line.text = preamble && p.cutting.map Line.text = cutting &&
      p.postamble.map Line.text = postamble
  | .error _ => false

example : fallsInto (["M3 G53 Z0", "G1 X1"].map String.toList) [] []
    (["M3 G53 Z0", "G1 X1"].map String.toList) = true := by
  decide +kernel

def interrupted : List Text :=
  ["(setup)", "G53 X0 M30", "M30 (end)", "m4 M2", "(M5)", "G1 X1 M2 Y2", "", "M30 m05 ;x", "G1 X5",
    "N9 M02"].map String.toList

theorem fallsInto_interrupted :
    fallsInto interrupted (["(setup)", "G53 X0"].map String.toList)
      (["m4", "(M5)", "G1 X1 Y2", ""].map String.toList)
      (["m05 ;x", "G1 X5"].map String.toList) = true := by
  decide +kernel

theorem divides_ofLines_interrupted :
    ∃ (p : Phases Float) (ls : List (Line Float)),
      (Line.readFrom 0 interrupted >>= ofLines) = .ok p ∧
      p.cutting.map Line.text = ["m4", "(M5)", "G1 X1 Y2", ""].map String.toList ∧
      Line.readFrom 0 interrupted = .ok ls ∧
      p.lines.map Line.text = ls.flatMap Ending.left ∧ (∀ l ∈ p.lines, l.IsRead) ∧ p.Clean ∧
      (∀ q : Phases Float, q.Clean → q.lines = p.lines → q = p) ∧ p = inOnePass p.lines := by
  have h := fallsInto_interrupted
  unfold fallsInto at h
  split at h
  next p hp =>
    simp only [Bool.and_eq_true, decide_eq_true_eq] at h
    obtain ⟨ls, hls, hrest⟩ := divides_ofLines hp
    exact ⟨p, ls, hp, h.1.2, hls, hrest⟩
  next => cases h

end Cut

end StepAndRepeat.Phases
