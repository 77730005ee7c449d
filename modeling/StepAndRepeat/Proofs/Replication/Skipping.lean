import StepAndRepeat.Proofs.Grid.Numbering
import StepAndRepeat.Proofs.Replication.Untooled

namespace StepAndRepeat

open Text

variable {α : Type}

/-- An assembled program divided at its parts. -/
structure Division (α : Type) where
  opening : List (Entry α)
  /-- The block of each part: its notes and all that is written for it. -/
  parts : List (Instance α × List (Entry α))
  closing : List (Entry α)

namespace Division

def entries (d : Division α) : List (Entry α) := d.opening ++ d.parts.flatMap (·.2) ++ d.closing

def text (d : Division α) : Text := join ['\n'] (d.entries.map Entry.text)

def without (d : Division α) (numbers : List Int) : Division α :=
  { d with parts := d.parts.filter fun q ↦ !numbers.contains q.1.part }

end Division

namespace Assembly

theorem marked_filter {β : Type} {p : β → Bool} {b : β} (bs : List β) (hb : p b = true) :
    marked ((bs ++ [b]).filter p) = (marked (bs ++ [b])).filter fun c ↦ p c.1 := by
  rw [List.filter_append, List.filter_singleton, hb, cond_true, marked_concat, marked_concat,
    List.filter_append, List.filter_singleton, hb, cond_true, List.filter_map]
  rfl

variable [Coordinate α]

def partBlock (o : Order α) (body : Instance α × Bool → List (Entry α)) (c : Instance α × Bool) :
    Instance α × List (Entry α) :=
  (c.1, [.note (partNote o.totalParts c.1), .note (offsetNote c.1)] ++ body c)

def untooledDivision (o : Order α) (p : Phases α) : Division α where
  opening := o.banner.map .note ++ [.note noToolsNote, .blank] ++ Entry.verbatim p.preamble ++
    [.blank]
  parts := (marked o.instances).map (partBlock o fun c ↦ replay c.1 (!c.2) p.cutting ++ [.blank])
  closing := Entry.verbatim p.postamble ++ [.note programEnd]

def standardDivision (o : Order α) (head : List (Line α)) (ts : List (Int × Segment α)) :
    Division α where
  opening := o.banner.map .note ++
    [.note standardNote, .note (changesNote ts.length), .blank] ++ header head
  parts := (marked o.instances).map
    (partBlock o fun c ↦ .blank :: (runs c.1 c.2 {} (marked ts)).flatMap runEntries)
  closing := [.note programEnd]

def division (o : Order α) (program : Text) : Except LineFault (Division α) := do
  let ss ← Segment.ofProgram program
  if (Segment.tooled ss).isEmpty then
    (Phases.ofLines (Segment.headLines ss)).map (untooledDivision o)
  else return standardDivision o (Segment.headLines ss) (Segment.tooled ss)

theorem entries_untooledDivision (o : Order α) (p : Phases α) :
    (untooledDivision o p).entries =
      o.banner.map .note ++ withoutTools o p ++ [.note programEnd] := by
  simp [untooledDivision, Division.entries, withoutTools, partBlock, List.flatMap_map]

theorem entries_standardDivision (o : Order α) (head : List (Line α))
    (ts : List (Int × Segment α)) :
    (standardDivision o head ts).entries =
      o.banner.map .note ++ standard o head ts ++ [.note programEnd] := by
  simp [standardDivision, Division.entries, standard, partBlock, List.flatMap_map]

def RunsInTurn (o : Order α) (program : Text) : Prop :=
  o.sortByTool = true →
    ∀ ss : List (Segment α), Segment.ofProgram program = .ok ss → Segment.tooled ss = []

theorem entries_eq_division {o : Order α} {program : Text} (h : RunsInTurn o program) :
    entries o program = (division o program).map Division.entries := by
  rw [division]
  cases hs : (Segment.ofProgram program : Except LineFault (List (Segment α))) with
  | error e => simp [entries, hs, bind, Except.bind, Except.map]
  | ok ss =>
    cases ht : (Segment.tooled ss).isEmpty with
    | true =>
      rw [entries_of_untooled o hs (List.isEmpty_iff.1 ht)]
      simp only [bind, Except.bind, ht, ↓reduceIte]
      cases Phases.ofLines (Segment.headLines ss) with
      | error e => rfl
      | ok p => exact congrArg Except.ok (entries_untooledDivision o p).symm
    | false =>
      have hsort : o.sortByTool = false := by
        rw [Bool.eq_false_iff]
        intro hsort
        rw [h hsort ss hs] at ht
        cases ht
      have hne : Segment.tooled ss ≠ [] := fun hnil ↦ by simp [hnil] at ht
      rw [entries_of_tooled o hs hne, hsort, if_neg Bool.false_ne_true, ← entries_standardDivision]
      simp only [bind, Except.bind, ht, Bool.false_eq_true, ↓reduceIte]
      rfl

/-- What a part writes depends on its own instance alone, and on whether it is the last. -/
theorem division_skipping {o : Order α} {is : List (Instance α)} {numbers : List Int}
    (h : marked is = (marked o.instances).filter fun c ↦ !numbers.contains c.1.part)
    (program : Text) :
    division { o with instances := is } program = (division o program).map (·.without numbers) := by
  have hparts (body : Instance α × Bool → List (Entry α)) :
      (marked is).map (partBlock o body) =
        ((marked o.instances).map (partBlock o body)).filter fun q ↦
          !numbers.contains q.1.part := by
    rw [h, List.filter_map]
    rfl
  rw [division, division]
  cases hs : (Segment.ofProgram program : Except LineFault (List (Segment α))) with
  | error e => rfl
  | ok ss =>
    cases ht : (Segment.tooled ss).isEmpty with
    | true =>
      simp only [bind, Except.bind, ht, ↓reduceIte]
      cases Phases.ofLines (Segment.headLines ss) with
      | error e => rfl
      | ok p =>
        exact congrArg (fun ps ↦ Except.ok { untooledDivision o p with parts := ps }) (hparts _)
    | false =>
      simp only [bind, Except.bind, ht, Bool.false_eq_true, ↓reduceIte]
      exact congrArg (fun ps ↦ Except.ok
        { standardDivision o (Segment.headLines ss) (Segment.tooled ss) with parts := ps })
        (hparts _)

end Assembly

variable [Coordinate α]

namespace Layout

open Assembly

def order (l : Layout α) (sort : Bool) (banner : List Text) : Order α where
  instances := l.plan
  sortByTool := sort
  totalParts := l.total
  banner := banner

theorem marked_plan {l : Layout α} (h : (l.total : Int) ∉ l.skip) :
    marked l.plan = (marked l.cells).filter fun c ↦ !l.skip.contains c.1.part := by
  obtain ⟨is, i, hi, hn⟩ := l.exists_last_cell
  have hlast : (!l.skip.contains i.part) = true := by simpa [hn] using h
  rw [plan, hi]
  exact marked_filter is hlast

end Layout

namespace Division

open Assembly

/-- The division has a block for each cell of a layout in turn, which begins with the note of its
part and holds no other note of a part. -/
structure Numbered (d : Division α) (l : Layout α) : Prop where
  map_fst : d.parts.map (·.1) = l.cells
  map_part : d.parts.map (·.1.part) = (List.range l.total).map fun (k : Nat) ↦ (k : Int) + 1
  opens : ∀ q ∈ d.parts, ∃ es, q.2 = .note (partNote l.total q.1) :: es ∧
    ∀ e ∈ es, ∀ i : Instance α, e ≠ .note (partNote l.total i)

omit [Coordinate α] in
theorem note_ne_partNote {t : Text} (h : t.take 2 ≠ ['(', 'P']) (total : Int) (i : Instance α) :
    (.note t : Entry α) ≠ .note (partNote total i) := by
  intro he
  obtain rfl := Entry.note.inj he
  exact h rfl

theorem ne_partNote_of_mem_replay {i : Instance α} {dropStops : Bool} {ls : List (Line α)}
    {e : Entry α} (h : e ∈ replay i dropStops ls ++ [.blank]) (total : Int) (j : Instance α) :
    e ≠ .note (partNote total j) := by
  rcases List.mem_append.1 h with h | h
  · obtain ⟨c, -, rfl⟩ := List.mem_map.1 h
    intro he
    cases he
  · rw [List.mem_singleton.1 h]
    exact note_ne_partNote (by decide) total j

omit [Coordinate α] in
theorem ne_partNote_of_mem_runs {rs : List (Int × List (Copy α))} {e : Entry α}
    (h : e ∈ .blank :: rs.flatMap runEntries) (total : Int) (j : Instance α) :
    e ≠ .note (partNote total j) := by
  rcases List.mem_cons.1 h with rfl | h
  · exact note_ne_partNote (by decide) total j
  · obtain ⟨r, -, h⟩ := List.mem_flatMap.1 h
    rw [runEntries, List.cons_append, List.mem_cons] at h
    rcases h with rfl | h
    · have ht : (toolChange r.1).take 2 = ['M', '6'] := rfl
      exact note_ne_partNote (by rw [ht]; decide) total j
    · rcases List.mem_append.1 h with h | h
      · obtain ⟨c, -, rfl⟩ := List.mem_map.1 h
        intro he
        cases he
      · rw [List.mem_singleton.1 h]
        exact note_ne_partNote (by decide) total j

theorem numbered_of_blocks {l : Layout α} {o : Order α} {d : Division α}
    {body : Instance α × Bool → List (Entry α)} (ho : o.totalParts = l.total)
    (hd : d.parts = (marked l.cells).map (partBlock o body))
    (hbody : ∀ c, ∀ e ∈ body c, ∀ i : Instance α, e ≠ .note (partNote l.total i)) :
    d.Numbered l where
  map_fst := by
    rw [hd, List.map_map]
    exact map_marked l.cells
  map_part := by
    rw [← l.map_part_cells, ← map_marked l.cells, hd, List.map_map, List.map_map]
    rfl
  opens q hq := by
    rw [hd] at hq
    obtain ⟨c, -, rfl⟩ := List.mem_map.1 hq
    refine ⟨.note (offsetNote c.1) :: body c, ?_, ?_⟩
    · rw [partBlock, ho]
      rfl
    · intro e he
      rcases List.mem_cons.1 he with rfl | he
      · have ht : (offsetNote c.1).take 2 = ['(', 'O'] := rfl
        exact note_ne_partNote (by rw [ht]; decide) l.total
      · exact hbody c e he

theorem numbered_division {l : Layout α} {sort : Bool} {banner : List Text} {program : Text}
    {d : Division α} (h : division (l.unskipped.order sort banner) program = .ok d) :
    d.Numbered l := by
  have hplan : (l.unskipped.order sort banner).instances = l.cells := l.plan_unskipped
  rw [division] at h
  cases hs : (Segment.ofProgram program : Except LineFault (List (Segment α))) with
  | error e => simp [hs, bind, Except.bind] at h
  | ok ss =>
    cases ht : (Segment.tooled ss).isEmpty with
    | true =>
      simp only [hs, bind, Except.bind, ht, ↓reduceIte] at h
      cases hp : Phases.ofLines (Segment.headLines ss) with
      | error e => simp [hp, Except.map] at h
      | ok p =>
        rw [hp] at h
        obtain rfl := Except.ok.inj h
        refine numbered_of_blocks (o := l.unskipped.order sort banner) rfl
          (congrArg (fun is ↦ (marked is).map _) hplan) fun c e he i ↦ ?_
        exact ne_partNote_of_mem_replay he _ i
    | false =>
      simp only [hs, bind, Except.bind, ht, Bool.false_eq_true, ↓reduceIte] at h
      obtain rfl := Except.ok.inj h
      refine numbered_of_blocks (o := l.unskipped.order sort banner) rfl
        (congrArg (fun is ↦ (marked is).map _) hplan) fun c e he i ↦ ?_
      exact ne_partNote_of_mem_runs he _ i

end Division

namespace Layout

open Assembly

/-- With the last part kept, the program for a layout is the one for all its cells without the
blocks of the parts that are skipped. -/
theorem assemble_skipped (l : Layout α) (sort : Bool) (banner : List Text) (program : Text)
    (hlast : (l.total : Int) ∉ l.skip) (hsort : RunsInTurn (l.order sort banner) program) :
    assemble (l.unskipped.order sort banner) program =
        (division (l.unskipped.order sort banner) program).map Division.text ∧
      assemble (l.order sort banner) program =
        (division (l.unskipped.order sort banner) program).map
          (fun d ↦ (d.without l.skip).text) ∧
      ∀ d, division (l.unskipped.order sort banner) program = .ok d → d.Numbered l := by
  have htext (o : Order α) (h : RunsInTurn o program) :
      assemble o program = (division o program).map Division.text := by
    rw [assemble, entries_eq_division h]
    cases division o program with
    | error e => rfl
    | ok d => rfl
  have hskip : division (l.order sort banner) program =
      (division (l.unskipped.order sort banner) program).map (·.without l.skip) := by
    refine division_skipping (o := l.unskipped.order sort banner) ?_ program
    rw [marked_plan hlast]
    exact congrArg (fun is ↦ (marked is).filter _) l.plan_unskipped.symm
  refine ⟨htext _ hsort, ?_, fun d hd ↦ Division.numbered_division hd⟩
  rw [htext _ hsort, hskip]
  cases division (l.unskipped.order sort banner) program with
  | error e => rfl
  | ok d => rfl

section Diagonal

def diagonal : Layout Float where
  rows := 2
  columns := 2
  spacingX := 20
  spacingY := 15
  skip := [2, 3]
  rows_pos := by decide
  columns_pos := by decide
  spacingX_ok := by decide +kernel
  spacingY_ok := by decide +kernel

def twoTools : Text :=
  "G21\nT1 M6\nM3\nG1 X5\nM5\nG53 G0 Z0\n(Drill)\nT2 M6\nM3\nG1 Y2\nM5\nM30".toList

theorem length_parts_twoTools :
    (division (diagonal.unskipped.order false []) twoTools).map (·.parts.length) = .ok 4 := by
  decide +kernel

theorem assemble_skipped_diagonal :
    ∃ d : Division Float, division (diagonal.unskipped.order false []) twoTools = .ok d ∧
      d.parts.length = 4 ∧
      assemble (diagonal.unskipped.order false []) twoTools = .ok d.text ∧
      assemble (diagonal.order false []) twoTools = .ok (d.without [2, 3]).text ∧
      d.Numbered diagonal := by
  have h := length_parts_twoTools
  cases hd : division (diagonal.unskipped.order false []) twoTools with
  | error e => simp [hd, Except.map] at h
  | ok d =>
    have hsort : RunsInTurn (diagonal.order false []) twoTools := by
      intro hs
      cases hs
    obtain ⟨hfull, hskip, hn⟩ :=
      diagonal.assemble_skipped false [] twoTools (by decide) hsort
    rw [hd] at h hfull hskip
    exact ⟨d, rfl, Except.ok.inj h, hfull, hskip, hn d hd⟩

end Diagonal

end Layout

end StepAndRepeat
