import StepAndRepeat.Files.Tree
import StepAndRepeat.Proofs.Attempts
import StepAndRepeat.Proofs.Files.Paths

namespace StepAndRepeat

namespace Path

variable {p : Path}

/-- The path ends in a name, not in two dots. -/
def NamesFile (p : Path) : Prop := p.name ≠ [] ∧ p.name ≠ ['.', '.']

theorem steps_append (root : Text) (ts : List Text) (t : Text) :
    steps ⟨root, ts ++ [t]⟩ = if t = ['.', '.'] then (steps ⟨root, ts⟩).dropLast
      else steps ⟨root, ts⟩ ++ [t] := by
  unfold steps
  rw [List.foldl_append, List.foldl_cons, List.foldl_nil]
  split
  · rw [List.drop_one, ← List.dropLast_reverse]
  · rw [List.reverse_cons]

theorem parent_append (root : Text) (ts : List Text) (t : Text) :
    parent ⟨root, ts ++ [t]⟩ = ⟨root, ts⟩ := by
  rw [parent, List.dropLast_concat]

theorem name_append (root : Text) (ts : List Text) (t : Text) : name ⟨root, ts ++ [t]⟩ = t := by
  rw [name, List.getLast?_concat]
  rfl

theorem steps_eq_of_namesFile (h : p.NamesFile) : p.steps = p.parent.steps ++ [p.name] := by
  obtain ⟨root, parts⟩ := p
  rcases List.eq_nil_or_concat' parts with rfl | ⟨ts, t, rfl⟩
  · exact absurd rfl h.1
  · have hdots := h.2
    rw [name_append] at hdots
    rw [steps_append, if_neg hdots, parent_append, name_append]

theorem steps_of_not_namesFile (hp : p.Proper) (h : ¬ p.NamesFile) : p.steps <+: p.parent.steps := by
  obtain ⟨root, parts⟩ := p
  rcases List.eq_nil_or_concat' parts with rfl | ⟨ts, t, rfl⟩
  · exact List.nil_prefix
  · have ht := (hp.parts t (by simp)).ne_nil
    have hdots : t = ['.', '.'] := by
      by_contra hdots
      rw [NamesFile, name_append] at h
      exact h ⟨ht, hdots⟩
    rw [steps_append, if_pos hdots, parent_append]
    exact List.dropLast_prefix _

end Path

namespace FileTree

variable {name : Text} {steps folders : List Text} {content : List UInt8} {t t' : FileTree}

theorem find?_set (name : Text) (t : FileTree) (es : List (Text × FileTree)) :
    find? name (set name t es) = some t := by
  induction es with
  | nil => exact if_pos rfl
  | cons e es ih =>
    obtain ⟨n, u⟩ := e
    rw [set]
    split
    next h => rw [find?, if_pos h]
    next h => rw [find?, if_neg h, ih]

section Step

variable {s : Text} {ss : List Text} {es : List (Text × FileTree)}

theorem write_found (h : find? s es = some t) : write content (s :: ss) (folder es) =
    (write content ss t).map fun t ↦ folder (set s t es) := by
  rw [write]
  exact h

theorem write_new (h : find? s es = none) :
    write content [s] (folder es) = .ok (folder (set s (file content) es)) := by
  simp only [write, h]

theorem write_missing (h : find? s es = none) (hss : ss ≠ []) :
    write content (s :: ss) (folder es) = .error .notFound := by
  obtain ⟨r, rs, rfl⟩ := List.exists_cons_of_ne_nil hss
  simp only [write, h]

end Step

/-- What is written is read. -/
theorem read_of_write (h : t.write content steps = .ok t') : t'.read steps = .ok content := by
  induction steps generalizing t t' with
  | nil =>
    cases t with
    | file old => cases h; rfl
    | folder es => cases h
  | cons s ss ih =>
    cases t with
    | file old => cases h
    | folder es =>
      have hread (u : FileTree) : read (s :: ss) (folder (set s u es)) = read ss u := by
        rw [read, at?, find?_set]
        rfl
      cases hs : find? s es with
      | some u =>
        rw [write_found hs] at h
        obtain ⟨u', hu, rfl⟩ := map_eq_ok.1 h
        rw [hread, ih hu]
      | none =>
        by_cases hss : ss = []
        · subst hss
          rw [write_new hs] at h
          cases h
          exact hread _
        · rw [write_missing hs hss] at h
          cases h

/-- The steps lead through folders, there or not, to a file or to nothing. -/
def Open : List Text → FileTree → Prop
  | [], file _ => True
  | [], folder _ => False
  | _ :: _, file _ => False
  | s :: ss, folder es => ∀ t, find? s es = some t → Open ss t

theorem open_empty (h : steps ≠ []) : Open steps empty := by
  obtain ⟨s, ss, rfl⟩ := List.exists_cons_of_ne_nil h
  intro t ht
  cases ht

theorem exists_write_file_iff (content : List UInt8) {es : List (Text × FileTree)} :
    (∃ t', write content [name] (folder es) = .ok t') ↔ Open [name] (folder es) := by
  cases hname : find? name es with
  | none =>
    refine ⟨fun _ t ht ↦ ?_, fun _ ↦ ⟨_, write_new hname⟩⟩
    rw [hname] at ht
    cases ht
  | some u =>
    have hopen : Open [name] (folder es) ↔ Open [] u := by simp [Open, hname]
    rw [hopen, write_found hname]
    cases u with
    | file old => exact ⟨fun _ ↦ trivial, fun _ ↦ ⟨_, rfl⟩⟩
    | folder us => exact iff_of_false (by rintro ⟨_, ⟨⟩⟩) id

theorem exists_write_iff : (∃ t₁ t₂, t.makeFolder folders = .ok t₁ ∧
    t₁.write content (folders ++ [name]) = .ok t₂) ↔ Open (folders ++ [name]) t := by
  induction folders generalizing t with
  | nil =>
    cases t with
    | file old => exact iff_of_false (by rintro ⟨_, _, ⟨⟩, _⟩) id
    | folder es =>
      rw [List.nil_append, ← exists_write_file_iff content]
      exact ⟨fun ⟨_, t₂, h, hwrite⟩ ↦ by cases h; exact ⟨t₂, hwrite⟩,
        fun ⟨t₂, hwrite⟩ ↦ ⟨_, t₂, rfl, hwrite⟩⟩
  | cons s ss ih =>
    cases t with
    | file old => exact iff_of_false (by rintro ⟨_, _, ⟨⟩, _⟩) id
    | folder es =>
      have hopen : Open (s :: (ss ++ [name])) (folder es) ↔
          Open (ss ++ [name]) ((find? s es).getD empty) := by
        cases hs : find? s es with
        | none =>
          have hall : Open (s :: (ss ++ [name])) (folder es) := by
            intro u hu
            rw [hs] at hu
            cases hu
          exact iff_of_true hall (open_empty (by simp))
        | some u => simp [Open, hs]
      rw [List.cons_append, hopen, ← ih]
      constructor
      · rintro ⟨t₁, t₂, hmake, hwrite⟩
        obtain ⟨u₁, hu₁, rfl⟩ := map_eq_ok.1 hmake
        rw [write_found (find?_set s u₁ es)] at hwrite
        obtain ⟨u₂, hu₂, -⟩ := map_eq_ok.1 hwrite
        exact ⟨u₁, u₂, hu₁, hu₂⟩
      · rintro ⟨u₁, u₂, hu₁, hu₂⟩
        have hwrite : write content (s :: (ss ++ [name])) (folder (set s u₁ es)) =
            .ok (folder (set s u₂ (set s u₁ es))) := by
          rw [write_found (find?_set s u₁ es), hu₂]
          rfl
        exact ⟨_, _, map_eq_ok.2 ⟨u₁, hu₁, rfl⟩, hwrite⟩

theorem write_of_makeFolder (h : t.makeFolder folders = .ok t') (hs : steps <+: folders) :
    t'.write content steps = .error .isFolder := by
  have hroot {t t' : FileTree} {folders : List Text} (h : t.makeFolder folders = .ok t') :
      t'.write content [] = .error .isFolder := by
    cases folders with
    | nil =>
      cases t with
      | file old => cases h
      | folder es => cases h; rfl
    | cons s ss =>
      cases t with
      | file old => cases h
      | folder es =>
        obtain ⟨u, -, rfl⟩ := map_eq_ok.1 h
        rfl
  induction folders generalizing steps t t' with
  | nil =>
    rw [List.prefix_nil.1 hs]
    exact hroot h
  | cons s ss ih =>
    cases steps with
    | nil => exact hroot h
    | cons r rs =>
      obtain ⟨rfl, hrs⟩ := List.cons_prefix_cons.1 hs
      cases t with
      | file old => cases h
      | folder es =>
        obtain ⟨u, hu, rfl⟩ := map_eq_ok.1 h
        rw [write_found (find?_set r u es), ih hu hrs]
        rfl

/-- A file can stand at the path: it ends in a name, no file stands in the place of its folders,
and no folder in its own. -/
def HasPlace (t : FileTree) (path : Text) : Prop :=
  (Path.ofText path).NamesFile ∧ Open (Path.ofText path).steps t

/-- A file is written, its folders made before, just if there is a place for it. -/
theorem exists_writeAt_iff {path : Text} :
    (∃ t₁ t₂, t.makeFolderAt (Path.ofText path).parent.text = .ok t₁ ∧
      t₁.writeAt (Path.ofText path).text content = .ok t₂) ↔ t.HasPlace path := by
  have hproper := Path.proper_ofText path
  simp only [makeFolderAt, writeAt, mapError_eq_ok, Path.ofText_text hproper,
    Path.ofText_text hproper.parent]
  by_cases hname : (Path.ofText path).NamesFile
  · rw [HasPlace, Path.steps_eq_of_namesFile hname, exists_write_iff]
    exact (and_iff_right hname).symm
  · refine iff_of_false ?_ fun h ↦ hname h.1
    rintro ⟨t₁, t₂, hmake, hwrite⟩
    rw [write_of_makeFolder hmake (Path.steps_of_not_namesFile hproper hname)] at hwrite
    cases hwrite

theorem readAt_of_writeAt {path : Text}
    (h : t.writeAt (Path.ofText path).text content = .ok t') : t'.readAt path = .ok content := by
  rw [writeAt, mapError_eq_ok, Path.ofText_text (Path.proper_ofText path)] at h
  rw [readAt, read_of_write h]
  rfl

end FileTree

end StepAndRepeat
