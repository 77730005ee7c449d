import Mathlib.Data.List.Nodup
import StepAndRepeat.Job
import StepAndRepeat.Proofs.Attempts
import StepAndRepeat.Proofs.Grid.Making
import StepAndRepeat.Proofs.Grid.Numbering
import StepAndRepeat.Proofs.Grid.SkipLanguage
import StepAndRepeat.Proofs.Job.Listing

namespace StepAndRepeat

namespace SkipText

variable {t : Text} {cells : Int} {r : Reading}

theorem Reading.accepted_cases (r : Reading) : r.accepted = [] ∨ r.accepted = r.skipped := by
  unfold accepted
  split
  · exact .inl rfl
  · exact .inr rfl

theorem nodup_accepted (h : parse t cells = .ok r) : r.accepted.Nodup := by
  rcases r.accepted_cases with ha | ha
  · simp [ha]
  · rw [ha]
    exact (pairwise_skipped h).imp fun hlt ↦ Int.ne_of_lt hlt

theorem mem_accepted_bounds (h : parse t cells = .ok r) {n : Int} (hn : n ∈ r.accepted) :
    1 ≤ n ∧ n ≤ cells := by
  rcases r.accepted_cases with ha | ha
  · simp [ha] at hn
  · rw [ha] at hn
    exact mem_skipped_bounds h hn

theorem nodup_upTo (m n : Int) : (upTo m n).Nodup := (pairwise_upTo m n).imp Int.ne_of_lt

/-- So many numbers are left of a grid as cells are not skipped. -/
theorem length_filter_upTo {ns : List Int} (hn : ns.Nodup) (hs : ∀ n ∈ ns, 1 ≤ n ∧ n ≤ cells)
    (hc : 0 ≤ cells) :
    (((upTo 1 cells).filter fun n ↦ !ns.contains n).length : Int) = cells - ns.length := by
  have hperm : ((upTo 1 cells).filter fun n ↦ ns.contains n).Perm ns := by
    refine (List.perm_ext_iff_of_nodup ((nodup_upTo 1 cells).filter _) hn).2 fun n ↦ ?_
    simp only [List.mem_filter, mem_upTo, List.contains_iff_mem]
    exact ⟨And.right, fun h ↦ ⟨hs n h, h⟩⟩
  have hlen := List.length_eq_length_filter_add (l := upTo 1 cells) fun n ↦ ns.contains n
  have hall : (upTo 1 cells).length = cells.toNat := by simp [upTo]
  rw [hperm.length_eq, hall] at hlen
  omega

end SkipText

namespace Job

variable {j k : Job} {s : Settings Float} {limits : Limits} {u : Units}

def firstMessage? (j : Job) : Option Text := (Problem.firstBlocking j.problems).map (·.message)

theorem firstMessage?_ne_none : j.firstMessage? ≠ none ↔ Problem.anyBlocking j.problems = true := by
  rw [firstMessage?, ne_eq, Option.map_eq_none_iff, ← ne_eq, Problem.firstBlocking_ne_none]

theorem anyBlocking_envelopeProblems (size : Float × Float) :
    Problem.anyBlocking (envelopeProblems size limits u) =
      decide (limits.x < size.1 ∨ limits.y < size.2) := by
  unfold envelopeProblems
  split
  next h => simp [Problem.anyBlocking, h]
  next h => simp [Problem.anyBlocking, h]

theorem anyBlocking_found (ps : List Problem) (size : Float × Float) (u' : Units) :
    Problem.anyBlocking (ps ++ envelopeProblems size limits u ++ gapProblems s) =
      Problem.anyBlocking (ps ++ envelopeProblems size limits u' ++ gapProblems s) := by
  have hsplit (ps qs : List Problem) : Problem.anyBlocking (ps ++ qs) =
      (Problem.anyBlocking ps || Problem.anyBlocking qs) := List.any_append
  simp only [hsplit, anyBlocking_envelopeProblems]

section Validate

theorem partSize_congr (h : k.extent = j.extent) : k.partSize = j.partSize := by
  rw [partSize, partSize, h]

theorem layout_congr (h : k.extent = j.extent) : k.layout s = j.layout s := by
  rw [layout, layout, partSize_congr h]

theorem gridSize_congr (h : k.extent = j.extent) : k.gridSize s = j.gridSize s := by
  rw [gridSize, gridSize, partSize_congr h]

theorem plan_congr (h : k.extent = j.extent) : k.plan s = j.plan s := by
  rw [plan, plan, layout_congr h]

theorem preview_congr (h : k.extent = j.extent) : k.preview s = j.preview s := by
  rw [preview, preview, partSize_congr h]

/-- Whether settings pass depends on the extent alone, whatever unit lengths are worded in. -/
theorem result_validate_congr (h : k.extent = j.extent) (u' : Units) :
    (k.validate s limits u).result = (j.validate s limits u').result := by
  have hlayout : layoutProblems k s = layoutProblems j s := by
    rw [layoutProblems, layoutProblems, layout_congr h]
  rw [validate, validate, gridSize_congr h, hlayout]
  cases reading s with
  | error f => rfl
  | ok r =>
    cases j.gridSize s with
    | error f => rfl
    | ok size => exact congrArg (fun b ↦ Except.ok !b) (anyBlocking_found _ size u')

theorem firstMessage?_validate {b : Bool} (h : (j.validate s limits u).result = .ok b) :
    (j.validate s limits u).state.firstMessage? ≠ none ↔ b = false := by
  rw [firstMessage?_ne_none]
  unfold validate at h ⊢
  cases hr : reading s with
  | error f => simp [hr] at h
  | ok r =>
    cases hsize : j.gridSize s with
    | error f => simp [hr, hsize] at h
    | ok size =>
      simp only [hr, hsize, Except.ok.injEq] at h
      simp [← h]

end Validate

section Generate

theorem exists_reading_of_skipped {ns : List Int} (h : skipped s = .ok ns) :
    ∃ r, SkipText.parse s.skipText.seen s.total = .ok r ∧ r.accepted = ns := by
  obtain ⟨r, hr, hns⟩ := map_eq_ok.1 h
  exact ⟨r, mapError_eq_ok.1 hr, hns⟩

theorem result_summary {m : Summary} (h : (j.summary s limits u).result = .ok m) :
    (j.validate s limits u).result = .ok m.canGenerate ∧ m.total = s.total ∧
      skipped s = .ok m.skipped ∧ m.generating = s.total - m.skipped.length := by
  unfold summary at h
  dsimp only at h
  split at h
  next => cases h
  next => cases h
  next => cases h
  next valid ns size hvalid hskipped hsize =>
    rw [hvalid, hskipped]
    cases h
    exact ⟨rfl, rfl, rfl, rfl⟩

theorem state_validate (j : Job) (s : Settings Float) (limits : Limits) (u : Units) :
    ∃ ps, (j.validate s limits u).state = { j with problems := ps } := by
  unfold validate
  split
  · exact ⟨_, rfl⟩
  · dsimp only
    split
    · exact ⟨_, rfl⟩
    · exact ⟨_, rfl⟩

/-- The program is withheld just if checking says no; else it is the one assembled from the plan. -/
theorem result_generate {made : Option Text} (h : (j.generate s limits).result = .ok made) :
    (j.validate s limits .metric).result = .ok false ∧ made = none ∨
      (j.validate s limits .metric).result = .ok true ∧ ∃ instances o text,
        j.plan s = .ok instances ∧ j.order s instances = .ok o ∧
          Assembly.assemble o j.program = .ok text ∧ made = some text := by
  obtain ⟨ps, hstate⟩ := j.state_validate s limits .metric
  -- what checking finds changes neither the plan nor the order
  have hplan : Job.plan { j with problems := ps } s = j.plan s := rfl
  have horder (instances : List (Instance Float)) :
      Job.order { j with problems := ps } s instances = j.order s instances := rfl
  unfold generate at h
  dsimp only at h
  rw [hstate, hplan] at h
  split at h
  next => cases h
  next hvalid => exact .inl ⟨hvalid, (Except.ok.inj h).symm⟩
  next hvalid =>
    cases hp : j.plan s with
    | error f => simp [hp] at h
    | ok instances =>
      simp only [hp, horder] at h
      split at h
      next => cases h
      next text htext =>
        obtain ⟨o, ho, ha⟩ := bind_eq_ok.1 htext
        exact .inr ⟨hvalid, instances, o, text, rfl, ho, mapError_eq_ok.1 ha,
          (Except.ok.inj h).symm⟩

theorem exists_banner_of_order {instances : List (Instance Float)} {o : Order Float}
    (h : j.order s instances = .ok o) : ∃ ns grid skips,
      skipped s = .ok ns ∧ gridLine s = .ok grid ∧ skipLines s ns = .ok skips ∧
        o = { instances := instances, sortByTool := s.sortByTool, totalParts := s.total
              banner := generatorLine :: sourceLine j.sourceName :: (grid :: skips ++
                [gapLine s, directionLine s, sortLine s, []]) } := by
  obtain ⟨banner, hbanner, rfl⟩ := map_eq_ok.1 h
  obtain ⟨ns, hns, hbanner⟩ := bind_eq_ok.1 hbanner
  obtain ⟨grid, hgrid, hbanner⟩ := bind_eq_ok.1 hbanner
  obtain ⟨skips, hskips, hbanner⟩ := bind_eq_ok.1 hbanner
  obtain rfl := Except.ok.inj hbanner
  exact ⟨ns, grid, skips, hns, mapError_eq_ok.1 hgrid, mapError_eq_ok.1 hskips, rfl⟩

theorem exists_plan_of_layout {l : Layout Float} (h : j.layout s = .ok l) :
    ∃ ns l₀, skipped s = .ok ns ∧ s.layout j.partSize.1 j.partSize.2 [] = .ok l₀ ∧
      l = { l₀ with skip := ns } := by
  obtain ⟨ns, hns, hl⟩ := bind_eq_ok.1 h
  rw [mapError_eq_ok, Settings.layout, Layout.make_skip, ← Settings.layout] at hl
  obtain ⟨l₀, h₀, rfl⟩ := map_eq_ok.1 hl
  exact ⟨ns, l₀, hns, h₀, rfl⟩

theorem exists_layout_of_plan {instances : List (Instance Float)} (h : j.plan s = .ok instances) :
    ∃ l, j.layout s = .ok l ∧ instances = l.plan := by
  obtain ⟨l, hl, rfl⟩ := map_eq_ok.1 h
  exact ⟨l, hl, rfl⟩

/-- The parts planned are those of the grid that are not skipped. -/
theorem map_part_of_plan {instances : List (Instance Float)} (h : j.plan s = .ok instances) :
    0 ≤ s.total ∧ ∃ ns, skipped s = .ok ns ∧ instances.map Instance.part =
      (SkipText.upTo 1 s.total).filter fun n ↦ !ns.contains n := by
  obtain ⟨l, hl, rfl⟩ := exists_layout_of_plan h
  obtain ⟨ns, hns, hl⟩ := bind_eq_ok.1 hl
  have hanswers := Layout.answers_of_make (mapError_eq_ok.1 hl)
  have htotal : (l.total : Int) = s.total := hanswers.total_eq
  refine ⟨by omega, ns, hns, ?_⟩
  rw [Layout.map_part_plan, htotal, hanswers.skip_eq]

theorem plan_eq_preview {instances : List (Instance Float)} (h : j.plan s = .ok instances) :
    ∃ cells, j.preview s = .ok cells ∧ instances = (cells.filter (!·.2)).map (·.1) := by
  obtain ⟨l, hl, rfl⟩ := exists_layout_of_plan h
  obtain ⟨ns, l₀, hns, h₀, rfl⟩ := exists_plan_of_layout hl
  have hall : l₀.plan = l₀.cells := (Layout.answers_of_make h₀).plan_eq
  refine ⟨_, map_eq_ok.2 ⟨ns, hns, rfl⟩, ?_⟩
  rw [h₀]
  dsimp only
  rw [hall, List.filter_map, List.map_map]
  exact (List.map_id _).symm

end Generate

section Questions

inductive Question where
  | check (s : Settings Float) (limits : Limits) (u : Units)
  | summary (s : Settings Float) (limits : Limits) (u : Units)
  | program (s : Settings Float) (limits : Limits)

def ask (j : Job) : Question → Job
  | .check s limits u => (j.validate s limits u).state
  | .summary s limits u => (j.summary s limits u).state
  | .program s limits => (j.generate s limits).state

theorem state_summary : (j.summary s limits u).state = (j.validate s limits u).state := by
  unfold summary
  dsimp only
  split <;> rfl

theorem state_generate :
    (j.generate s limits).state = (j.validate s limits .metric).state := by
  unfold generate
  dsimp only
  repeat' split
  all_goals rfl

theorem ask_eq (j : Job) (q : Question) : ∃ ps, j.ask q = { j with problems := ps } := by
  cases q with
  | check s limits u => exact j.state_validate s limits u
  | summary s limits u =>
    rw [ask, state_summary]
    exact j.state_validate s limits u
  | program s limits =>
    rw [ask, state_generate]
    exact j.state_validate s limits .metric

/-- However often a job is asked, it keeps its program and its extent. -/
theorem foldl_ask_eq (j : Job) (qs : List Question) :
    ∃ ps, qs.foldl ask j = { j with problems := ps } := by
  induction qs generalizing j with
  | nil => exact ⟨j.problems, rfl⟩
  | cons q qs ih =>
    obtain ⟨ps, hps⟩ := j.ask_eq q
    rw [List.foldl_cons, hps]
    exact ih { j with problems := ps }

end Questions

section Withheld

theorem severity_ne_fatal_of_validate {p : Problem}
    (h : p ∈ (j.validate s limits u).state.problems) : p.severity ≠ .fatal := by
  have hskip (r : SkipText.Reading) : ∀ p ∈ skipProblems r, p.severity ≠ .fatal := by
    unfold skipProblems
    split <;> simp
  have hlayout : ∀ p ∈ layoutProblems j s, p.severity ≠ .fatal := by
    unfold layoutProblems
    split <;> simp
  have henvelope (size : Float × Float) : ∀ p ∈ envelopeProblems size limits u,
      p.severity ≠ .fatal := by
    unfold envelopeProblems
    split <;> simp
  have hgap : ∀ p ∈ gapProblems s, p.severity ≠ .fatal := by
    unfold gapProblems
    split <;> simp
  unfold validate at h
  split at h
  next => cases h
  next r _ =>
    dsimp only at h
    split at h
    next =>
      rcases List.mem_append.1 h with h | h
      · exact hskip r p h
      · exact hlayout p h
    next size _ =>
      simp only [List.mem_append] at h
      rcases h with ((h | h) | h) | h
      · exact hskip r p h
      · exact hlayout p h
      · exact henvelope size p h
      · exact hgap p h

/-- What is logged when a program is withheld is the message of the problem that heads the list. -/
theorem log_generate_of_withheld (h : (j.generate s limits).result = .ok none) :
    ∃ p, (Problem.listed (j.generate s limits).state.problems).head? = some p ∧
      (j.generate s limits).log = [⟨.warning, "Generation blocked: ".toList ++ p.message⟩] := by
  obtain ⟨hvalid, -⟩ | ⟨-, _, _, _, -, -, -, hmade⟩ := result_generate h
  · have hblocked := firstMessage?_ne_none.1 ((firstMessage?_validate hvalid).2 rfl)
    have hhead := Problem.firstBlocking_eq_head?_listed
      (fun _ ↦ severity_ne_fatal_of_validate) hblocked
    obtain ⟨p, hp⟩ := Option.ne_none_iff_exists'.1 (Problem.firstBlocking_ne_none.2 hblocked)
    refine ⟨p, by rw [state_generate, ← hhead, hp], ?_⟩
    unfold generate
    dsimp only
    rw [hvalid]
    dsimp only
    rw [hp]
    rfl
  · cases hmade

end Withheld

/-- On a job with one measured extent the answers about one replication agree: the program is
withheld just if the summary says that it cannot be made, and just if either question leaves a
message; when it is made, it is assembled from a plan whose parts are those of the summary that
are not skipped, as many as the summary says, and the cells shown that are not skipped. -/
theorem answers_agree (hk : k.extent = j.extent) {made : Option Text} {m : Summary}
    (hg : (j.generate s limits).result = .ok made)
    (hm : (k.summary s limits u).result = .ok m) :
    (made = none ↔ m.canGenerate = false) ∧
      (m.canGenerate = false ↔ (j.generate s limits).state.firstMessage? ≠ none) ∧
      (m.canGenerate = false ↔ (k.summary s limits u).state.firstMessage? ≠ none) ∧
      ∀ text, made = some text → ∃ instances o cells,
        j.plan s = .ok instances ∧ k.plan s = .ok instances ∧ j.order s instances = .ok o ∧
          Assembly.assemble o j.program = .ok text ∧
          instances.map Instance.part =
            (SkipText.upTo 1 m.total).filter (fun n ↦ !m.skipped.contains n) ∧
          (instances.length : Int) = m.generating ∧
          k.preview s = .ok cells ∧ instances = (cells.filter (!·.2)).map (·.1) := by
  obtain ⟨hvalid, htotal, hskipped, hgenerating⟩ := result_summary hm
  have hmade := result_generate hg
  have hvalid' : (j.validate s limits .metric).result = .ok m.canGenerate := by
    rw [← result_validate_congr (k := k) (u := u) hk, hvalid]
  refine ⟨?_, ?_, ?_, ?_⟩
  · rcases hmade with ⟨hno, rfl⟩ | ⟨hyes, _, _, text, -, -, -, rfl⟩
    · simpa using (Except.ok.inj (hvalid'.symm.trans hno))
    · simpa using (Except.ok.inj (hvalid'.symm.trans hyes))
  · rw [state_generate, firstMessage?_validate hvalid']
  · rw [state_summary, firstMessage?_validate hvalid]
  · rintro text rfl
    rcases hmade with ⟨-, hnone⟩ | ⟨-, instances, o, _, hplan, horder, hassemble, htext⟩
    · cases hnone
    · obtain rfl := Option.some_inj.1 htext
      obtain ⟨hnonneg, ns, hns, hparts⟩ := map_part_of_plan hplan
      obtain rfl := Except.ok.inj (hns.symm.trans hskipped)
      obtain ⟨r, hr, haccepted⟩ := exists_reading_of_skipped hns
      obtain ⟨cells, hcells, hshown⟩ := plan_eq_preview hplan
      refine ⟨instances, o, cells, hplan, (plan_congr hk).trans hplan, horder, hassemble, ?_, ?_,
        (preview_congr hk).trans hcells, hshown⟩
      · rw [hparts, htotal]
      · rw [← List.length_map Instance.part, hparts, hgenerating, ← haccepted]
        exact SkipText.length_filter_upTo (SkipText.nodup_accepted hr)
          (fun n hn ↦ SkipText.mem_accepted_bounds hr hn) hnonneg

section FourParts

def fourParts : Job := (start.load "G0 X0 Y0\nG1 X10 Y5".toList none none).state

def fourPartsSettings : Settings Float :=
  { Settings.default with rows := 2, skipText := .ofText "3".toList }

def ninthOfTwo : Settings Float := { Settings.default with skipText := .ofText "9".toList }

def fourPartsAsked : Job :=
  [Question.check ninthOfTwo {} .metric, .program ninthOfTwo {}].foldl ask fourParts

theorem answers_agree_fourParts :
    ∃ text m, (fourParts.generate fourPartsSettings {}).result = .ok (some text) ∧
      (fourPartsAsked.summary fourPartsSettings {} .imperial).result = .ok m ∧
      m.canGenerate = true ∧ ∃ instances, fourPartsAsked.plan fourPartsSettings = .ok instances ∧
        instances.map Instance.part = [1, 2, 4] ∧ m.generating = 3 := by
  have hextent : fourPartsAsked.extent = fourParts.extent := by
    obtain ⟨ps, h⟩ := fourParts.foldl_ask_eq [.check ninthOfTwo {} .metric, .program ninthOfTwo {}]
    rw [fourPartsAsked, h]
  have hmade : (fourParts.generate fourPartsSettings {}).result.toOption.join.isSome = true := by
    decide +kernel
  have hsummed : (fourPartsAsked.summary fourPartsSettings {} .imperial).result.isOk = true := by
    decide +kernel
  cases hg : (fourParts.generate fourPartsSettings {}).result with
  | error f => simp [hg, Except.toOption] at hmade
  | ok made =>
    cases hm : (fourPartsAsked.summary fourPartsSettings {} .imperial).result with
    | error f => simp [hm, Except.isOk, Except.toBool] at hsummed
    | ok m =>
      obtain ⟨text, rfl⟩ : ∃ text, made = some text := by
        simpa [hg, Except.toOption, Option.isSome_iff_exists] using hmade
      obtain ⟨hnone, -, -, hplan⟩ := answers_agree hextent hg hm
      obtain ⟨instances, -, -, -, hinstances, -, -, hparts, hlength, -⟩ := hplan text rfl
      obtain ⟨-, htotal, hskipped, -⟩ := result_summary hm
      have hthird : skipped fourPartsSettings = .ok [3] := by rfl
      have hfound : instances.map Instance.part = [1, 2, 4] := by
        rw [hparts, htotal, ← Except.ok.inj (hthird.symm.trans hskipped)]
        decide
      refine ⟨text, m, rfl, rfl, by simpa using hnone, instances, hinstances, hfound, ?_⟩
      rw [← hlength, ← List.length_map Instance.part, hfound]
      rfl

end FourParts

end Job

end StepAndRepeat
