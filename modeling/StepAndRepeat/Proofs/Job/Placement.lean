import StepAndRepeat.Proofs.Extent.Sides
import StepAndRepeat.Proofs.Grid.Numbering
import StepAndRepeat.Proofs.Grid.Reach
import StepAndRepeat.Proofs.Job.History
import StepAndRepeat.Proofs.Number.Truncation
import StepAndRepeat.Proofs.Replication.Labels
import StepAndRepeat.Proofs.Replication.Reproduction

namespace StepAndRepeat

open Binary

namespace Offset

def WritesNumbers (o : Offset Float) (l : Line Float) : Prop :=
  ∀ k ∈ l.keys, ∀ d ∈ o.of? k.1, IsNumber (k.2 + d)

def IsFinite (o : Offset Float) : Prop := Binary.IsFinite o.x ∧ Binary.IsFinite o.y

variable {o : Offset Float} {l : Line Float}

theorem IsFinite.of? (h : o.IsFinite) {c : Char} {d : Float} (hd : o.of? c = some d) :
    Binary.IsFinite d := by
  unfold Offset.of? at hd
  split at hd
  · exact Option.some_inj.1 hd ▸ h.1
  · split at hd
    · exact Option.some_inj.1 hd ▸ h.2
    · cases hd

theorem IsFinite.writesNumbers (h : o.IsFinite) (hl : l.IsRead) : o.WritesNumbers l := by
  intro k hk d hd
  refine isNumber_add ?_ (h.of? hd)
  obtain ⟨n, hn⟩ : ∃ n : Numeral, k.2 = Coordinate.ofNumeral n := by
    rw [Line.keys_of_readAt hl] at hk
    split at hk
    next =>
      obtain ⟨p, -, hp⟩ := List.mem_filterMap.1 hk
      cases p with
      | comment t => cases hp
      | token t =>
        cases t with
        | other c => cases hp
        | word c t => exact ⟨.ofText t, by rw [← Option.some_inj.1 hp]⟩
    next => simp at hk
  rw [hn]
  exact (stores_ofNumeral n).isNumber

end Offset

/-- The entry is a note, a line taken over, or a line shifted for one of the instances, with numbers
for its coordinates. -/
def Entry.WritesNumbers (is : List (Instance Float)) : Entry Float → Prop
  | .note _ => True
  | .copy c => c.text = c.line.text ∨
      ∃ i ∈ is, c.text = i.offset.shiftText c.line.text ∧ i.offset.WritesNumbers c.line

namespace Assembly

theorem writesNumbers_of_block {o : Order Float} {program : Text} {bs : List (Block Float)}
    (h : blocks o program = .ok bs) (ho : ∀ i ∈ o.instances, i.offset.IsFinite) {b : Block Float}
    (hb : b ∈ bs) {c : Copy Float} (hc : c ∈ b.copies) :
    (Entry.copy c).WritesNumbers o.instances := by
  obtain ⟨_, _, _, _, _, hd⟩ := mem_blocks h hb
  obtain ⟨hl, ps, ks, -, ht⟩ := Block.mem_copies hc
  rcases b.cell.offset.copyText_cases (Modes.through {} (b.before ++ ps ++ [c.line])) c.line with
    ⟨-, hkept⟩ | ⟨-, -, hshifted⟩
  · exact .inl (ht.trans hkept)
  · have hread := isRead_of_mem_read h hb c.line (List.mem_append_right _ hl)
    exact .inr ⟨b.cell, hd.cell_mem, ht.trans hshifted, (ho b.cell hd.cell_mem).writesNumbers hread⟩

theorem entries_writesNumbers {o : Order Float} {program out : Text}
    (h : assemble o program = .ok out) (ho : ∀ i ∈ o.instances, i.offset.IsFinite) :
    ∃ es, entries o program = .ok es ∧ out = Text.join ['\n'] (es.map (·.text)) ∧
      ∀ e ∈ es, e.WritesNumbers o.instances := by
  obtain ⟨ss, hss⟩ := exists_stretches_of_assemble h
  have hes := entries_of_stretches hss
  rw [assemble, hes] at h
  refine ⟨_, hes, (Except.ok.inj h).symm, fun e he ↦ ?_⟩
  obtain ⟨s, hs, hes⟩ := List.mem_flatMap.1 he
  cases s with
  | note t =>
    rw [List.mem_singleton.1 hes]
    trivial
  | verbatim ls =>
    obtain ⟨l, -, rfl⟩ := List.mem_map.1 hes
    exact .inl rfl
  | block b =>
    obtain ⟨c, hc, rfl⟩ := List.mem_map.1 hes
    have hbs : blocks o program = .ok (Stretch.blocks ss) := by
      rw [blocks, hss]
      rfl
    exact writesNumbers_of_block hbs ho (Stretch.mem_blocks hs) hc

end Assembly

namespace Layout

def farthest : Float := ofInt (2 ^ 1022)

theorem extended_lt_of_lt_farthest {x : Float} (h : x < farthest) :
    extended x < (2 ^ (1022 : ℤ) : ℝ) := by
  obtain ⟨hx, hf⟩ := isNumber_of_lt h
  have hpow : ((2 ^ 1022 : ℤ) : ℝ) = 2 ^ (1022 : ℤ) := by
    rw [Int.cast_pow, Int.cast_ofNat]
    exact (zpow_natCast (2 : ℝ) 1022).symm
  calc extended x < extended farthest := (extended_lt_iff hx hf).1 h
    _ = stored ((2 ^ 1022 : ℤ) : ℝ) := extended_ofInt _
    _ = (2 ^ (1022 : ℤ) : ℝ) := by rw [hpow, stored_two_zpow (by decide) (by decide)]

/-- Along one axis, parts in a row that is a number and no longer than a machine travels lie at
finite places. -/
theorem isFinite_displacement_of_fits {n k : ℕ} {w g limit : Float}
    (hw : IsNumber w ∧ 0 ≤ extended w) (hn : IsFinite (ofInt n))
    (hs : 1 < n → Coordinate.le (w + g) Coordinate.zero = false) (hk : k < n)
    (hnum : 1 < n → IsNumber (Row.length n w g)) (hfits : ¬ limit < Row.length n w g)
    (hlimit : limit < farthest) (d : Direction) : IsFinite (displacement k (w + g) d) := by
  rcases (Nat.one_le_of_lt hk).eq_or_lt with rfl | hmany
  · obtain rfl : k = 0 := by omega
    exact displacement_zero _ d
  have hlength := hnum hmany
  obtain ⟨hx, -⟩ := isNumber_of_lt hlimit
  have hle := (extended_le_iff hlength hx).1 (le_of_not_lt hlength hx hfits)
  have hrow : Row n w g := ⟨hmany, hw, hs hmany, hn⟩
  exact hrow.isFinite_displacement hk hlength (hle.trans_lt (extended_lt_of_lt_farthest hlimit)) d

end Layout

namespace Job

variable {j : Job} {s : Settings Float} {limits : Limits} {u : Units}

theorem isFinite_of_isSome_ofInt? {n : ℤ} (h : (ofInt? n).isSome = true) : IsFinite (ofInt n) := by
  by_contra hfin
  rw [(stores_ofInt n).not_isFinite_iff] at hfin
  rw [ofInt?_eq_none_iff.2 hfin] at h
  cases h

theorem gridSize_cases {size : Float × Float} (h : j.gridSize s = .ok size) :
    size = footprint j.partSize.1 j.partSize.2 s.rows s.columns s.gapX s.gapY ∧
      IsFinite (ofInt s.columns) ∧ IsFinite (ofInt s.rows) := by
  unfold gridSize at h
  split at h
  next hall =>
    simp only [List.all_cons, List.all_nil, Bool.and_true, Bool.and_eq_true] at hall
    exact ⟨(Except.ok.inj h).symm, isFinite_of_isSome_ofInt? hall.1,
      isFinite_of_isSome_ofInt? hall.2.2.1⟩
  next => cases h

theorem layout_cases (j : Job) {r : SkipText.Reading} (h : reading s = .ok r) :
    (∃ l, j.layout s = .ok l) ∨ ∃ f, j.layout s = .error (.layout f) := by
  have hlayout : j.layout s =
      (s.layout j.partSize.1 j.partSize.2 r.accepted).mapError .layout := by
    rw [layout, skipped, h]
    rfl
  rw [hlayout]
  cases s.layout j.partSize.1 j.partSize.2 r.accepted with
  | ok l => exact .inl ⟨l, rfl⟩
  | error f => exact .inr ⟨f, rfl⟩

theorem answers_of_layout {l : Layout Float} (h : j.layout s = .ok l) : ∃ ns, skipped s = .ok ns ∧
    l.Answers s.rows s.columns (j.partSize.1 + s.gapX) (j.partSize.2 + s.gapY) s.rowDirection
      s.columnDirection ns := by
  obtain ⟨ns, hns, hl⟩ := bind_eq_ok.1 h
  exact ⟨ns, hns, Layout.answers_of_make (mapError_eq_ok.1 hl)⟩

theorem layout_of_validate (h : (j.validate s limits u).result = .ok true) :
    ∃ l size, j.layout s = .ok l ∧ j.gridSize s = .ok size ∧
      ¬ limits.x < size.1 ∧ ¬ limits.y < size.2 := by
  unfold validate at h
  dsimp only at h
  split at h
  next => cases h
  next r hr =>
    split at h
    next => cases h
    next size hsize =>
      have hclear := Except.ok.inj h
      rw [Bool.not_eq_true'] at hclear
      have hsplit (ps qs : List Problem) : Problem.anyBlocking (ps ++ qs) =
          (Problem.anyBlocking ps || Problem.anyBlocking qs) := List.any_append
      simp only [hsplit, anyBlocking_envelopeProblems, Bool.or_eq_false_iff,
        decide_eq_false_iff_not, not_or] at hclear
      obtain ⟨⟨⟨-, hlayout⟩, hx, hy⟩, -⟩ := hclear
      rcases layout_cases j hr with ⟨l, hl⟩ | ⟨f, hl⟩
      · exact ⟨l, size, hl, hsize, hx, hy⟩
      · simp [layoutProblems, hl, Problem.anyBlocking] at hlayout

section Placed

variable (hmeasured : Survey.extent j.program = .ok j.extent) (hbox : j.extent.IsFinite)
  (hvalid : (j.validate s limits u).result = .ok true)
include hmeasured hbox

theorem nonneg_partSize : (IsNumber j.partSize.1 ∧ 0 ≤ extended j.partSize.1) ∧
    IsNumber j.partSize.2 ∧ 0 ≤ extended j.partSize.2 :=
  ⟨nonneg_sub (hbox .x).1 (hbox .x).2 (Survey.low_le_high hmeasured .x),
    nonneg_sub (hbox .y).1 (hbox .y).2 (Survey.low_le_high hmeasured .y)⟩

theorem isFinite_offsets {l : Layout Float} {size : Float × Float} (hl : j.layout s = .ok l)
    (hsize : j.gridSize s = .ok size)
    (hx : ¬ limits.x < size.1 ∧ limits.x < Layout.farthest ∧ (1 < s.columns → IsNumber size.1))
    (hy : ¬ limits.y < size.2 ∧ limits.y < Layout.farthest ∧ (1 < s.rows → IsNumber size.2)) :
    ∀ i ∈ l.plan, i.offset.IsFinite := by
  obtain ⟨hw, hh⟩ := nonneg_partSize hmeasured hbox
  obtain ⟨ns, -, hanswers⟩ := answers_of_layout hl
  obtain ⟨hfoot, hcolumns, hrows⟩ := gridSize_cases hsize
  rw [← hanswers.columns_eq] at hcolumns
  rw [← hanswers.rows_eq] at hrows
  have hsizeX : size.1 = Layout.Row.length l.columns j.partSize.1 s.gapX := by
    rw [hfoot, ← hanswers.columns_eq]
    rfl
  have hsizeY : size.2 = Layout.Row.length l.rows j.partSize.2 s.gapY := by
    rw [hfoot, ← hanswers.rows_eq]
    rfl
  have hspacingX : l.spacingX = j.partSize.1 + s.gapX := hanswers.spacingX_eq
  have hspacingY : l.spacingY = j.partSize.2 + s.gapY := hanswers.spacingY_eq
  rw [hsizeX, ← hanswers.columns_eq] at hx
  rw [hsizeY, ← hanswers.rows_eq] at hy
  intro i hi
  obtain ⟨row, hrow, column, hcolumn, rfl⟩ := Layout.exists_cell_of_mem_plan hi
  rw [Layout.cell, hspacingX, hspacingY]
  constructor
  · refine Layout.isFinite_displacement_of_fits hw hcolumns (hspacingX ▸ l.spacingX_ok) hcolumn
      (fun h ↦ hx.2.2 ?_) hx.1 hx.2.1 _
    exact_mod_cast h
  · refine Layout.isFinite_displacement_of_fits hh hrows (hspacingY ▸ l.spacingY_ok) hrow
      (fun h ↦ hy.2.2 ?_) hy.1 hy.2.1 _
    exact_mod_cast h

include hvalid

/-- Of the settings that are accepted, a spacing that is no number places all parts but those of the
first column or row nowhere, and nothing else does. Where the length of the grid is a number on each
axis with more than one part, all parts lie at finite places, and no coordinate is written that is
not a number. -/
theorem offsets_of_validate : ∃ l size, j.layout s = .ok l ∧ j.gridSize s = .ok size ∧
    (∀ i ∈ l.plan, (IsNumber i.offset.x ↔ i.column = 1 ∨ IsNumber l.spacingX) ∧
      (IsNumber i.offset.y ↔ i.row = 1 ∨ IsNumber l.spacingY)) ∧
    (limits.x < Layout.farthest → limits.y < Layout.farthest →
      (1 < s.columns → IsNumber size.1) → (1 < s.rows → IsNumber size.2) →
      (∀ i ∈ l.plan, i.offset.IsFinite) ∧
        ∀ out, (j.generate s limits).result = .ok (some out) →
          ∃ o es, j.order s l.plan = .ok o ∧ Assembly.entries o j.program = .ok es ∧
            out = Text.join ['\n'] (es.map (·.text)) ∧ ∀ e ∈ es, e.WritesNumbers l.plan) := by
  obtain ⟨l, size, hl, hsize, hx, hy⟩ := layout_of_validate hvalid
  obtain ⟨ns, -, hanswers⟩ := answers_of_layout hl
  obtain ⟨-, hcolumns, hrows⟩ := gridSize_cases hsize
  rw [← hanswers.columns_eq] at hcolumns
  rw [← hanswers.rows_eq] at hrows
  refine ⟨l, size, hl, hsize, fun i hi ↦ ?_, fun hlx hly hnx hny ↦ ?_⟩
  · obtain ⟨row, hrow, column, hcolumn, rfl⟩ := Layout.exists_cell_of_mem_plan hi
    have hfirst (k : ℕ) : ((k : ℤ) + 1 = 1) ↔ k = 0 := by omega
    constructor
    · exact (Layout.isNumber_displacement_iff hcolumn hcolumns _ _).trans
        (or_congr_left (hfirst column).symm)
    · exact (Layout.isNumber_displacement_iff hrow hrows _ _).trans
        (or_congr_left (hfirst row).symm)
  · have hfinite := isFinite_offsets hmeasured hbox hl hsize ⟨hx, hlx, hnx⟩ ⟨hy, hly, hny⟩
    refine ⟨hfinite, fun out hout ↦ ?_⟩
    rcases result_generate hout with ⟨-, hnone⟩ | ⟨-, instances, o, text, hplan, ho, htext, hsome⟩
    · cases hnone
    obtain ⟨l', hl', rfl⟩ := exists_layout_of_plan hplan
    obtain rfl := Except.ok.inj (hl.symm.trans hl')
    obtain rfl := Option.some_inj.1 hsome
    have hinstances : o.instances = l.plan := by
      obtain ⟨_, _, _, -, -, -, rfl⟩ := exists_banner_of_order ho
      rfl
    rw [← hinstances] at hfinite
    obtain ⟨es, hes, hjoined, hwrites⟩ := Assembly.entries_writesNumbers htext hfinite
    exact ⟨o, es, ho, hes, hjoined, hinstances ▸ hwrites⟩

end Placed

section FourParts

theorem measured_fourParts : Survey.extent fourParts.program = .ok fourParts.extent := by
  have hok : (Survey.extent "G0 X0 Y0\nG1 X10 Y5".toList :
      Except LineFault (Extent Float)).isOk = true := by decide +kernel
  cases he : (Survey.extent "G0 X0 Y0\nG1 X10 Y5".toList : Except LineFault (Extent Float)) with
  | error f =>
    rw [he] at hok
    cases hok
  | ok e =>
    rw [fourParts, (load_of_ok he).2]
    exact he

theorem isFinite_fourParts : fourParts.extent.IsFinite := by decide +kernel

theorem offsets_of_validate_fourParts :
    ∃ l out o es, fourParts.layout fourPartsSettings = .ok l ∧
      (fourParts.generate fourPartsSettings {}).result = .ok (some out) ∧
      fourParts.order fourPartsSettings l.plan = .ok o ∧
      Assembly.entries o fourParts.program = .ok es ∧
      (∀ i ∈ l.plan, i.offset.IsFinite) ∧ ∀ e ∈ es, e.WritesNumbers l.plan := by
  have hchecked :
      (fourParts.validate fourPartsSettings {} .metric).result.toOption = some true := by
    decide +kernel
  have hmade : (fourParts.generate fourPartsSettings {}).result.toOption.join.isSome = true := by
    decide +kernel
  have hfinite : (fourParts.gridSize fourPartsSettings).toOption.all
      (fun size ↦ decide (IsFinite size.1) && decide (IsFinite size.2)) = true := by decide +kernel
  obtain ⟨out, hout⟩ := Option.isSome_iff_exists.1 hmade
  obtain ⟨l, size, hl, hsize, -, hplaced⟩ :=
    offsets_of_validate measured_fourParts isFinite_fourParts (eq_ok_of_toOption hchecked)
  simp only [hsize, Except.toOption, Option.all_some, Bool.and_eq_true, decide_eq_true_eq]
    at hfinite
  obtain ⟨hoffsets, hwritten⟩ := hplaced (by decide +kernel) (by decide +kernel)
    (fun _ ↦ (parts_ne hfinite.1).1) fun _ ↦ (parts_ne hfinite.2).1
  have hgenerated := eq_ok_of_toOption (Option.join_eq_some_iff.1 hout)
  obtain ⟨o, es, ho, hes, -, hnumbers⟩ := hwritten out hgenerated
  exact ⟨l, out, o, es, hl, hgenerated, ho, hes, hoffsets, hnumbers⟩

def AcceptsOnlyFinite : Prop :=
  ∀ (j : Job) (document : Json) (s : Settings Float) (limits : Limits) (u : Units),
    Survey.extent j.program = .ok j.extent → j.extent.IsFinite →
    Settings.ofJson document = .ok s → IsFinite limits.x → IsFinite limits.y →
    (j.validate s limits u).result = .ok true →
    ∃ l, j.layout s = .ok l ∧ ∀ i ∈ l.plan, i.offset.IsFinite

def gapOfNoNumber : Json := .object [(Settings.gapXKey, .str (.ofText "nan".toList))]

def acceptsNowhere (s : Settings Float) : Bool :=
  (fourParts.validate s {} .metric).result.toOption == some true &&
    (fourParts.layout s).toOption.any fun l ↦ l.plan.any fun i ↦ !decide (IsFinite i.offset.x)

theorem acceptsNowhere_gapOfNoNumber :
    (Settings.ofJson gapOfNoNumber).toOption.any acceptsNowhere = true := by decide +kernel

theorem not_acceptsOnlyFinite : ¬ AcceptsOnlyFinite := by
  intro h
  have hnowhere := acceptsNowhere_gapOfNoNumber
  cases hs : Settings.ofJson gapOfNoNumber with
  | error f => simp [hs, Except.toOption] at hnowhere
  | ok s =>
    simp only [hs, Except.toOption, Option.any_some, acceptsNowhere, Bool.and_eq_true] at hnowhere
    obtain ⟨hchecked, hplaced⟩ := hnowhere
    have hvalid := eq_ok_of_toOption (eq_of_beq hchecked)
    obtain ⟨l, hl, hfinite⟩ := h fourParts gapOfNoNumber s {} .metric measured_fourParts
      isFinite_fourParts hs (by decide +kernel) (by decide +kernel) hvalid
    simp only [hl, Option.any_some, List.any_eq_true, Bool.not_eq_true',
      decide_eq_false_iff_not] at hplaced
    obtain ⟨i, hi, hnowhere⟩ := hplaced
    exact hnowhere (hfinite i hi).1

end FourParts

end Job

end StepAndRepeat
