import StepAndRepeat.Proofs.Number.Whole
import StepAndRepeat.Proofs.Program.Endings
import StepAndRepeat.Proofs.Replication.Structure

namespace StepAndRepeat

variable {α : Type} [Coordinate α]

open Text

namespace Line

def RunsOn (α : Type) [Coordinate α] (t : Text) : Prop :=
  ∃ r : Line α, readAt 0 t = .ok r ∧ r.isProgramEnd = false

theorem isProgramEnd_of_not_code {i : Nat} {t : Text} {l : Line α} (h : readAt i t = .ok l)
    (hk : kindOf t ≠ .code) : l.isProgramEnd = false := by
  rw [Ending.isProgramEnd_eq_any, keys_of_readAt h, if_neg hk]
  rfl

theorem RunsOn.isProgramEnd_eq {t : Text} (h : RunsOn α t) {i : Nat} {l : Line α}
    (hl : readAt i t = .ok l) : l.isProgramEnd = false := by
  obtain ⟨r, hr, he⟩ := h
  rw [Ending.isProgramEnd_eq_any, keys_of_readAt hr] at he
  rwa [Ending.isProgramEnd_eq_any, keys_of_readAt hl]

theorem runsOn_of_not_code {t : Text} (h : kindOf t ≠ .code) : RunsOn α t := by
  obtain ⟨r, hr, -⟩ := exists_readAt_of_not_code (α := α) h 0
  exact ⟨r, hr, isProgramEnd_of_not_code hr h⟩

theorem IsRead.runsOn {l : Line α} (hl : l.IsRead) (he : l.isProgramEnd = false) :
    RunsOn α l.text := by
  obtain ⟨r, hr⟩ := exists_readAt_of_readAt hl 0
  refine ⟨r, hr, ?_⟩
  rwa [Ending.isProgramEnd_eq_any, (hl.alike hr).keys, ← Ending.isProgramEnd_eq_any]

theorem IsRead.exists_trunc? {l : Line α} (hl : l.IsRead) {n : Int} (h : l.tool = some n) :
    ∃ x : α, Coordinate.trunc? x = some n := by
  have hk : l.kind = .code := by
    rw [hl.kind_eq]
    by_contra hk
    unfold IsRead readAt at hl
    split at hl
    next hc => exact hk hc
    next =>
      rw [← Except.ok.inj hl] at h
      cases h
  have ht := toolOf_of_readAt hl hk
  rw [toolOf_eq, h] at ht
  split at ht
  next => cases ht
  next v _ =>
    split at ht
    · split at ht
      next m hm =>
        cases ht
        exact ⟨v, hm⟩
      next => cases ht
    · cases ht

end Line

open Line

theorem Offset.runsOn_copyText {o : Offset α} {m : Modes} {l : Line α} (hl : l.IsRead)
    (he : l.isProgramEnd = false) (ho : o.copyText m l ≠ l.text → o.WritesDecimals l) :
    RunsOn α (o.copyText m l) := by
  by_cases hs : o.copyText m l = l.text
  · rw [hs]
    exact hl.runsOn he
  · rcases o.copyText_cases m l with ⟨-, ht⟩ | ⟨-, hk, ht⟩
    · exact absurd ht hs
    · obtain ⟨r, hr, hshift⟩ := o.exists_lineShifted_shiftText hl hk (ho hs) 0
      have hm := hshift.values 'M' (by decide) (by decide)
      refine ⟨r, by rw [ht, hr], ?_⟩
      rwa [isProgramEnd_eq, has_of_values hm, has_of_values hm, ← isProgramEnd_eq]

def Line.IsOpen (l : Line α) : Prop := l.IsSound ∧ l.isProgramEnd = false

def Assembly.IsOpen (α : Type) [Coordinate α] (t : Text) : Prop := Unbroken t ∧ RunsOn α t

theorem Stretch.Of.isOpen [OneLine α] {s : Stretch α}
    (h : s.Of (Assembly.IsOpen α) Line.IsOpen) (hb : ∀ b, s = .block b → b.WritesDecimals) :
    ∀ e ∈ s.entries, Assembly.IsOpen α e.text := by
  intro e he
  cases s with
  | note t =>
    rw [List.mem_singleton.1 he]
    exact h
  | verbatim ls =>
    obtain ⟨l, hl, rfl⟩ := List.mem_map.1 he
    obtain ⟨hs, hend⟩ := h l hl
    exact ⟨hs.2, hs.1.runsOn hend⟩
  | block b =>
    obtain ⟨c, hc, rfl⟩ := List.mem_map.1 he
    obtain ⟨hl, ps, ks, -, ht⟩ := Block.mem_copies hc
    obtain ⟨hs, hend⟩ := h c.line hl
    have hw := hb b rfl c hc
    rw [ht] at hw
    rw [Entry.text, ht]
    exact ⟨Offset.unbroken_copyText _ _ hs, Offset.runsOn_copyText hs.1 hend hw⟩

def Block.FiniteSums (b : Block Float) : Prop :=
  ∀ c ∈ b.copies, c.text ≠ c.line.text → b.cell.offset.FiniteSums c.line

instance (b : Block Float) : Decidable b.FiniteSums := by
  unfold Block.FiniteSums
  infer_instance

theorem Block.FiniteSums.writesDecimals {b : Block Float} (h : b.FiniteSums) :
    b.WritesDecimals := fun c hc hne ↦ (h c hc hne).writesDecimals

namespace Assembly

theorem exists_stretches_of_assemble {o : Order α} {program out : Text}
    (h : assemble o program = .ok out) : ∃ ss, stretches o program = .ok ss := by
  rw [assemble, entries_eq] at h
  cases hs : stretches o program with
  | error e => simp [hs, Except.map] at h
  | ok ss => exact ⟨ss, rfl⟩

section Open

variable {o : Order α} {program : Text}

/-- The lines that are replayed are open once end words are taken out of the program, if no number
goes on behind one. -/
theorem isOpen_of_cleanAll {ls rs : List (Line α)} (hl : readAll program = .ok ls)
    (hc : ∀ t ∈ lines program, kindOf t = .code → Ending.ClearEnds α (LinePart.ofLine t))
    (hr : Ending.cleanAll ls = .ok rs) : ∀ r ∈ rs, r.IsOpen := by
  have hls := isSound_of_readAll hl
  have hends := Ending.not_isProgramEnd_of_cleanAll hls (fun l hm hk ↦ ?_) hr
  · intro r hm
    exact ⟨(Ending.cleansAll_of_cleanAll hr).isSound hls hm, hends r hm⟩
  · obtain ⟨t, ht, j, hj⟩ := exists_text_of_mem hl hm
    obtain ⟨-, rfl, hkind, -⟩ := readAt_fields hj
    exact hc l.text ht (hkind.symm.trans hk)

theorem isOpen_body [OneLine α] {rs : List (Line α)} {body : List (Stretch α)}
    (hrs : ∀ r ∈ rs, r.IsOpen)
    (hT : ∀ (x : α) (n : Int), Coordinate.trunc? x = some n → RunsOn α (toolChange n))
    (h : bodyStretches o rs = .ok body) : ∀ s ∈ body, s.Of (IsOpen α) Line.IsOpen := by
  refine of_body (fun t ht ↦ ⟨ht.1, runsOn_of_not_code ht.kindOf_ne⟩) (fun t ht ↦ ?_) ?_ h
  · obtain ⟨l, hm, htool⟩ := Segment.exists_tool_of_mem_tools ht
    obtain ⟨x, hx⟩ := (hrs l hm).1.1.exists_trunc? htool
    exact ⟨unbroken_toolChange t.1, hT x t.1 hx⟩
  · -- without tools end words are taken out once more, and none is left
    intro r hm s hrs'
    rw [hrs'.eq_of_plain (.inl (hrs r hm).2)]
    exact hrs r hm

/-- Whatever is written before the program end is read and does not end the program. -/
theorem exists_isOpen [OneLine α] {ss : List (Stretch α)} (hss : stretches o program = .ok ss)
    (hT : ∀ (x : α) (n : Int), Coordinate.trunc? x = some n → RunsOn α (toolChange n))
    (hc : ∀ t ∈ lines program, kindOf t = .code → Ending.ClearEnds α (LinePart.ofLine t))
    (hb : ∀ t ∈ o.banner, Unbroken t ∧ kindOf t ≠ .code)
    (hw : ∀ bs, blocks o program = .ok bs → ∀ b ∈ bs, b.WritesDecimals) :
    ∃ ts, ss.flatMap Stretch.entries = ts ++ [.note programEnd] ∧
      ∀ e ∈ ts, IsOpen α e.text := by
  obtain ⟨ls, rs, body, hl, hr, hbody, rfl⟩ := stretches_cases hss
  refine ⟨(o.banner.map Stretch.note ++ body).flatMap Stretch.entries, by simp [Stretch.entries], ?_⟩
  intro e he
  obtain ⟨s, hs, he⟩ := List.mem_flatMap.1 he
  have hof : s.Of (IsOpen α) Line.IsOpen := by
    rcases List.mem_append.1 hs with hs | hs
    · obtain ⟨t, ht, rfl⟩ := List.mem_map.1 hs
      exact ⟨(hb t ht).1, runsOn_of_not_code (hb t ht).2⟩
    · exact isOpen_body (isOpen_of_cleanAll hl hc hr) hT hbody s hs
  refine hof.isOpen (fun b hsb ↦ ?_) e he
  exact hw _ (by rw [blocks, hss]; rfl) b (Stretch.mem_blocks (List.mem_append_left _ (hsb ▸ hs)))

theorem unbroken_of_entries {ss : List (Stretch α)} {ts : List (Entry α)}
    (hts : ss.flatMap Stretch.entries = ts ++ [.note programEnd])
    (hopen : ∀ e ∈ ts, IsOpen α e.text) : ∀ s ∈ ss, ∀ e ∈ s.entries, Unbroken e.text := by
  intro s hs e he
  have hm : e ∈ ts ++ [.note programEnd] := hts ▸ List.mem_flatMap.2 ⟨s, hs, he⟩
  rcases List.mem_append.1 hm with hm | hm
  · exact (hopen e hm).1
  · rw [List.mem_singleton.1 hm]
    exact Noted.programEnd.unbroken

end Open

section Binary

theorem isNat_six : ∀ k ∈ [2, 6, 30],
    Coordinate.isNat k (Coordinate.ofNumeral (.ofText ['6']) : Float) = decide (k = 6) := by
  decide +kernel

theorem values_toolChange (i : Nat) (n : Int) (tool : Option Int) :
    (codeAt i (toolChange n) tool : Line Float).values 'M' =
      [Coordinate.ofNumeral (.ofText ['6'])] := by
  rw [values_codeAt, ofLine_toolChange]
  rfl

theorem readAt_toolChange {x : Float} {n : Int} (h : Coordinate.trunc? x = some n) (i : Nat) :
    readAt i (toolChange n) = .ok (codeAt i (toolChange n) (some n) : Line Float) := by
  have ht : (codeAt i (toolChange n) (some n) : Line Float).values 'T' =
      [Coordinate.ofNumeral (.ofText (ofInt n))] := by
    rw [values_codeAt, ofLine_toolChange]
    rfl
  refine readAt_of_toolOf (kindOf_toolChange n) ?_
  rw [toolOf_eq, ht, has_eq, values_toolChange, List.any_cons, isNat_six 6 (by simp)]
  dsimp only [List.head?_cons]
  rw [Binary.trunc?_ofNumeral_ofInt h]
  rfl

theorem runsOn_toolChange {x : Float} {n : Int} (h : Coordinate.trunc? x = some n) :
    RunsOn Float (toolChange n) := by
  refine ⟨_, readAt_toolChange h 0, ?_⟩
  rw [isProgramEnd_eq, has_eq, has_eq, values_toolChange, List.any_cons, List.any_cons,
    isNat_six 2 (by simp), isNat_six 30 (by simp)]
  rfl

theorem readAt_programEnd (i : Nat) :
    readAt i programEnd = .ok (codeAt i programEnd none : Line Float) := by
  have ht : (codeAt i programEnd none : Line Float).values 'T' = [] := by
    rw [values_codeAt, ofLine_programEnd]
    rfl
  refine readAt_of_toolOf rfl ?_
  rw [toolOf_eq, ht]
  rfl

theorem exists_readAt_programEnd (i : Nat) :
    ∃ e : Line Float, readAt i programEnd = .ok e ∧ e.isProgramEnd = true := by
  have hthirty : Coordinate.isNat 30 (Coordinate.ofNumeral (.ofText ['3', '0']) : Float) = true := by
    decide +kernel
  have hm : (codeAt i programEnd none : Line Float).values 'M' =
      [Coordinate.ofNumeral (.ofText ['3', '0'])] := by
    rw [values_codeAt, ofLine_programEnd]
    rfl
  refine ⟨_, readAt_programEnd i, ?_⟩
  rw [isProgramEnd_eq, has_eq, has_eq, hm, List.any_cons, List.any_cons, hthirty]
  simp

/-- An assembled program is read, and ends on its last line only. -/
theorem readAll_assemble_end {o : Order Float} {program out : Text}
    (ho : assemble o program = .ok out)
    (hc : ∀ t ∈ lines program, kindOf t = .code → Ending.ClearEnds Float (LinePart.ofLine t))
    (hb : ∀ t ∈ o.banner, Unbroken t ∧ kindOf t ≠ .code)
    (hw : ∀ bs, blocks o program = .ok bs → ∀ b ∈ bs, b.FiniteSums) :
    ∃ (ls : List (Line Float)) (e : Line Float), readAll out = .ok (ls ++ [e]) ∧
      e.isProgramEnd = true ∧ ∀ l ∈ ls, l.isProgramEnd = false := by
  obtain ⟨ss, hss⟩ := exists_stretches_of_assemble ho
  obtain ⟨es, hes, hopen⟩ := exists_isOpen hss (fun _ _ ↦ runsOn_toolChange) hc hb
    fun bs hbs b hm ↦ (hw bs hbs b hm).writesDecimals
  have htexts : ∀ t ∈ es.map Entry.text, ∃ l : Line Float, readAt 0 t = .ok l := by
    intro t ht
    obtain ⟨e, he, rfl⟩ := List.mem_map.1 ht
    exact (hopen e he).2.imp fun _ h ↦ h.1
  obtain ⟨ls, hls⟩ := exists_readFrom_of_forall htexts 0
  obtain ⟨e, he, hend⟩ := exists_readAt_programEnd (0 + (es.map Entry.text).length)
  refine ⟨ls, e, ?_, hend, fun l hm ↦ ?_⟩
  · rw [readAll_of_unbroken ho hss (unbroken_of_entries hes hopen), hes, List.map_append]
    refine readFrom_append hls ?_
    rw [List.map_singleton, Entry.text, readFrom, he]
    rfl
  · obtain ⟨t, ht, j, hj⟩ := exists_text_of_mem hls hm
    obtain ⟨u, hu, rfl⟩ := List.mem_map.1 ht
    exact (hopen u hu).2.isProgramEnd_eq hj

def scattered : Text :=
  "N1 M30 (start)\nG21 M2\nT1 M6\nG1 X5 M30 M02 (side)\nT2 M6\nM2G0Y1(end)\nM30".toList

def titledCells : Order Float :=
  { twoCells with sortByTool := true, banner := ["(Two cells)".toList, []] }

def endsClear (o : Order Float) (program : Text) : Bool :=
  match assemble o program, blocks o program with
  | .ok _, .ok bs =>
    decide (∀ t ∈ lines program, kindOf t = .code →
        Ending.ClearEnds Float (LinePart.ofLine t)) &&
      decide (∀ t ∈ o.banner, Unbroken t ∧ kindOf t ≠ .code) && decide (∀ b ∈ bs, b.FiniteSums)
  | _, _ => false

theorem endsClear_scattered : endsClear titledCells scattered = true := by decide +kernel

theorem readAll_assemble_end_scattered :
    ∃ (out : Text) (ls : List (Line Float)) (e : Line Float),
      assemble titledCells scattered = .ok out ∧ readAll out = .ok (ls ++ [e]) ∧
      e.isProgramEnd = true ∧ ∀ l ∈ ls, l.isProgramEnd = false := by
  have h := endsClear_scattered
  unfold endsClear at h
  split at h
  next out bs hout hbs =>
    simp only [Bool.and_eq_true, decide_eq_true_eq] at h
    obtain ⟨⟨hc, hb⟩, hw⟩ := h
    obtain ⟨ls, e, hread, hend, hopen⟩ := readAll_assemble_end hout hc hb fun bs' hbs' ↦ by
      rw [hbs, Except.ok.injEq] at hbs'
      exact hbs' ▸ hw
    exact ⟨out, ls, e, hout, hread, hend, hopen⟩
  next => cases h

end Binary

end Assembly

end StepAndRepeat
