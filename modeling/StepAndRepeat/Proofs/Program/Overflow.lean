import StepAndRepeat.Proofs.Program.Cleaning
import StepAndRepeat.Proofs.Text.Trimming

namespace StepAndRepeat

theorem exists_map_eq_ok {ε β γ : Type} {x : Except ε β} {f : β → γ} :
    (∃ c, x.map f = .ok c) ↔ ∃ b, x = .ok b := by
  cases x <;> simp [Except.map]

variable {α : Type} [Coordinate α]

namespace Line

variable (α) in
/-- The line calls for a tool, and the number of the tool has no whole part. -/
structure Overflows (t : Text) : Prop where
  isCode : kindOf t = .code
  isEndless : ∃ w : Word α, (Word.ofLine t).find? (·.letter = 'T') = some w ∧
    Coordinate.trunc? w.value = none
  isCall : (Word.ofLine t : List (Word α)).any (·.isCode 'M' 6) = true ∨
    (Word.ofLine t : List (Word α)).length = 1

theorem exists_toolOf_iff {ws : List (Word α)} : (∃ n?, toolOf ws = .ok n?) ↔
    ¬ ((∃ w, ws.find? (·.letter = 'T') = some w ∧ Coordinate.trunc? w.value = none) ∧
      (ws.any (·.isCode 'M' 6) = true ∨ ws.length = 1)) := by
  unfold toolOf
  cases ws.find? (·.letter = 'T') with
  | none => simp
  | some w =>
    by_cases hcall : ws.any (·.isCode 'M' 6) = true ∨ ws.length = 1
    · have hcall' : (ws.any (·.isCode 'M' 6) || decide (ws.length = 1)) = true := by
        simpa using hcall
      dsimp only
      rw [if_pos hcall']
      cases htrunc : Coordinate.trunc? w.value with
      | none => exact iff_of_false (by simp) fun h ↦ h ⟨⟨w, rfl, htrunc⟩, hcall⟩
      | some n =>
        refine iff_of_true ⟨some n, rfl⟩ ?_
        rintro ⟨⟨v, hv, hnone⟩, -⟩
        obtain rfl := Option.some_inj.1 hv
        simp [htrunc] at hnone
    · have hcall' : ¬ (ws.any (·.isCode 'M' 6) || decide (ws.length = 1)) = true := by
        simpa using hcall
      dsimp only
      rw [if_neg hcall']
      exact iff_of_true ⟨none, rfl⟩ fun h ↦ hcall h.2

theorem exists_readAt_iff {i : Nat} {t : Text} :
    (∃ l : Line α, readAt i t = .ok l) ↔ ¬ Overflows α t := by
  by_cases hk : kindOf t = .code
  · have hread : (readAt i t : Except LineFault (Line α)) =
        (toolOf (Word.ofLine t : List (Word α))).map
          fun tool ↦ ⟨i, t, .code, Word.ofLine t, tool⟩ := by
      rw [readAt, hk]
    rw [hread, exists_map_eq_ok, exists_toolOf_iff, not_iff_not]
    exact ⟨fun h ↦ ⟨hk, h.1, h.2⟩, fun h ↦ ⟨h.isEndless, h.isCall⟩⟩
  · obtain ⟨l, hl, -⟩ := exists_readAt_of_not_code (α := α) hk i
    exact iff_of_true ⟨l, hl⟩ fun h ↦ hk h.isCode

theorem exists_readFrom_iff {i : Nat} {ts : List Text} :
    (∃ ls : List (Line α), readFrom i ts = .ok ls) ↔ ∀ t ∈ ts, ¬ Overflows α t := by
  constructor
  · rintro ⟨ls, hls⟩ t ht
    exact exists_readAt_iff.1 (exists_readAt_of_readFrom hls ht i)
  · intro h
    exact exists_readFrom_of_forall (fun t ht ↦ exists_readAt_iff.2 (h t ht)) i

theorem exists_readAll_iff {program : Text} :
    (∃ ls : List (Line α), readAll program = .ok ls) ↔
      ∀ t ∈ Text.lines program, ¬ Overflows α t := exists_readFrom_iff

theorem IsRead.not_overflows {l : Line α} (h : l.IsRead) : ¬ Overflows α l.text :=
  exists_readAt_iff.1 ⟨l, h⟩

end Line

def hugeTool : Text := 'T' :: List.replicate 400 '9'

namespace Ending

def left (l : Line α) : List Text := if l.isProgramEnd then (strip l).toList else [l.text]

theorem exists_clean_iff {l : Line α} (hl : l.IsRead) :
    (∃ rs, clean l = .ok rs) ↔ ∀ t ∈ left l, ¬ Line.Overflows α t := by
  unfold clean left
  split
  next =>
    cases strip l with
    | none => simp
    | some t =>
      simp only [exists_map_eq_ok, Line.exists_readAt_iff, Option.toList_some, List.mem_singleton,
        forall_eq]
  next =>
    exact iff_of_true ⟨[l], rfl⟩ fun t ht ↦ List.mem_singleton.1 ht ▸ hl.not_overflows

theorem map_text_of_clean {l : Line α} {rs : List (Line α)} (h : clean l = .ok rs) :
    rs.map Line.text = left l := by
  rcases clean_cases h with ⟨he, rfl⟩ | ⟨he, hs, rfl⟩ | ⟨t, r, he, hs, hr, rfl⟩
  · simp [left, he]
  · simp [left, he, hs]
  · simp [left, he, hs, (Line.readAt_fields hr).2.1]

theorem sublist_withoutEnds (ps : List LinePart) :
    (withoutEnds α ps).Sublist (ps.flatMap LinePart.text) := by
  induction ps with
  | nil => exact .slnil
  | cons p ps ih =>
    rw [withoutEnds, List.flatMap_cons]
    split
    · exact ((List.dropWhile_sublist _).trans ih).trans (List.sublist_append_right _ _)
    · exact ih.append_left _

theorem length_le_of_mem_left {l : Line α} {t : Text} (h : t ∈ left l) :
    t.length ≤ l.text.length := by
  unfold left at h
  split at h
  next =>
    unfold strip at h
    split at h
    · rw [List.mem_singleton.1 h, Text.trimEnd, Text.dropEndWhile_eq]
      have hsub := sublist_withoutEnds (α := α) (LinePart.ofLine l.text)
      rw [LinePart.flatMap_text_ofLine] at hsub
      exact ((List.rdropWhile_prefix _ _).sublist.trans hsub).length_le
    · simp at h
  next => exact (List.mem_singleton.1 h ▸ le_rfl)

theorem exists_cleanAll_cons_iff {l : Line α} {ls : List (Line α)} :
    (∃ rs, cleanAll (l :: ls) = .ok rs) ↔
      (∃ rs, clean l = .ok rs) ∧ ∃ rs, cleanAll ls = .ok rs := by
  constructor
  · rintro ⟨rs, hrs⟩
    obtain ⟨ks, rs', hk, hr, -⟩ := cleanAll_cons hrs
    exact ⟨⟨ks, hk⟩, rs', hr⟩
  · rintro ⟨⟨ks, hk⟩, rs, hr⟩
    unfold cleanAll at hr ⊢
    cases hls : ls.mapM clean with
    | error e => simp [hls, Except.map] at hr
    | ok kss =>
      rw [List.mapM_cons, hk, hls]
      exact ⟨_, rfl⟩

/-- End words can be taken out of lines just if what is left can be read. -/
theorem exists_cleanAll_iff {ls : List (Line α)} (hls : ∀ l ∈ ls, l.IsRead) :
    (∃ rs, cleanAll ls = .ok rs) ↔ ∀ l ∈ ls, ∀ t ∈ left l, ¬ Line.Overflows α t := by
  induction ls with
  | nil => exact iff_of_true ⟨[], rfl⟩ (by simp)
  | cons l ls ih =>
    rw [exists_cleanAll_cons_iff, exists_clean_iff (hls l (by simp)),
      ih fun k hk ↦ hls k (by simp [hk]), List.forall_mem_cons]

theorem map_text_of_cleanAll {ls rs : List (Line α)} (h : cleanAll ls = .ok rs) :
    rs.map Line.text = ls.flatMap left := by
  induction ls generalizing rs with
  | nil =>
    rw [← Except.ok.inj h]
    rfl
  | cons l ls ih =>
    obtain ⟨ks, rs', hk, hr, rfl⟩ := cleanAll_cons h
    rw [List.map_append, map_text_of_clean hk, ih hr, List.flatMap_cons]

theorem isRead_of_cleanAll {ls rs : List (Line α)} (hls : ∀ l ∈ ls, l.IsRead)
    (h : cleanAll ls = .ok rs) : ∀ r ∈ rs, r.IsRead := by
  induction ls generalizing rs with
  | nil =>
    rw [← Except.ok.inj h]
    simp
  | cons l ls ih =>
    obtain ⟨ks, rs', hk, hr, rfl⟩ := cleanAll_cons h
    have hks : ∀ k ∈ ks, k.IsRead := by
      rcases clean_cases hk with ⟨-, rfl⟩ | ⟨-, -, rfl⟩ | ⟨t, k, -, -, hread, rfl⟩
      · exact fun k hk ↦ List.mem_singleton.1 hk ▸ hls l (by simp)
      · simp
      · exact fun k' hk' ↦ List.mem_singleton.1 hk' ▸ Line.isRead_of_readAt hread
    intro r hr'
    rcases List.mem_append.1 hr' with hr' | hr'
    · exact hks r hr'
    · exact ih (fun k hk ↦ hls k (by simp [hk])) hr r hr'

end Ending

theorem Phases.exists_ofLines_iff {ls : List (Line α)} (hls : ∀ l ∈ ls, l.IsRead) :
    (∃ p, ofLines ls = .ok p) ↔ ∀ l ∈ ls, ∀ t ∈ Ending.left l, ¬ Line.Overflows α t := by
  rw [← Ending.exists_cleanAll_iff hls, ofLines, exists_map_eq_ok]

end StepAndRepeat
