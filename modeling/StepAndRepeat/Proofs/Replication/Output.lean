import StepAndRepeat.Proofs.Replication.Notes
import StepAndRepeat.Proofs.Replication.Origin
import StepAndRepeat.Proofs.Replication.Shifting

namespace StepAndRepeat

variable {α : Type} [Coordinate α]

open Text

namespace Stretch

/-- The lines of a stretch can be read again: notes are the assembly's own, and other lines come
from a program. -/
def IsSound : Stretch α → Prop
  | note t => Assembly.Noted t
  | verbatim ls => ∀ l ∈ ls, l.IsSound
  | block b => ∀ l ∈ b.lines, l.IsSound

def Of (N : Text → Prop) (L : Line α → Prop) : Stretch α → Prop
  | note t => N t
  | verbatim ls => ∀ l ∈ ls, L l
  | block b => ∀ l ∈ b.lines, L l

omit [Coordinate α] in
theorem Of.imp {N N' : Text → Prop} {L L' : Line α → Prop} (hN : ∀ t, N t → N' t)
    (hL : ∀ l, L l → L' l) {s : Stretch α} (h : s.Of N L) : s.Of N' L' := by
  cases s with
  | note t => exact hN t h
  | verbatim ls => exact fun l hl ↦ hL l (h l hl)
  | block b => exact fun l hl ↦ hL l (h l hl)

theorem isSound_of_of {s : Stretch α} (h : s.Of Assembly.Noted Line.IsSound) : s.IsSound := by
  cases s <;> exact h

omit [Coordinate α] in
theorem mem_blocks {b : Block α} {ss : List (Stretch α)} (h : block b ∈ ss) : b ∈ blocks ss := by
  induction ss with
  | nil => simp at h
  | cons s ss ih =>
    rcases List.mem_cons.1 h with he | hm
    · exact he ▸ List.mem_cons_self
    · cases s with
      | block b' => exact List.mem_cons_of_mem _ (ih hm)
      | note t => exact ih hm
      | verbatim ls => exact ih hm

omit [Coordinate α] in
theorem block_mem {b : Block α} {ss : List (Stretch α)} (h : b ∈ blocks ss) : block b ∈ ss := by
  induction ss with
  | nil => simp at h
  | cons s ss ih =>
    cases s with
    | block b' =>
      rcases List.mem_cons.1 h with rfl | h
      · exact List.mem_cons_self
      · exact List.mem_cons_of_mem _ (ih h)
    | note t => exact List.mem_cons_of_mem _ (ih h)
    | verbatim ls => exact List.mem_cons_of_mem _ (ih h)

end Stretch

namespace Offset

theorem copyText_cases (o : Offset α) (m : Modes) (l : Line α) :
    (applies m l = false ∧ o.copyText m l = l.text) ∨
      (applies m l = true ∧ l.kind = .code ∧ o.copyText m l = o.shiftText l.text) := by
  cases h : applies m l with
  | false => exact .inl ⟨rfl, by simp [copyText, h]⟩
  | true =>
    have hk : l.kind = .code := by
      simp only [applies, Bool.and_eq_true, decide_eq_true_eq] at h
      exact h.1.1.1
    exact .inr ⟨rfl, hk, by simp [copyText, h]⟩

theorem read_copyText {o : Offset α} {m : Modes} {l : Line α} (hl : l.IsRead)
    (ho : o.WritesDecimals l) {i : Nat} {r : Line α}
    (hr : Line.readAt i (o.copyText m l) = .ok r) :
    r.kind = l.kind ∧ r.keys = if applies m l then l.keys.map o.shiftKey else l.keys := by
  rcases o.copyText_cases m l with ⟨ha, ht⟩ | ⟨ha, hk, ht⟩
  · have h := hl.alike (ht ▸ hr)
    exact ⟨h.kind, by rw [ha, h.keys]; rfl⟩
  · obtain ⟨hkind, hkeys⟩ := read_shiftText hl hk ho (ht ▸ hr)
    exact ⟨hkind.trans hk.symm, by rw [ha, hkeys]; rfl⟩

theorem unbroken_copyText [OneLine α] (o : Offset α) (m : Modes) {l : Line α}
    (hl : l.IsSound) : Unbroken (o.copyText m l) := by
  rcases o.copyText_cases m l with ⟨-, ht⟩ | ⟨-, -, ht⟩
  · exact ht ▸ hl.2
  · exact ht ▸ unbroken_shiftText hl.2

end Offset

namespace Block

def WritesDecimals (b : Block α) : Prop :=
  ∀ c ∈ b.copies, c.text ≠ c.line.text → b.cell.offset.WritesDecimals c.line

theorem mem_copies {b : Block α} {c : Copy α} (h : c ∈ b.copies) :
    c.line ∈ b.lines ∧ ∃ ps ks, b.lines = ps ++ c.line :: ks ∧
      c.text = b.cell.offset.copyText (Modes.through {} (b.before ++ ps ++ [c.line])) c.line := by
  obtain ⟨ps, ks, hl, ht⟩ := Offset.mem_rewrites b.cell.offset (Replay.mem_lines h)
  refine ⟨by simp [hl], ps, ks, hl, ?_⟩
  rw [ht, ← Modes.through_append, ← List.append_assoc]

end Block

theorem Stretch.IsSound.unbroken [OneLine α] {s : Stretch α} (h : s.IsSound) :
    ∀ e ∈ s.entries, Unbroken e.text := by
  intro e he
  cases s with
  | note t =>
    rw [List.mem_singleton.1 he]
    exact Assembly.Noted.unbroken h
  | verbatim ls =>
    obtain ⟨l, hl, rfl⟩ := List.mem_map.1 he
    exact (h l hl).2
  | block b =>
    obtain ⟨c, hc, rfl⟩ := List.mem_map.1 he
    obtain ⟨hl, ps, ks, -, ht⟩ := Block.mem_copies hc
    rw [Entry.text, ht]
    exact Offset.unbroken_copyText _ _ (h c.line hl)

namespace Assembly

section Of

variable [OneLine α] {ls : List (Line α)} {N : Text → Prop} {L : Line α → Prop}
  (hN : ∀ t, IsRemark t → N t) (hL : ∀ l ∈ ls, L l)
include hN hL

omit [Coordinate α] [OneLine α] in
theorem of_header {ks : List (Line α)} (hk : ks ⊆ ls) : ∀ s ∈ headerStretches ks, s.Of N L := by
  unfold headerStretches
  split
  · simp
  · simp only [List.forall_mem_cons, List.not_mem_nil, false_imp_iff, implies_true, and_true]
    exact ⟨fun l hl ↦ hL l (hk hl), hN _ isRemark_nil⟩

omit [Coordinate α] [OneLine α] in
theorem of_pass {k : Nat} {i : Instance α} {last : Bool} {before : List (Line α)}
    {ss : List ((Int × Segment α) × Bool)}
    (hs : ∀ t ∈ ss, N (toolChange t.1.1) ∧ t.1.2.lines ⊆ ls) :
    ∀ s ∈ pass k i last before ss, s.Of N L := by
  induction ss generalizing before with
  | nil => simp [pass]
  | cons t ss ih =>
    obtain ⟨⟨n, s⟩, lastSegment⟩ := t
    simp only [pass, List.forall_mem_cons]
    obtain ⟨hn, hs'⟩ := hs ((n, s), lastSegment) (by simp)
    refine ⟨hn, fun l hl ↦ hL l (hs' ?_), hN _ isRemark_nil, ih fun t ht ↦ hs t (by simp [ht])⟩
    simpa [Block.lines] using hl

theorem of_standard {o : Order α} {head : List (Line α)} {ts : List (Int × Segment α)}
    (hh : head ⊆ ls) (ht : ∀ t ∈ ts, N (toolChange t.1) ∧ t.2.lines ⊆ ls) :
    ∀ s ∈ standardStretches o head ts, s.Of N L := by
  intro s hs
  simp only [standardStretches, List.mem_append, List.mem_cons, List.not_mem_nil, or_false,
    List.mem_flatMap] at hs
  rcases hs with ((rfl | rfl | rfl) | hs) | ⟨c, -, (rfl | rfl | rfl) | hs⟩
  · exact hN _ (isRemark_constant _ (by simp))
  · exact hN _ (isRemark_changesNote _)
  · exact hN _ isRemark_nil
  · exact of_header hN hL hh s hs
  · exact hN _ (isRemark_partNote _ _)
  · exact hN _ (isRemark_offsetNote _)
  · exact hN _ isRemark_nil
  · refine of_pass hN hL (fun t hm ↦ ?_) s hs
    have hmem : t.1 ∈ (marked ts).map (·.1) := List.mem_map_of_mem hm
    rw [map_marked] at hmem
    exact ht _ hmem

theorem of_sorted {o : Order α} {head : List (Line α)} {ts : List (Int × Segment α)}
    {gs : List (Int × List (Segment α))} (hh : head ⊆ ls)
    (hg : ∀ g ∈ gs, N (toolChange g.1) ∧ ∀ t ∈ g.2, t.lines ⊆ ls) :
    ∀ s ∈ sortedStretches o head ts gs, s.Of N L := by
  intro s hs
  simp only [sortedStretches, List.mem_append, List.mem_cons, List.not_mem_nil, or_false,
    List.mem_flatMap, Prod.exists] at hs
  rcases hs with ((rfl | rfl | rfl | rfl) | hs) |
    ⟨n, group, hm, (rfl | rfl | rfl) | ⟨i, last, k, -, rfl | rfl | rfl | rfl⟩⟩
  · exact hN _ (isRemark_constant _ (by simp))
  · exact hN _ (isRemark_toolsNote _)
  · exact hN _ (isRemark_reducedNote _ _)
  · exact hN _ isRemark_nil
  · exact of_header hN hL hh s hs
  · exact hN _ (isRemark_toolNote _)
  · exact (hg _ hm).1
  · exact hN _ isRemark_nil
  · exact hN _ (isRemark_toolPartNote _ _)
  · exact hN _ (isRemark_offsetNote _)
  · intro l hl
    simp only [Block.lines, toolBlock, List.mem_flatten, List.mem_map] at hl
    obtain ⟨_, ⟨t, ht, rfl⟩, hl⟩ := hl
    exact hL l ((hg _ hm).2 t ht hl)
  · exact hN _ isRemark_nil

theorem of_withoutTools {o : Order α} {p : Phases α} (hp : p.preamble ⊆ ls)
    (hc : p.cutting ⊆ ls) (hq : p.postamble ⊆ ls) :
    ∀ s ∈ withoutToolsStretches o p, s.Of N L := by
  intro s hs
  simp only [withoutToolsStretches, List.mem_append, List.mem_cons, List.not_mem_nil, or_false,
    List.mem_flatMap] at hs
  rcases hs with ((rfl | rfl | rfl | rfl) | ⟨c, -, rfl | rfl | rfl | rfl⟩) | rfl
  · exact hN _ (isRemark_constant _ (by simp))
  · exact hN _ isRemark_nil
  · exact fun l hl ↦ hL l (hp hl)
  · exact hN _ isRemark_nil
  · exact hN _ (isRemark_partNote _ _)
  · exact hN _ (isRemark_offsetNote _)
  · intro l hl
    exact hL l (hc (by simpa [Block.lines, cuttingBlock] using hl))
  · exact hN _ isRemark_nil
  · exact fun l hl ↦ hL l (hq hl)

omit hL in
/-- What holds of remarks, of the tool changes of lines, and of lines without their end words, holds
of what stands between banner and program end. -/
theorem of_body {o : Order α} {body : List (Stretch α)}
    (hT : ∀ t ∈ Segment.tools ls, N (toolChange t.1))
    (hC : ∀ l ∈ ls, ∀ r, Ending.Cleans l r → L r) (h : bodyStretches o ls = .ok body) :
    ∀ s ∈ body, s.Of N L := by
  have hL : ∀ l ∈ ls, L l := fun l hl ↦ hC l hl l (.refl l)
  have hhead : (Segment.cut ls).1 ⊆ ls := (Segment.cut_isPrefix ls).subset
  have htools : ∀ t ∈ Segment.tools ls, N (toolChange t.1) ∧ t.2.lines ⊆ ls :=
    fun t ht ↦ ⟨hT t ht, (Segment.lines_infix ht).subset⟩
  unfold bodyStretches at h
  split at h
  next =>
    cases hc : Ending.cleanAll (Segment.cut ls).1 with
    | error e => simp [Phases.ofLines, hc, Except.map] at h
    | ok rs =>
      simp only [Phases.ofLines, hc, Except.map, Except.ok.injEq] at h
      have hrs : ∀ r ∈ rs, L r := fun r hr ↦ by
        obtain ⟨l, hl, hlr⟩ := (Ending.cleansAll_of_cleanAll hc).mem hr
        exact hC l (hhead hl) r hlr
      rw [← h]
      refine of_withoutTools hN hrs (List.takeWhile_subset _) ?_ ?_
      · exact ((List.takeWhile_sublist _).trans (List.dropWhile_sublist _)).subset
      · exact ((List.dropWhile_sublist _).trans (List.dropWhile_sublist _)).subset
  next =>
    split at h
    · rw [← Except.ok.inj h]
      refine of_sorted hN hL hhead fun g hg ↦ ⟨?_, fun t ht ↦ ?_⟩
      · obtain ⟨t, ht, hn⟩ := Segment.exists_of_mem_group hg
        exact hn ▸ hT t ht
      · obtain ⟨u, hu, rfl⟩ := Segment.mem_of_mem_group hg ht
        exact (htools u hu).2
    · rw [← Except.ok.inj h]
      exact of_standard hN hL hhead htools

end Of

variable {o : Order α} {program : Text} {ss : List (Stretch α)}

theorem stretches_cases (h : stretches o program = .ok ss) :
    ∃ ls rs body, Line.readAll program = .ok ls ∧ Ending.cleanAll ls = .ok rs ∧
      bodyStretches o rs = .ok body ∧
      ss = o.banner.map .note ++ body ++ [.note programEnd] := by
  rw [stretches] at h
  cases hl : (Line.readAll program : Except LineFault (List (Line α))) with
  | error e => simp [hl, bind, Except.bind] at h
  | ok ls =>
    cases hr : Ending.cleanAll ls with
    | error e => simp [hl, hr, bind, Except.bind] at h
    | ok rs =>
      cases hb : bodyStretches o rs with
      | error e => simp [hl, hr, hb, bind, Except.bind] at h
      | ok body =>
        simp only [hl, hr, hb, bind, Except.bind, pure, Except.pure, Except.ok.injEq] at h
        exact ⟨ls, rs, body, rfl, hr, hb, h.symm⟩

theorem isSound_stretches [OneLine α] (h : stretches o program = .ok ss)
    (hb : ∀ t ∈ o.banner, IsRemark t) : ∀ s ∈ ss, s.IsSound := by
  obtain ⟨ls, rs, body, hl, hr, hbody, rfl⟩ := stretches_cases h
  have hrs : ∀ l ∈ rs, l.IsSound := fun l hm ↦
    (Ending.cleansAll_of_cleanAll hr).isSound (Line.isSound_of_readAll hl) hm
  intro s hs
  simp only [List.mem_append, List.mem_map, List.mem_singleton] at hs
  rcases hs with (⟨t, ht, rfl⟩ | hs) | rfl
  · exact .remark (hb t ht)
  · refine Stretch.isSound_of_of (of_body (fun _ ↦ .remark) (fun t _ ↦ .toolChange t.1) ?_ hbody s hs)
    exact fun l hl r hlr ↦ hlr.isSound (hrs l hl)
  · exact .programEnd

theorem entries_of_stretches (h : stretches o program = .ok ss) :
    entries o program = .ok (ss.flatMap Stretch.entries) := by
  rw [entries_eq, h]
  rfl

theorem getLast?_entries (h : stretches o program = .ok ss) :
    ((ss.flatMap Stretch.entries).map Entry.text).getLast? = some programEnd := by
  obtain ⟨ls, rs, body, -, -, -, rfl⟩ := stretches_cases h
  simp [Stretch.entries, Entry.text]

theorem lines_assemble {out : Text} (ho : assemble o program = .ok out)
    (h : stretches o program = .ok ss) (hu : ∀ s ∈ ss, ∀ e ∈ s.entries, Unbroken e.text) :
    lines out = (ss.flatMap Stretch.entries).map Entry.text := by
  rw [assemble, entries_of_stretches h] at ho
  rw [← Except.ok.inj ho, lines_join]
  · intro t ht
    obtain ⟨e, he, rfl⟩ := List.mem_map.1 ht
    obtain ⟨s, hs, he⟩ := List.mem_flatMap.1 he
    exact hu s hs e he
  · rw [getLast?_entries h]
    decide

theorem readAll_of_unbroken {out : Text} (ho : assemble o program = .ok out)
    (h : stretches o program = .ok ss) (hu : ∀ s ∈ ss, ∀ e ∈ s.entries, Unbroken e.text) :
    (Line.readAll out : Except LineFault (List (Line α))) =
      Line.readFrom 0 ((ss.flatMap Stretch.entries).map Entry.text) := by
  rw [Line.readAll, lines_assemble ho h hu]

/-- The lines of an assembled program are its entries. -/
theorem readAll_assemble [OneLine α] {out : Text} (ho : assemble o program = .ok out)
    (h : stretches o program = .ok ss) (hb : ∀ t ∈ o.banner, IsRemark t) :
    (Line.readAll out : Except LineFault (List (Line α))) =
      Line.readFrom 0 ((ss.flatMap Stretch.entries).map Entry.text) :=
  readAll_of_unbroken ho h fun s hs ↦ (isSound_stretches h hb s hs).unbroken

end Assembly

end StepAndRepeat
