import StepAndRepeat.Proofs.Extent.Ranges
import StepAndRepeat.Proofs.Replication.Coverage
import StepAndRepeat.Proofs.Replication.Placing

namespace StepAndRepeat

open Assembly

section Output

variable {a : Axis}

theorem isIdle_actOf_of_noted {t : Text} (h : Noted t) (a : Axis) :
    (Line.actOf a t : Act ℝ).isIdle = true := by
  obtain ⟨l, hl⟩ := Line.exists_readAt 0 t
  rw [Line.actOf_eq hl]
  refine Line.isIdle_act (fun k hk ↦ ?_) a
  rcases h.onlyMT hl k hk with h | h <;> rw [h] <;> decide

theorem Stretch.filter_entries (s : Stretch ℝ) (hs : s.IsSound)
    (hb : ∀ b, s = .block b → b.IsTame) (a : Axis) :
    (s.entries.map fun e ↦ Line.actOf a e.text).filter (fun a ↦ !a.isIdle) =
      (s.acts a).filter fun a ↦ !a.isIdle := by
  cases s with
  | note t =>
    have hi : (Line.actOf a t : Act ℝ).isIdle = true := isIdle_actOf_of_noted hs a
    simp [entries, acts, Entry.text, hi]
  | verbatim ls =>
    have ht : ((verbatim ls).entries.map fun e ↦ Line.actOf a e.text) = ls.map (Line.act a) := by
      rw [entries, Entry.verbatim, List.map_map]
      exact List.map_congr_left fun l hl ↦ Line.actOf_eq (hs l hl).1 a
    rw [ht, acts]
  | block b =>
    rw [← (hb b rfl).filter_copies a, entries, List.map_map]
    rfl

variable {o : Order ℝ} {program out : Text} {ss : List (Stretch ℝ)} {outs : List (Line ℝ)}

theorem filter_acts_output (ho : assemble o program = .ok out) (hout : Line.readAll out = .ok outs)
    (hss : stretches o program = .ok ss) (hbanner : ∀ t ∈ o.banner, IsRemark t)
    (hb : ∀ b, Stretch.block b ∈ ss → b.IsTame) (a : Axis) :
    (outs.map (Line.act a)).filter (fun a ↦ !a.isIdle) =
      (ss.flatMap (Stretch.acts a)).filter fun a ↦ !a.isIdle := by
  rw [readAll_assemble ho hss hbanner] at hout
  rw [Line.map_act_readFrom hout, List.map_map, List.map_flatMap, List.filter_flatMap,
    List.filter_flatMap]
  apply List.flatMap_congr
  intro s hs
  exact s.filter_entries (isSound_stretches hss hbanner s hs) (fun b h ↦ hb b (h ▸ hs)) a

end Output

section Body

variable {α : Type}

namespace Stretch

def Own (ss : List (Stretch α)) : Prop := ∀ s ∈ ss, ∀ ls, s ≠ verbatim ls

theorem own_append {ss ts : List (Stretch α)} (hs : Own ss) (ht : Own ts) : Own (ss ++ ts) :=
  fun s h ↦ (List.mem_append.1 h).elim (hs s) (ht s)

theorem own_flatMap {β : Type} {bs : List β} {f : β → List (Stretch α)} (h : ∀ b ∈ bs, Own (f b)) :
    Own (bs.flatMap f) := by
  intro s hs
  obtain ⟨b, hb, hs⟩ := List.mem_flatMap.1 hs
  exact h b hb s hs

theorem own_notes (ts : List Text) : Own (ts.map note : List (Stretch α)) := by
  intro s hs ls
  obtain ⟨t, -, rfl⟩ := List.mem_map.1 hs
  simp

theorem flatMap_acts_of_own {ss : List (Stretch ℝ)} (h : Own ss) (a : Axis) :
    ss.flatMap (acts a) = (blocks ss).flatMap fun b ↦ (block b).acts a := by
  induction ss with
  | nil => rfl
  | cons s ss ih =>
    have ih' := ih fun t ht ↦ h t (by simp [ht])
    cases s with
    | note t => exact ih'
    | verbatim ls => exact absurd rfl (h (.verbatim ls) (by simp) ls)
    | block b => rw [List.flatMap_cons, ih', blocks_block, List.flatMap_cons]

end Stretch

theorem own_pass (k : Nat) (i : Instance α) (last : Bool) (before : List (Line α))
    (ss : List ((Int × Segment α) × Bool)) : Stretch.Own (pass k i last before ss) := by
  induction ss generalizing before with
  | nil => simp [Assembly.pass, Stretch.Own]
  | cons t ss ih =>
    obtain ⟨⟨n, s⟩, lastSegment⟩ := t
    intro r hr ls
    simp only [Assembly.pass, List.mem_cons] at hr
    rcases hr with rfl | rfl | rfl | hr
    · simp
    · simp
    · simp
    · exact ih _ r hr ls

theorem flatMap_acts_headerStretches (ls : List (Line ℝ)) (a : Axis) :
    (headerStretches ls).flatMap (Stretch.acts a) = ls.map (Line.act a) := by
  unfold headerStretches
  cases ls with
  | nil => rfl
  | cons l ls => simp [Stretch.acts]

theorem flatMap_acts_standard (o : Order ℝ) (head : List (Line ℝ)) (ts : List (Int × Segment ℝ))
    (a : Axis) :
    (standardStretches o head ts).flatMap (Stretch.acts a) = head.map (Line.act a) ++
      (Stretch.blocks (standardStretches o head ts)).flatMap
        fun b ↦ (Stretch.block b).acts a := by
  have hown : Stretch.Own ((cells o).flatMap fun c ↦
      [.note (partNote o.totalParts c.1.1), .note (offsetNote c.1.1), .note []] ++
        pass c.2 c.1.1 c.1.2 [] (marked ts)) :=
    Stretch.own_flatMap fun c _ ↦ Stretch.own_append
      (Stretch.own_notes [partNote o.totalParts c.1.1, offsetNote c.1.1, []]) (own_pass _ _ _ _ _)
  rw [standardStretches, List.flatMap_append, List.flatMap_append,
    flatMap_acts_headerStretches, Stretch.flatMap_acts_of_own hown]
  simp [Stretch.acts]

theorem flatMap_acts_sorted (o : Order ℝ) (head : List (Line ℝ)) (ts : List (Int × Segment ℝ))
    (gs : List (Int × List (Segment ℝ))) (a : Axis) :
    (sortedStretches o head ts gs).flatMap (Stretch.acts a) = head.map (Line.act a) ++
      (Stretch.blocks (sortedStretches o head ts gs)).flatMap
        fun b ↦ (Stretch.block b).acts a := by
  have hblock (n : Int) (i : Instance ℝ) (b : Block ℝ) :
      Stretch.Own [.note (toolPartNote n i), .note (offsetNote i), .block b, .note []] := by
    intro s hs ls
    simp only [List.mem_cons, List.not_mem_nil, or_false] at hs
    rcases hs with rfl | rfl | rfl | rfl <;> simp
  have hown : Stretch.Own (gs.flatMap fun (n, group) ↦
      [.note (toolNote n), .note (toolChange n), .note []] ++
        (cells o).flatMap fun c ↦
          [.note (toolPartNote n c.1.1), .note (offsetNote c.1.1),
            .block (toolBlock n group c), .note []]) :=
    Stretch.own_flatMap fun g _ ↦ Stretch.own_append
      (Stretch.own_notes [toolNote g.1, toolChange g.1, []])
      (Stretch.own_flatMap fun c _ ↦ hblock g.1 c.1.1 _)
  rw [sortedStretches, List.flatMap_append, List.flatMap_append, flatMap_acts_headerStretches,
    Stretch.flatMap_acts_of_own hown]
  simp [Stretch.acts]

theorem exists_body (o : Order ℝ) {ls : List (Line ℝ)} (ht : Segment.tools ls ≠ []) :
    ∃ body, bodyStretches o ls = .ok body ∧
      Covers (Stretch.blocks body) o.instances ((Segment.tools ls).map (·.2.lines)) ∧
      (∀ b ∈ Stretch.blocks body, Drawn o ls b) ∧
      ∀ a, body.flatMap (Stretch.acts a) = (Segment.cut ls).1.map (Line.act a) ++
        (Stretch.blocks body).flatMap fun b ↦ (Stretch.block b).acts a := by
  have he : ¬ (Segment.tools ls).isEmpty = true := by rwa [List.isEmpty_iff]
  cases hs : o.sortByTool with
  | true =>
    refine ⟨_, by rw [bodyStretches, if_neg he, hs, if_pos rfl], ?_, fun b hb ↦ ?_,
      flatMap_acts_sorted o _ _ _⟩
    · rw [blocks_sorted]
      exact covers_sorted o _
    · rw [blocks_sorted] at hb
      obtain ⟨g, hg, hb⟩ := List.mem_flatMap.1 hb
      obtain ⟨c, hc, rfl⟩ := List.mem_map.1 hb
      exact drawn_of_group hc hg
  | false =>
    refine ⟨_, by rw [bodyStretches, if_neg he, hs, if_neg (by decide)], ?_, fun b hb ↦ ?_,
      flatMap_acts_standard o _ _⟩
    · rw [blocks_standard]
      exact covers_standard o _
    · rw [blocks_standard] at hb
      obtain ⟨c, hc, hb⟩ := List.mem_flatMap.1 hb
      exact drawn_of_pass hc hb

end Body

section Footprint

variable {o : Order ℝ} {program : Text} {ls : List (Line ℝ)}

def ReadsBack (o : Order ℝ) (ss : List (Segment ℝ)) : Prop :=
  ∀ i ∈ o.instances, ∀ s ∈ ss, s.isHeader = false → ∀ l ∈ s.lines, l.isMachineMove = false →
    i.offset.ReadsBack l

theorem isTame_of_drawn (hp : SelfPlacing ls (Segment.split (SelfPlacing.working ls)))
    (hs : ∀ l ∈ ls, l.IsSound) (hr : ReadsBack o (Segment.split (SelfPlacing.working ls)))
    {b : Block ℝ} (hd : Drawn o (SelfPlacing.working ls) b) (hi : b.cell ∈ o.instances)
    (hpieces : b.pieces ⊆ (Segment.tools (SelfPlacing.working ls)).map (·.2.lines)) :
    b.IsTame := by
  have hread : b.read ⊆ ls := fun l hl ↦
    SelfPlacing.working_subset (hd.read_sublist.subset hl)
  have hlines : b.lines ⊆ ls := fun l hl ↦ hread (List.mem_append_right _ hl)
  refine ⟨fun l hl ↦ hs l (hlines hl), fun l hl ↦ ?_, fun l hl hstop a ↦ ?_, fun l hl hm ↦ ?_⟩
  · exact (hp.isStraight_act (hread hl) .x).1
  · exact SelfPlacing.isIdle_act_of_letters (hp.bare l (hlines hl) (.inl hstop)) a
  · obtain ⟨r, hrb, hlr⟩ := List.mem_flatten.1 hl
    obtain ⟨t, ht, rfl⟩ := List.mem_map.1 (hpieces hrb)
    obtain ⟨hmem, hh⟩ := Segment.mem_split_of_mem_tools ht
    exact hr b.cell hi t.2 hmem hh l hlr hm

/-- What a block gathers is what its runs gather, moved. -/
theorem mem_trace_blocks {bs : List (Block ℝ)} {a : Axis} {m : Motion} {p : ℝ}
    (h : ∀ b ∈ bs, ∀ r ∈ b.pieces, Act.Steady (r.map (Line.act a))) {v : ℝ} :
    v ∈ Act.trace m p (bs.flatMap fun b ↦ (Stretch.block b).acts a) ↔
      ∃ b ∈ bs, ∃ r ∈ b.pieces, ∃ w ∈ Act.trace m p (r.map (Line.act a)),
        v = w + b.cell.offset.on a := by
  have hflat : (bs.flatMap fun b ↦ (Stretch.block b).acts a) =
      (bs.flatMap fun b ↦ b.pieces.map fun r ↦
        (r.map (Line.act a)).map (Act.shift (b.cell.offset.on a))).flatten := by
    rw [← List.flatMap_id, List.flatMap_assoc]
    apply List.flatMap_congr
    intro b _
    rw [Stretch.acts, Block.lines, List.map_flatten, List.map_flatten, List.flatMap_id,
      List.map_map]
    rfl
  have hsteady : ∀ as ∈ bs.flatMap fun b ↦ b.pieces.map fun r ↦
      (r.map (Line.act a)).map (Act.shift (b.cell.offset.on a)), Act.Steady as := by
    intro as has
    obtain ⟨b, hb, has⟩ := List.mem_flatMap.1 has
    obtain ⟨r, hr, rfl⟩ := List.mem_map.1 has
    exact (h b hb r hr).shift _
  rw [hflat, Act.trace_flatten hsteady, List.mem_flatMap]
  constructor
  · rintro ⟨as, has, hv⟩
    obtain ⟨b, hb, has⟩ := List.mem_flatMap.1 has
    obtain ⟨r, hr, rfl⟩ := List.mem_map.1 has
    rw [(h b hb r hr).trace_shift] at hv
    obtain ⟨w, hw, rfl⟩ := List.mem_map.1 hv
    exact ⟨b, hb, r, hr, w, hw, rfl⟩
  · rintro ⟨b, hb, r, hr, w, hw, rfl⟩
    refine ⟨_, List.mem_flatMap.2 ⟨b, hb, List.mem_map_of_mem hr⟩, ?_⟩
    rw [(h b hb r hr).trace_shift]
    exact List.mem_map_of_mem (f := (· + b.cell.offset.on a)) hw

theorem segments_eq {ss : List (Segment ℝ)} (hl : Line.readAll program = .ok ls)
    (hss : Segment.ofProgram program = .ok ss) (hp : SelfPlacing ls ss) :
    ss = Segment.split (SelfPlacing.working ls) := by
  simp only [Segment.ofProgram, hl, bind, Except.bind, Ending.cleanAll_eq_filter hp.ends, pure,
    Except.pure, Except.ok.injEq] at hss
  exact hss.symm

/-- The stretches of the assembled program do what the header does, and then what blocks do that
copy each segment for each instance. -/
theorem exists_stretches (hl : Line.readAll program = .ok ls)
    (hp : SelfPlacing ls (Segment.split (SelfPlacing.working ls))) :
    ∃ ss, stretches o program = .ok ss ∧
      Covers (Stretch.blocks ss) o.instances
        ((Segment.tools (SelfPlacing.working ls)).map (·.2.lines)) ∧
      (∀ b ∈ Stretch.blocks ss, Drawn o (SelfPlacing.working ls) b) ∧
      ∀ a, ss.flatMap (Stretch.acts a) =
        (Segment.cut (SelfPlacing.working ls)).1.map (Line.act a) ++
          (Stretch.blocks ss).flatMap fun b ↦ (Stretch.block b).acts a := by
  have htools : Segment.tools (SelfPlacing.working ls) ≠ [] := by
    rw [← Segment.tooled_split]
    exact hp.tooled_ne_nil
  obtain ⟨body, hbody, hcover, hdrawn, hacts⟩ := exists_body o htools
  have hblocks : Stretch.blocks (o.banner.map Stretch.note ++ body ++ [Stretch.note programEnd]) =
      Stretch.blocks body := by simp
  have hnotes (a : Axis) : (o.banner.map Stretch.note).flatMap (Stretch.acts a) = [] := by
    rw [Stretch.flatMap_acts_of_own (Stretch.own_notes _), Stretch.blocks_map_note,
      List.flatMap_nil]
  refine ⟨o.banner.map Stretch.note ++ body ++ [Stretch.note programEnd], ?_, hblocks ▸ hcover,
    hblocks ▸ hdrawn, fun a ↦ ?_⟩
  · simp only [stretches, hl, bind, Except.bind, Ending.cleanAll_eq_filter hp.ends]
    rw [← SelfPlacing.working, hbody]
    rfl
  · rw [hblocks, List.flatMap_append, List.flatMap_append, hnotes, hacts]
    simp [Stretch.acts]

/-- The assembled program is written and can be read again, has neither steps nor arcs, and
gathers what the program gathers, moved by the shift of each instance. -/
theorem exists_output (hl : Line.readAll program = .ok ls)
    (hp : SelfPlacing ls (Segment.split (SelfPlacing.working ls)))
    (hr : ReadsBack o (Segment.split (SelfPlacing.working ls)))
    (hbanner : ∀ t ∈ o.banner, IsRemark t) :
    ∃ out outs, assemble o program = .ok out ∧ Line.readAll out = .ok outs ∧
      (∀ a, ∀ l ∈ outs, (l.act a).IsStraight) ∧
      ∀ a, a ≠ .z → ∀ p v, v ∈ Act.trace .rapid p (outs.map (Line.act a)) ↔
        ∃ i ∈ o.instances, ∃ w ∈ Act.trace .rapid p (ls.map (Line.act a)),
          v = w + i.offset.on a := by
  have hs := Line.isSound_of_readAll hl
  have hn := Line.map_index_readAll hl
  obtain ⟨ss, hss, hcover, hdrawn, hacts⟩ := exists_stretches (o := o) hl hp
  have htame : ∀ b ∈ Stretch.blocks ss, b.IsTame := fun b hb ↦
    isTame_of_drawn hp hs hr (hdrawn b hb) (hcover.cell_mem b hb) (hcover.pieces_subset b hb)
  obtain ⟨out, hout⟩ : ∃ out, assemble o program = .ok out := by
    rw [assemble, entries_of_stretches hss]
    exact ⟨_, rfl⟩
  obtain ⟨outs, houts⟩ := Line.exists_readAll out
  have hfilter (a : Axis) := filter_acts_output hout houts hss hbanner
    (fun b hb ↦ htame b (Stretch.mem_blocks hb)) a
  refine ⟨out, outs, hout, houts, fun a l hlo ↦ ?_, fun a ha p v ↦ ?_⟩
  · cases hi : (l.act a).isIdle with
    | true =>
      simp only [Act.isIdle, Bool.and_eq_true, Option.isNone_iff_eq_none] at hi
      exact ⟨by simp [hi.1.1], by simp [hi.1.2]⟩
    | false =>
      have hm : l.act a ∈ (outs.map (Line.act a)).filter fun a ↦ !a.isIdle :=
        List.mem_filter.2 ⟨List.mem_map_of_mem hlo, by simp [hi]⟩
      rw [hfilter, hacts] at hm
      rcases List.mem_append.1 (List.mem_of_mem_filter hm) with hm | hm
      · obtain ⟨k, hk, he⟩ := List.mem_map.1 hm
        have hkl := SelfPlacing.working_subset ((Segment.cut_isPrefix _).subset hk)
        exact he ▸ hp.isStraight_act hkl a
      · obtain ⟨b, hb, hm⟩ := List.mem_flatMap.1 hm
        obtain ⟨k, hk, he⟩ := List.mem_map.1 hm
        obtain ⟨j, hj, rfl⟩ := List.mem_map.1 hk
        have hjl := SelfPlacing.working_subset
          ((hdrawn b hb).read_sublist.subset (List.mem_append_right _ hj))
        exact he ▸ hp.isStraight_act hjl a
  · have hsteady : ∀ b ∈ Stretch.blocks ss, ∀ r ∈ b.pieces, Act.Steady (r.map (Line.act a)) := by
      intro b hb r hrb
      obtain ⟨t, ht, rfl⟩ := List.mem_map.1 (hcover.pieces_subset b hb hrb)
      exact hp.steady hs ht ha
    have hblocks (m : Motion) (q : ℝ) := mem_trace_blocks (m := m) (p := q) hsteady (v := v)
    rw [Act.trace_eq_of_filter (hfilter a), hacts, Act.trace_append, hp.trace_header hn ha,
      List.nil_append, hblocks, hp.trace_eq hn hs ha]
    constructor
    · rintro ⟨b, hb, r, hrb, w, hw, rfl⟩
      obtain ⟨t, ht, rfl⟩ := List.mem_map.1 (hcover.pieces_subset b hb hrb)
      rw [hp.steady hs ht ha _ _ .rapid p] at hw
      exact ⟨b.cell, hcover.cell_mem b hb, w, List.mem_flatMap.2 ⟨t, ht, hw⟩, rfl⟩
    · rintro ⟨i, hi, w, hw, rfl⟩
      obtain ⟨t, ht, hw⟩ := List.mem_flatMap.1 hw
      obtain ⟨b, hb, rfl, hrb⟩ := hcover.exists_block i hi _
        (List.mem_map_of_mem (f := fun t : Int × Segment ℝ ↦ t.2.lines) ht)
      refine ⟨b, hb, t.2.lines, hrb, w, ?_, rfl⟩
      rwa [hp.steady hs ht ha _ _ .rapid p]

end Footprint

end StepAndRepeat
