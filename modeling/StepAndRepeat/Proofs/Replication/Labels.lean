import Mathlib.Data.List.Induction
import StepAndRepeat.Proofs.Replication.Incremental

namespace StepAndRepeat

variable {α : Type} [Coordinate α]

theorem Line.IsRead.not_isComment_of_isOperationStart {l : Line α} (hl : l.IsRead)
    (h : l.isOperationStart = true) : l.isComment = false := by
  by_contra hc
  rw [Bool.not_eq_false, isComment, decide_eq_true_eq] at hc
  have hw : l.words = [] := by
    rw [(readAt_fields hl).2.2.2, if_neg]
    rw [← hl.kind_eq, hc]
    decide
  simp [isOperationStart, isSpindleStart, has, hw] at h

namespace LabelHold

theorem feed_of_held {h : LabelHold α} {label : Copy α} (hh : h.held = some label) (c : Copy α)
    (leaveOut : Bool) :
    (leaveOut = false ∧ c.line.isOperationStart = true ∧ (h.feed c leaveOut).2 = [label, c]) ∨
    (c.line.isComment = true ∧ (h.feed c leaveOut).2 = [] ∧
      (h.feed c leaveOut).1.held = some c) ∨
    ((leaveOut = true ∨ c.line.isOperationStart = false) ∧ (h.feed c leaveOut).2 ⊆ [c] ∧
      (h.feed c leaveOut).1.held = some label) := by
  cases leaveOut with
  | true => exact .inr (.inr ⟨.inl rfl, by simp [feed], hh⟩)
  | false =>
    simp only [feed, hh, Bool.false_eq_true, ↓reduceIte]
    split
    next hl =>
      simp only [Bool.and_eq_true] at hl
      exact .inr (.inl ⟨hl.1.2, rfl, rfl⟩)
    next =>
      cases hs : c.line.isOperationStart with
      | true => exact .inl ⟨trivial, rfl, rfl⟩
      | false => exact .inr (.inr ⟨.inr rfl, List.Subset.refl _, rfl⟩)

end LabelHold

namespace Replay

variable {o : Offset α} {dropStops : Bool} {r : Replay α}

theorem run_append (r : Replay α) (ls ks : List (Line α)) :
    run o dropStops r (ls ++ ks) = ((run o dropStops (run o dropStops r ls).1 ks).1,
      (run o dropStops r ls).2 ++ (run o dropStops (run o dropStops r ls).1 ks).2) := by
  induction ls generalizing r with
  | nil => rfl
  | cons l ls ih => simp only [List.cons_append, run, ih, List.append_assoc]

theorem held_run {ls : List (Line α)} {c : Copy α}
    (h : (run o dropStops r ls).1.hold.held = some c) :
    c ∈ o.rewrites r.modes ls ∨ r.hold.held = some c := by
  induction ls generalizing r with
  | nil => exact .inr h
  | cons l ls ih =>
    rcases ih h with h | h
    · exact .inl (List.mem_cons_of_mem _ h)
    · simp only [step] at h
      rcases r.hold.feed_cases ⟨l, (o.step r.modes l).2⟩ (dropStops && l.isSpindleStop) with
        ⟨-, -, hh⟩ | ⟨-, -, -, hh⟩ | ⟨_, -, -, -, hh⟩ | ⟨-, -, hh⟩ <;> rw [hh] at h
      · exact .inr h
      · exact .inl (by rw [← Option.some_inj.1 h]; exact List.mem_cons_self)
      · simp at h
      · exact .inr h

theorem index_ne_of_held {m : Modes} {ls : List (Line α)} (hp : ls.Pairwise (·.index < ·.index))
    {c : Copy α} (hc : (run o dropStops { modes := m } ls).1.hold.held = some c) :
    ∀ k ∈ (run o dropStops { modes := m } ls).2, k.line.index ≠ c.line.index := by
  -- from the end, since what is held at the end may have come with the last line
  induction ls using List.reverseRecOn with
  | nil => simp [run]
  | append_singleton ls l ih =>
    obtain ⟨hls, -, hlt⟩ := List.pairwise_append.1 hp
    have hbefore {x : Line α} (hx : x ∈ ls) : x.index ≠ l.index :=
      (hlt x hx l (List.mem_singleton_self l)).ne
    have hwritten : ∀ k ∈ (run o dropStops { modes := m } ls).2, k.line.index ≠ l.index :=
      fun k hk ↦ hbefore (o.line_mem (mem_lines hk))
    have hheld (h : (run o dropStops { modes := m } ls).1.hold.held = some c) :
        c.line.index ≠ l.index :=
      hbefore (o.line_mem ((held_run h).resolve_right (by simp)))
    rw [run_append] at hc ⊢
    specialize ih hls
    generalize run o dropStops { modes := m } ls = q at *
    simp only [run, step, List.append_nil] at hc ⊢
    intro k hk
    rcases q.1.hold.feed_cases ⟨l, (o.step q.1.modes l).2⟩ (dropStops && l.isSpindleStop) with
      ⟨-, hw, hh⟩ | ⟨-, -, hw, hh⟩ | ⟨_, -, -, hw, hh⟩ | ⟨-, hw, hh⟩ <;>
      simp only [hh, hw, List.append_nil, List.mem_append, List.mem_singleton] at hc hk
    · exact ih hc k hk
    · rw [← Option.some_inj.1 hc]
      exact hwritten k hk
    · cases hc
    · rcases hk with hk | rfl
      · exact ih hc k hk
      · exact (hheld hc).symm

/-- A held label is written further on: the lines come to one that begins an operation and is not
left out, and the label is still held there. -/
def Releases (o : Offset α) (dropStops : Bool) (r : Replay α) (c : Copy α) (ls : List (Line α)) :
    Prop :=
  ∃ us x vs, ls = us ++ x :: vs ∧ x.isOperationStart = true ∧
    (dropStops && x.isSpindleStop) = false ∧ (run o dropStops r us).1.hold.held = some c

theorem releases_cons {c : Copy α} {l : Line α} {ls : List (Line α)} :
    Releases o dropStops r c (l :: ls) ↔
      (l.isOperationStart = true ∧ (dropStops && l.isSpindleStop) = false ∧
        r.hold.held = some c) ∨
      Releases o dropStops (step o dropStops r l).1 c ls := by
  constructor
  · rintro ⟨us, x, vs, he, hx⟩
    cases us with
    | nil =>
      obtain ⟨rfl, rfl⟩ := List.cons.inj he
      exact .inl hx
    | cons u us =>
      obtain ⟨rfl, rfl⟩ := List.cons.inj he
      exact .inr ⟨us, x, vs, rfl, hx⟩
  · rintro (hl | ⟨us, x, vs, rfl, hx⟩)
    · exact ⟨[], l, ls, rfl, hl⟩
    · exact ⟨l :: us, x, vs, rfl, hx⟩

theorem not_releases_of_held_ne {c d : Copy α} {ls : List (Line α)} (hd : r.hold.held = some d)
    (hne : d.line.index ≠ c.line.index) (hls : ∀ l ∈ ls, l.index ≠ c.line.index) :
    ¬ Releases o dropStops r c ls := by
  rintro ⟨us, x, vs, rfl, -, -, hh⟩
  rcases held_run hh with h | h
  · exact hls c.line (List.mem_append_left _ (o.line_mem h)) rfl
  · exact hne (congrArg (·.line.index) (Option.some_inj.1 (hd.symm.trans h)))

theorem exists_copy_iff_releases {c : Copy α} {ls : List (Line α)} (hc : r.hold.held = some c)
    (hne : ∀ l ∈ ls, l.index ≠ c.line.index) (hread : ∀ l ∈ ls, l.IsRead) :
    (∃ k ∈ (run o dropStops r ls).2, k.line.index = c.line.index) ↔
      Releases o dropStops r c ls := by
  induction ls generalizing r with
  | nil => simp [run, Releases]
  | cons l ls ih =>
    obtain ⟨hl, hls⟩ := List.forall_mem_cons.1 hne
    obtain ⟨hlr, hlsr⟩ := List.forall_mem_cons.1 hread
    rw [releases_cons]
    rcases LabelHold.feed_of_held hc ⟨l, (o.step r.modes l).2⟩ (dropStops && l.isSpindleStop) with
      ⟨hw, hs, hm⟩ | ⟨hcomment, hw, hh⟩ | ⟨hw, hs, hh⟩
    · refine iff_of_true ⟨c, List.mem_append_left _ ?_, rfl⟩ (.inl ⟨hs, hw, hc⟩)
      rw [step, hm]
      exact List.mem_cons_self
    · -- another label has taken the place
      refine iff_of_false ?_ (not_or.2 ⟨?_, not_releases_of_held_ne hh hl hls⟩)
      · rintro ⟨k, hk, hi⟩
        rw [run, step, hw, List.nil_append] at hk
        rcases mem_run hk with h | h
        · exact hls k.line (o.line_mem h) hi
        · rw [hh] at h
          exact hl ((congrArg (·.line.index) (Option.some_inj.1 h)).trans hi)
      · rintro ⟨hs, -⟩
        rw [hlr.not_isComment_of_isOperationStart hs] at hcomment
        cases hcomment
    · rw [or_iff_right fun h ↦ ?_, ← ih hh hls hlsr]
      · refine exists_congr fun k ↦ ?_
        rw [run, List.mem_append]
        refine and_congr_left fun hi ↦ or_iff_right fun hk ↦ hl ?_
        rw [← hi, List.mem_singleton.1 (hs hk)]
      · obtain ⟨hstart, hleft, -⟩ := h
        simp [hstart, hleft] at hw

/-- A released label is written right before the operation that takes it. -/
theorem Releases.exists_eq {c : Copy α} {ls : List (Line α)} (h : Releases o dropStops r c ls)
    (hread : ∀ l ∈ ls, l.IsRead) :
    ∃ as k bs, (run o dropStops r ls).2 = as ++ c :: k :: bs ∧ k.line ∈ ls ∧
      k.line.isOperationStart = true := by
  obtain ⟨us, x, vs, rfl, hs, hleft, hc⟩ := h
  have hx : x ∈ us ++ x :: vs := List.mem_append_right _ List.mem_cons_self
  have hcode := (hread x hx).not_isComment_of_isOperationStart hs
  rw [run_append, run]
  generalize (run o dropStops r us).1 = q at *
  rcases LabelHold.feed_of_held hc ⟨x, (o.step q.modes x).2⟩ (dropStops && x.isSpindleStop) with
    ⟨-, -, hw⟩ | ⟨hcomment, -⟩ | ⟨hw, -⟩
  · refine ⟨(run o dropStops r us).2, ⟨x, (o.step q.modes x).2⟩,
      (run o dropStops (step o dropStops q x).1 vs).2, ?_, hx, hs⟩
    rw [step, hw]
    rfl
  · cases hcode.symm.trans hcomment
  · simp [hleft, hs] at hw

end Replay

namespace Segment

omit [Coordinate α] in
theorem eq_of_index_eq {ls : List (Line α)} (hp : ls.Pairwise (·.index < ·.index))
    {t u : Int × Segment α} (ht : t ∈ tools ls) (hu : u ∈ tools ls) {l k : Line α}
    (hl : l ∈ t.2.lines) (hk : k ∈ u.2.lines) (h : l.index = k.index) : t = u := by
  have hapart := (List.pairwise_flatMap.1 (hp.sublist (tools_sublist ls))).2
  refine List.Pairwise.forall_of_forall_of_flip
    (R := fun t u ↦ ∀ l ∈ t.2.lines, ∀ k ∈ u.2.lines, l.index = k.index → t = u)
    (fun _ _ _ _ _ _ _ ↦ rfl) (hapart.imp fun hlt l hl k hk he ↦ ?_)
    (hapart.imp fun hlt l hl k hk he ↦ ?_) ht hu l hl k hk h
  · exact absurd he (hlt l hl k hk).ne
  · exact absurd he (hlt k hk l hl).ne'

end Segment

namespace Block

def replayed (b : Block α) (ls : List (Line α)) : Replay α × List (Copy α) :=
  Replay.run b.cell.offset b.dropStops { modes := Modes.through {} b.before } ls

/-- The label that is held when the segments of a block are copied up to one of them. -/
def heldAt (b : Block α) (j : Nat) : Option (Copy α) :=
  (b.replayed (b.pieces.take (j + 1)).flatten).1.hold.held

/-- A label that is held at the end of a segment is written in a later segment of the block. -/
def Leaks (b : Block α) (j : Nat) (c : Copy α) : Prop :=
  Replay.Releases b.cell.offset b.dropStops (b.replayed (b.pieces.take (j + 1)).flatten).1 c
    (b.pieces.drop (j + 1)).flatten

omit [Coordinate α] in
theorem lines_eq_at (b : Block α) (j : Nat) :
    b.lines = (b.pieces.take (j + 1)).flatten ++ (b.pieces.drop (j + 1)).flatten := by
  rw [lines, ← List.flatten_append, List.take_append_drop]

theorem copies_eq_at (b : Block α) (j : Nat) :
    b.copies = (b.replayed (b.pieces.take (j + 1)).flatten).2 ++ (Replay.run b.cell.offset
      b.dropStops (b.replayed (b.pieces.take (j + 1)).flatten).1
      (b.pieces.drop (j + 1)).flatten).2 := by
  rw [copies, Replay.lines, lines_eq_at b j, Replay.run_append]
  rfl

theorem line_mem_of_heldAt {b : Block α} {j : Nat} {c : Copy α} (hc : b.heldAt j = some c) :
    c.line ∈ (b.pieces.take (j + 1)).flatten :=
  Offset.line_mem _ ((Replay.held_run hc).resolve_right (by simp))

section Held

variable {b : Block α} {j : Nat} {c : Copy α} (hr : ∀ l ∈ b.lines, l.IsRead)
include hr

theorem exists_copy_iff_leaks (hp : b.lines.Pairwise (·.index < ·.index))
    (hc : b.heldAt j = some c) :
    (∃ k ∈ b.copies, k.line.index = c.line.index) ↔ b.Leaks j c := by
  rw [lines_eq_at b j] at hp hr
  obtain ⟨hbefore, -, hlater⟩ := List.pairwise_append.1 hp
  rw [Leaks, ← Replay.exists_copy_iff_releases hc
    (fun k hk ↦ (hlater c.line (line_mem_of_heldAt hc) k hk).ne')
    fun k hk ↦ hr k (List.mem_append_right _ hk)]
  refine exists_congr fun k ↦ and_congr_left fun hk ↦ ?_
  rw [copies_eq_at b j, List.mem_append]
  exact or_iff_right fun hm ↦ Replay.index_ne_of_held hbefore hc k hm hk

theorem Leaks.exists_eq (h : b.Leaks j c) :
    ∃ as k bs, b.copies = as ++ c :: k :: bs ∧ k.line ∈ (b.pieces.drop (j + 1)).flatten ∧
      k.line.isOperationStart = true := by
  rw [lines_eq_at b j] at hr
  obtain ⟨as, k, bs, he, hk⟩ := Replay.Releases.exists_eq h fun l hl ↦
    hr l (List.mem_append_right _ hl)
  exact ⟨_, k, bs, by rw [copies_eq_at b j, he, ← List.append_assoc], hk⟩

end Held

end Block

namespace Assembly

theorem isRead_of_mem_read {o : Order α} {program : Text} {bs : List (Block α)} {b : Block α}
    (hbs : blocks o program = .ok bs) (hb : b ∈ bs) : ∀ l ∈ b.read, l.IsRead := by
  obtain ⟨ls, ks, rs, hall, hc, hd⟩ := mem_blocks hbs hb
  have hsound := Line.isSound_of_readAll hall
  intro l hl
  exact (hc.isSound (fun k hk ↦ hsound k (List.mem_append_left _ hk))
    (hd.read_sublist.subset hl)).1

omit [Coordinate α] in
theorem exists_tool_of_mem_toolBlock {ts : List (Int × Segment α)} {g : Int × List (Segment α)}
    (hg : g ∈ Segment.group [] ts) {c : (Instance α × Bool) × Nat} {l : Line α}
    (hl : l ∈ (toolBlock g.1 g.2 c).lines) : ∃ t ∈ ts, t.1 = g.1 ∧ l ∈ t.2.lines := by
  simp only [Block.lines, toolBlock, Segment.eq_filter_of_mem_group hg, List.map_map,
    List.mem_flatten, List.mem_map, List.mem_filter, decide_eq_true_eq] at hl
  obtain ⟨_, ⟨t, ⟨ht, hn⟩, rfl⟩, hl⟩ := hl
  exact ⟨t, ht, hn, hl⟩

omit [Coordinate α] in
theorem exists_tool_of_mem_pass {k : Nat} {i : Instance α} {last : Bool}
    {before : List (Line α)} {ts : List (Int × Segment α)} {b : Block α}
    (hb : b ∈ Stretch.blocks (pass k i last before (marked ts))) :
    ∃ t ∈ ts, b.pieces = [t.2.lines] := by
  obtain ⟨ps, n, s, lastSegment, qs, hm, rfl⟩ := mem_pass hb
  refine ⟨(n, s), ?_, rfl⟩
  rw [← map_marked ts, hm]
  exact List.mem_map_of_mem (List.mem_append_right _ List.mem_cons_self)

theorem pieces_eq_of_index_eq {o : Order α} {program : Text} {bs : List (Block α)}
    {a b : Block α} (hbs : blocks o program = .ok bs) (ha : a ∈ bs) (hb : b ∈ bs)
    {l k : Line α} (hl : l ∈ a.lines) (hk : k ∈ b.lines) (h : l.index = k.index) :
    a.pieces = b.pieces := by
  obtain ⟨ls, rs, hall, hclean, hcases⟩ := blocks_cases hbs
  have hp : rs.Pairwise (·.index < ·.index) :=
    (Ending.cleansAll_of_cleanAll hclean).pairwise_index
      (Line.pairwise_index (Line.map_index_readAll hall))
  rcases hcases with ⟨p, -, rfl⟩ | ⟨-, rfl⟩ | ⟨-, rfl⟩
  · obtain ⟨c, -, rfl⟩ := List.mem_map.1 ha
    obtain ⟨d, -, rfl⟩ := List.mem_map.1 hb
    rfl
  · obtain ⟨f, hf, ha⟩ := List.mem_flatMap.1 ha
    obtain ⟨c, -, rfl⟩ := List.mem_map.1 ha
    obtain ⟨g, hg, hb⟩ := List.mem_flatMap.1 hb
    obtain ⟨d, -, rfl⟩ := List.mem_map.1 hb
    obtain ⟨t, ht, htf, hlt⟩ := exists_tool_of_mem_toolBlock hf hl
    obtain ⟨u, hu, hug, hku⟩ := exists_tool_of_mem_toolBlock hg hk
    have hfg : f.1 = g.1 := by rw [← htf, Segment.eq_of_index_eq hp ht hu hlt hku h, hug]
    rw [toolBlock, toolBlock, Segment.eq_filter_of_mem_group hf,
      Segment.eq_filter_of_mem_group hg, hfg]
  · obtain ⟨c, -, ha⟩ := List.mem_flatMap.1 ha
    obtain ⟨d, -, hb⟩ := List.mem_flatMap.1 hb
    obtain ⟨t, ht, hat⟩ := exists_tool_of_mem_pass ha
    obtain ⟨u, hu, hbu⟩ := exists_tool_of_mem_pass hb
    rw [Block.lines, hat, List.flatten_singleton] at hl
    rw [Block.lines, hbu, List.flatten_singleton] at hk
    rw [hat, hbu, Segment.eq_of_index_eq hp ht hu hl hk h]

/-- Unless the program is sorted, a block copies one segment, or the cutting phase. -/
theorem exists_pieces_eq_singleton {o : Order α} {program : Text} {bs : List (Block α)}
    {b : Block α} (hbs : blocks o program = .ok bs) (hb : b ∈ bs) (hs : o.sortByTool = false) :
    ∃ ls, b.pieces = [ls] := by
  obtain ⟨_, _, -, -, ⟨p, -, rfl⟩ | ⟨hsorted, -⟩ | ⟨-, rfl⟩⟩ := blocks_cases hbs
  · obtain ⟨c, -, rfl⟩ := List.mem_map.1 hb
    exact ⟨p.cutting, rfl⟩
  · cases hs.symm.trans hsorted
  · obtain ⟨c, -, hb⟩ := List.mem_flatMap.1 hb
    obtain ⟨t, -, ht⟩ := exists_tool_of_mem_pass hb
    exact ⟨t.2.lines, ht⟩

/-- A label that is held at the end of a segment is written in its block just if a later segment
of the block begins an operation while it is held, and then before that operation. No block of other
segments writes it, and unless the program is sorted by tool it is not written. -/
theorem written_iff_leaks {o : Order α} {program : Text} {bs : List (Block α)} {b : Block α}
    (hbs : blocks o program = .ok bs) (hb : b ∈ bs) {j : Nat} {c : Copy α}
    (hc : b.heldAt j = some c) :
    ((∃ k ∈ b.copies, k.line.index = c.line.index) ↔ b.Leaks j c) ∧
      (b.Leaks j c → ∃ as k cs, b.copies = as ++ c :: k :: cs ∧
        k.line ∈ (b.pieces.drop (j + 1)).flatten ∧ k.line.isOperationStart = true) ∧
      (∀ a ∈ bs, (∃ k ∈ a.copies, k.line.index = c.line.index) → a.pieces = b.pieces) ∧
      (o.sortByTool = false → ∀ k ∈ b.copies, k.line.index ≠ c.line.index) := by
  have hp := pairwise_index_read hbs hb
  rw [Block.read] at hp
  have hr : ∀ l ∈ b.lines, l.IsRead := fun l hl ↦
    isRead_of_mem_read hbs hb l (List.mem_append_right _ hl)
  have hleaks := Block.exists_copy_iff_leaks hr (List.pairwise_append.1 hp).2.1 hc
  refine ⟨hleaks, Block.Leaks.exists_eq hr, ?_, fun hs k hk hi ↦ ?_⟩
  · rintro a ha ⟨k, hk, hi⟩
    have hka : k.line ∈ a.lines := Offset.line_mem _ (Replay.mem_lines hk)
    have hcb : c.line ∈ b.lines :=
      b.lines_eq_at j ▸ List.mem_append_left _ (Block.line_mem_of_heldAt hc)
    exact pieces_eq_of_index_eq hbs ha hb hka hcb hi
  · obtain ⟨q, hq⟩ := exists_pieces_eq_singleton hbs hb hs
    obtain ⟨us, x, vs, he, -⟩ := hleaks.1 ⟨k, hk, hi⟩
    simp [hq] at he

section Orphan

def orphan : Text := "T1 M6\nG0 X1\nG53 G0 Z0\n(Orphan)\nT2 M6\nG0 X2\nT1 M6\nG0 X3".toList

def holdsLabel (o : Order Float) (written : Bool) : Bool :=
  match blocks o orphan with
  | .ok bs => bs.any fun b ↦ (b.heldAt 0).any fun c ↦
      b.copies.any (·.line.index = c.line.index) = written
  | .error _ => false

theorem holdsLabel_orphan : holdsLabel twoCells false = true ∧
    holdsLabel { twoCells with sortByTool := true } true = true := by
  decide +kernel

theorem exists_of_holdsLabel {o : Order Float} {written : Bool}
    (h : holdsLabel o written = true) :
    ∃ bs, blocks o orphan = .ok bs ∧ ∃ b ∈ bs, ∃ c, b.heldAt 0 = some c ∧
      b.copies.any (·.line.index = c.line.index) = written := by
  unfold holdsLabel at h
  split at h
  next bs hbs =>
    obtain ⟨b, hb, h⟩ := List.any_eq_true.1 h
    obtain ⟨c, hc, h⟩ := (Option.any_eq_true _ _).1 h
    exact ⟨bs, hbs, b, hb, c, hc, of_decide_eq_true h⟩
  next => cases h

theorem written_iff_leaks_orphan :
    (∃ bs, blocks twoCells orphan = .ok bs ∧ ∃ b ∈ bs, ∃ c, b.heldAt 0 = some c ∧
      ∀ k ∈ b.copies, k.line.index ≠ c.line.index) ∧
    ∃ bs, blocks { twoCells with sortByTool := true } orphan = .ok bs ∧
      ∃ b ∈ bs, ∃ c, b.heldAt 0 = some c ∧
        (∃ k ∈ b.copies, k.line.index = c.line.index) ∧ b.Leaks 0 c ∧
        ∃ as k cs, b.copies = as ++ c :: k :: cs ∧
          k.line ∈ (b.pieces.drop 1).flatten ∧ k.line.isOperationStart = true := by
  constructor
  · obtain ⟨bs, hbs, b, hb, c, hc, -⟩ := exists_of_holdsLabel holdsLabel_orphan.1
    exact ⟨bs, hbs, b, hb, c, hc, (written_iff_leaks hbs hb hc).2.2.2 rfl⟩
  · obtain ⟨bs, hbs, b, hb, c, hc, hw⟩ := exists_of_holdsLabel holdsLabel_orphan.2
    obtain ⟨k, hk, hi⟩ := List.any_eq_true.1 hw
    have hwritten : ∃ k ∈ b.copies, k.line.index = c.line.index := ⟨k, hk, of_decide_eq_true hi⟩
    obtain ⟨hiff, hbefore, -⟩ := written_iff_leaks hbs hb hc
    have hleaks := hiff.1 hwritten
    exact ⟨bs, hbs, b, hb, c, hc, hwritten, hleaks, hbefore hleaks⟩

def DropsLabels (o : Order Float) (program : Text) : Prop :=
  match blocks o program with
  | .ok bs => ∀ b ∈ bs, ∀ j < b.pieces.length, ∀ c ∈ b.heldAt j,
      c.line.index ∈ (b.pieces.getD j []).map Line.index →
        ∀ k ∈ b.copies, k.line.index ≠ c.line.index
  | .error _ => True

instance (o : Order Float) (program : Text) : Decidable (DropsLabels o program) := by
  unfold DropsLabels
  split <;> infer_instance

theorem not_dropsLabels : ¬ DropsLabels { twoCells with sortByTool := true } orphan := by
  decide +kernel

end Orphan

end Assembly

end StepAndRepeat
