import Mathlib.Data.List.Flatten
import StepAndRepeat.Proofs.Program.Cleaning
import StepAndRepeat.Proofs.Replication.Strategies

namespace StepAndRepeat

variable {α : Type}

namespace Block

def read (b : Block α) : List (Line α) := b.before ++ b.lines

end Block

namespace Assembly

variable [Coordinate α]

/-- The ways in which a block is drawn from lines without end words. -/
inductive Drawn (o : Order α) (ls : List (Line α)) : Block α → Prop
  | cutting {c : (Instance α × Bool) × Nat} (hc : c ∈ cells o) :
      Drawn o ls (cuttingBlock (Phases.split ls).cutting c)
  | segment {c : (Instance α × Bool) × Nat} (hc : c ∈ cells o)
      {ps ks : List ((Int × Segment α) × Bool)} {n : Int} {s : Segment α} {last : Bool}
      (ht : marked (Segment.tools ls) = ps ++ ((n, s), last) :: ks) :
      Drawn o ls ⟨c.2, c.1.1, some n, !(c.1.2 && last), ps.flatMap (·.1.2.lines), [s.lines]⟩
  | tool {c : (Instance α × Bool) × Nat} (hc : c ∈ cells o) (n : Int) :
      Drawn o ls (toolBlock n (((Segment.tools ls).filter (·.1 = n)).map (·.2)) c)

theorem drawn_of_pass {o : Order α} {ls : List (Line α)} {c : (Instance α × Bool) × Nat}
    (hc : c ∈ cells o) {b : Block α}
    (h : b ∈ Stretch.blocks (pass c.2 c.1.1 c.1.2 [] (marked (Segment.tools ls)))) :
    Drawn o ls b := by
  obtain ⟨ps, n, s, last, ks, ht, rfl⟩ := mem_pass h
  exact .segment hc ht

theorem drawn_of_group {o : Order α} {ls : List (Line α)} {c : (Instance α × Bool) × Nat}
    (hc : c ∈ cells o) {g : Int × List (Segment α)}
    (h : g ∈ Segment.group [] (Segment.tools ls)) : Drawn o ls (toolBlock g.1 g.2 c) := by
  rw [Segment.eq_filter_of_mem_group h]
  exact .tool hc g.1

/-- The blocks of a program: of its cutting phase, of the segments of each tool, or of the segments
in turn. -/
theorem blocks_cases {o : Order α} {program : Text} {bs : List (Block α)}
    (h : blocks o program = .ok bs) :
    ∃ ls rs, Line.readAll program = .ok ls ∧ Ending.cleanAll ls = .ok rs ∧
      ((∃ p, Phases.ofLines (Segment.cut rs).1 = .ok p ∧
          bs = (cells o).map (cuttingBlock p.cutting)) ∨
        (o.sortByTool = true ∧ bs = (Segment.group [] (Segment.tools rs)).flatMap fun g ↦
          (cells o).map (toolBlock g.1 g.2)) ∨
        (o.sortByTool = false ∧ bs = (cells o).flatMap fun c ↦
          Stretch.blocks (pass c.2 c.1.1 c.1.2 [] (marked (Segment.tools rs))))) := by
  rw [blocks_eq] at h
  cases hl : (Line.readAll program : Except LineFault (List (Line α))) with
  | error e => simp [hl, bind, Except.bind] at h
  | ok ls =>
    cases hr : Ending.cleanAll ls with
    | error e => simp [hl, hr, bind, Except.bind] at h
    | ok rs =>
      simp only [hl, hr, bind, Except.bind] at h
      refine ⟨ls, rs, rfl, hr, ?_⟩
      cases ht : (Segment.tools rs).isEmpty with
      | true =>
        rw [blocks_body_of_isEmpty ht] at h
        cases hp : Phases.ofLines (Segment.cut rs).1 with
        | error e => simp [hp, Except.map] at h
        | ok p =>
          simp only [hp, Except.map, Except.ok.injEq] at h
          exact .inl ⟨p, rfl, h.symm⟩
      | false =>
        rw [blocks_body ht, Except.ok.injEq] at h
        cases hs : o.sortByTool with
        | true => exact .inr (.inl ⟨rfl, by rw [← h, hs, if_pos rfl]⟩)
        | false => exact .inr (.inr ⟨rfl, by rw [← h, hs, if_neg Bool.false_ne_true]⟩)

/-- Every block is drawn from what end words leave of the first lines of the program. -/
theorem mem_blocks {o : Order α} {program : Text} {bs : List (Block α)} {b : Block α}
    (h : blocks o program = .ok bs) (hb : b ∈ bs) :
    ∃ ls ks rs, Line.readAll program = .ok (ls ++ ks) ∧ Ending.CleansAll ls rs ∧
      Drawn o rs b := by
  obtain ⟨all, rs, hl, hr, hcases⟩ := blocks_cases h
  have hall := Ending.cleansAll_of_cleanAll hr
  rcases hcases with ⟨p, hp, rfl⟩ | ⟨-, rfl⟩ | ⟨-, rfl⟩
  · obtain ⟨xs, hx⟩ := Segment.cut_isPrefix rs
    rw [← hx] at hall
    obtain ⟨ls, ks, rfl, hls, -⟩ := hall.split
    obtain ⟨ms, hm, rfl⟩ := Phases.exists_of_ofLines hp
    obtain ⟨c, hc, rfl⟩ := List.mem_map.1 hb
    exact ⟨ls, ks, ms, hl, hls.trans_cleanAll hm, .cutting hc⟩
  · obtain ⟨g, hg, hb⟩ := List.mem_flatMap.1 hb
    obtain ⟨c, hc, rfl⟩ := List.mem_map.1 hb
    exact ⟨all, [], rs, by rw [hl, List.append_nil], hall, drawn_of_group hc hg⟩
  · obtain ⟨c, hc, hb⟩ := List.mem_flatMap.1 hb
    exact ⟨all, [], rs, by rw [hl, List.append_nil], hall, drawn_of_pass hc hb⟩

theorem flatMap_marked {β γ : Type} (bs : List β) (f : β → List γ) :
    (marked bs).flatMap (fun t ↦ f t.1) = bs.flatMap f := by
  rw [← List.flatMap_map, map_marked]

theorem Drawn.read_sublist {o : Order α} {ls : List (Line α)} {b : Block α} (h : Drawn o ls b) :
    b.read.Sublist ls := by
  cases h with
  | cutting hc =>
    have hs : ((Phases.split ls).cutting).Sublist ls :=
      (List.takeWhile_sublist _).trans (List.dropWhile_sublist _)
    simpa [Block.read, Block.lines, cuttingBlock] using hs
  | @segment c hc ps ks n s last ht =>
    have hm := flatMap_marked (Segment.tools ls) (·.2.lines)
    rw [ht, List.flatMap_append, List.flatMap_cons, ← List.append_assoc] at hm
    have hs : (ps.flatMap (·.1.2.lines) ++ s.lines).Sublist ls :=
      (List.sublist_append_left _ _).trans (hm ▸ Segment.tools_sublist ls)
    simpa [Block.read, Block.lines] using hs
  | @tool c hc n =>
    have hs : (((Segment.tools ls).filter (·.1 = n)).flatMap (·.2.lines)).Sublist ls :=
      (List.filter_sublist.flatMap _).trans (Segment.tools_sublist ls)
    simpa [Block.read, Block.lines, toolBlock, List.flatMap_def, Function.comp_def] using hs

end Assembly

end StepAndRepeat
