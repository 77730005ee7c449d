import StepAndRepeat.Proofs.Replication.Origin

namespace StepAndRepeat.Assembly

variable {α : Type}

/-- Every run is copied for every instance, and no other. -/
structure Covers (bs : List (Block α)) (is : List (Instance α)) (rs : List (List (Line α))) :
    Prop where
  cell_mem : ∀ b ∈ bs, b.cell ∈ is
  pieces_subset : ∀ b ∈ bs, b.pieces ⊆ rs
  exists_block : ∀ i ∈ is, ∀ r ∈ rs, ∃ b ∈ bs, b.cell = i ∧ r ∈ b.pieces

theorem map_cells (o : Order α) : (cells o).map (·.1.1) = o.instances := by
  have h : (cells o).map (·.1.1) = ((cells o).map Prod.fst).map Prod.fst := by
    rw [List.map_map]
    rfl
  rw [h, cells, List.zipIdx_map_fst, map_marked]

theorem mem_instances {o : Order α} {c : (Instance α × Bool) × Nat} (h : c ∈ cells o) :
    c.1.1 ∈ o.instances := by
  rw [← map_cells o]
  exact List.mem_map_of_mem h

theorem exists_cell {o : Order α} {i : Instance α} (h : i ∈ o.instances) :
    ∃ c ∈ cells o, c.1.1 = i := by
  rw [← map_cells o] at h
  exact List.mem_map.1 h

theorem exists_block_pass (k : Nat) (i : Instance α) (last : Bool) (before : List (Line α))
    {ss : List ((Int × Segment α) × Bool)} {t : (Int × Segment α) × Bool} (h : t ∈ ss) :
    ∃ b ∈ Stretch.blocks (pass k i last before ss), b.cell = i ∧ t.1.2.lines ∈ b.pieces := by
  induction ss generalizing before with
  | nil => simp at h
  | cons u ss ih =>
    obtain ⟨⟨n, s⟩, lastSegment⟩ := u
    simp only [pass, Stretch.blocks_note, Stretch.blocks_block]
    rcases List.mem_cons.1 h with rfl | h
    · exact ⟨_, List.mem_cons_self, rfl, List.mem_singleton_self _⟩
    · obtain ⟨b, hb, hc⟩ := ih (before ++ s.lines) h
      exact ⟨b, List.mem_cons_of_mem _ hb, hc⟩

theorem exists_mem_group {ts : List (Int × Segment α)} {t : Int × Segment α} (h : t ∈ ts) :
    ∃ g ∈ Segment.group [] ts, t.2 ∈ g.2 := by
  have hm : t ∈ ts.filter (·.1 = t.1) := List.mem_filter.2 ⟨h, by simp⟩
  rcases Segment.filter_group t.1 ts with ⟨-, hn⟩ | hg
  · rw [hn] at hm
    simp at hm
  · have hmem : (t.1, (ts.filter (·.1 = t.1)).map (·.2)) ∈ Segment.group [] ts :=
      List.mem_of_mem_filter (hg ▸ List.mem_singleton_self _)
    exact ⟨_, hmem, List.mem_map_of_mem hm⟩

theorem covers_standard (o : Order α) (ts : List (Int × Segment α)) :
    Covers ((cells o).flatMap fun c ↦ Stretch.blocks (pass c.2 c.1.1 c.1.2 [] (marked ts)))
      o.instances (ts.map (·.2.lines)) where
  cell_mem b hb := by
    obtain ⟨c, hc, hb⟩ := List.mem_flatMap.1 hb
    obtain ⟨ps, n, s, last, ks, -, rfl⟩ := mem_pass hb
    exact mem_instances hc
  pieces_subset b hb r hr := by
    obtain ⟨c, hc, hb⟩ := List.mem_flatMap.1 hb
    obtain ⟨ps, n, s, last, ks, ht, rfl⟩ := mem_pass hb
    have hm : (n, s) ∈ (marked ts).map (·.1) := by simp [ht]
    rw [map_marked] at hm
    rw [List.mem_singleton.1 hr]
    exact List.mem_map_of_mem (f := fun t : Int × Segment α ↦ t.2.lines) hm
  exists_block i hi r hr := by
    obtain ⟨c, hc, rfl⟩ := exists_cell hi
    obtain ⟨t, ht, rfl⟩ := List.mem_map.1 hr
    rw [← map_marked ts] at ht
    obtain ⟨u, hu, rfl⟩ := List.mem_map.1 ht
    obtain ⟨b, hb, hbc⟩ := exists_block_pass c.2 c.1.1 c.1.2 [] hu
    exact ⟨b, List.mem_flatMap.2 ⟨c, hc, hb⟩, hbc⟩

theorem covers_sorted (o : Order α) (ts : List (Int × Segment α)) :
    Covers ((Segment.group [] ts).flatMap fun g ↦ (cells o).map (toolBlock g.1 g.2))
      o.instances (ts.map (·.2.lines)) where
  cell_mem b hb := by
    obtain ⟨g, -, hb⟩ := List.mem_flatMap.1 hb
    obtain ⟨c, hc, rfl⟩ := List.mem_map.1 hb
    exact mem_instances hc
  pieces_subset b hb r hr := by
    obtain ⟨g, hg, hb⟩ := List.mem_flatMap.1 hb
    obtain ⟨c, -, rfl⟩ := List.mem_map.1 hb
    obtain ⟨s, hs, rfl⟩ := List.mem_map.1 hr
    obtain ⟨t, ht, rfl⟩ := Segment.mem_of_mem_group hg hs
    exact List.mem_map_of_mem (f := fun t : Int × Segment α ↦ t.2.lines) ht
  exists_block i hi r hr := by
    obtain ⟨c, hc, rfl⟩ := exists_cell hi
    obtain ⟨t, ht, rfl⟩ := List.mem_map.1 hr
    obtain ⟨g, hg, htg⟩ := exists_mem_group ht
    refine ⟨toolBlock g.1 g.2 c, ?_, rfl, List.mem_map_of_mem htg⟩
    exact List.mem_flatMap.2 ⟨g, hg, List.mem_map_of_mem hc⟩

end StepAndRepeat.Assembly
