import StepAndRepeat.Proofs.Replication.Origin

namespace StepAndRepeat.Assembly

variable {α : Type} [Coordinate α]

/-- The modes in force on a line when the program is read from its first line. -/
def sourceModes (ls : List (Line α)) (l : Line α) : Modes :=
  Modes.through {} (ls.take (l.index + 1))

theorem set?_of_mem_read {β : Type} {set? : Line α → Option β} {o : Order α} {program : Text}
    {ls : List (Line α)} {bs : List (Block α)} {b : Block α}
    (hl : Line.readAll program = .ok ls) (hbs : blocks o program = .ok bs) (hb : b ∈ bs)
    (hk : Ending.Keeps set? ls) {r : Line α} (hr : r ∈ b.read) :
    ∃ l ∈ ls, l.index = r.index ∧ set? r = set? l := by
  obtain ⟨ls₁, ls₂, rs, hall, hc, hd⟩ := mem_blocks hbs hb
  rw [hl, Except.ok.injEq] at hall
  obtain ⟨l, hm, hcl⟩ := hc.mem (hd.read_sublist.subset hr)
  have hml : l ∈ ls := hall ▸ List.mem_append_left ls₂ hm
  exact ⟨l, hml, hcl.index_eq.symm, hk l hml r hcl⟩

theorem pairwise_index_read {o : Order α} {program : Text} {bs : List (Block α)} {b : Block α}
    (hbs : blocks o program = .ok bs) (hb : b ∈ bs) :
    b.read.Pairwise (·.index < ·.index) := by
  obtain ⟨ls₁, ls₂, rs, hall, hc, hd⟩ := mem_blocks hbs hb
  have hp := Line.pairwise_index (Line.map_index_readAll hall)
  exact (hc.pairwise_index (List.pairwise_append.1 hp).1).sublist hd.read_sublist

/-- The lines that an instance has read up to a copy leave the distance mode of the program in
force, when they hold the line that last set it. -/
theorem through_read_distance {o : Order α} {program : Text} {ls : List (Line α)}
    {bs : List (Block α)} {b : Block α} {l s : Line α} {ps ks : List (Line α)}
    (hl : Line.readAll program = .ok ls) (hbs : blocks o program = .ok bs) (hb : b ∈ bs)
    (hk : Ending.Keeps Line.newDistance? ls) (hread : b.read = (ps ++ [l]) ++ ks)
    (hs : lastSet? Line.newDistance? (ls.take (l.index + 1)) = some s)
    (hsr : s.index ∈ b.read.map Line.index) :
    (Modes.through {} (ps ++ [l])).distance = (sourceModes ls l).distance := by
  have hn := Line.map_index_readAll hl
  have hp := pairwise_index_read hbs hb
  rw [hread] at hp
  obtain ⟨hfirst, -, hlater⟩ := List.pairwise_append.1 hp
  have hle : ∀ r ∈ ps ++ [l], r.index ≤ l.index := by
    intro r hr
    rcases List.mem_append.1 hr with hr | hr
    · exact Nat.le_of_lt ((List.pairwise_append.1 hfirst).2.2 r hr l (by simp))
    · exact Nat.le_of_eq (congrArg Line.index (List.mem_singleton.1 hr))
  rw [sourceModes, Modes.through_distance, Modes.through_distance]
  refine carry_eq_of_lastSet?_mem Line.index
    ((Line.pairwise_index hn).sublist (List.take_sublist _ _)) hfirst (fun r hr ↦ ?_) hs ?_ _ _
  · obtain ⟨k, hkm, hki, hrk⟩ := set?_of_mem_read hl hbs hb hk
      (hread ▸ List.mem_append_left ks hr)
    have := hle r hr
    exact ⟨k, Line.mem_take_of_index_lt hn hkm (by omega), hki, hrk⟩
  · have hsl := Line.index_lt_of_mem_take hn (mem_of_lastSet? hs)
    rw [hread, List.map_append] at hsr
    refine (List.mem_append.1 hsr).resolve_right fun h ↦ ?_
    obtain ⟨r, hr, hrs⟩ := List.mem_map.1 h
    have := hlater l (by simp) r hr
    omega

/-- A line that takes steps is written unchanged when the line that last set the distance mode is
among those its instance reads. -/
theorem text_eq_of_incremental {o : Order α} {program : Text} {ls : List (Line α)}
    {bs : List (Block α)} {b : Block α} {c : Copy α}
    (hl : Line.readAll program = .ok ls) (hbs : blocks o program = .ok bs) (hb : b ∈ bs)
    (hc : c ∈ b.copies) (hk : Ending.Keeps Line.newDistance? ls)
    (hm : (sourceModes ls c.line).distance = .incremental)
    (hs : ∀ s, lastSet? Line.newDistance? (ls.take (c.line.index + 1)) = some s →
      s.index ∈ b.read.map Line.index) :
    c.text = c.line.text := by
  obtain ⟨ps, ks, hp, ht⟩ := Offset.mem_rewrites b.cell.offset (Replay.mem_lines hc)
  have hread : b.read = ((b.before ++ ps) ++ [c.line]) ++ ks := by
    rw [Block.read, hp]
    simp
  obtain ⟨s, hlast⟩ : ∃ s, lastSet? Line.newDistance? (ls.take (c.line.index + 1)) = some s := by
    rw [sourceModes, Modes.through_distance] at hm
    refine exists_lastSet?_of_carry_ne (b := Modes.distance {}) ?_
    simp [hm]
  have hd := through_read_distance hl hbs hb hk hread hlast (hs s hlast)
  rw [ht]
  refine Offset.copyText_of_incremental _ ?_ c.line
  rw [← Modes.through_append, ← List.append_assoc, hd, hm]

section Steps

def ownSteps : Text := "T1 M6\nG0 X0\nG91\nG1 X1\nM30".toList

def takesKnownStep (o : Order α) (program : Text) : Bool :=
  match Line.readAll program, blocks o program with
  | .ok ls, .ok bs => bs.any fun b ↦ b.copies.any fun c ↦
      decide (∀ l ∈ ls, l.isProgramEnd = false ∨ Ending.strip l = none) &&
      decide ((sourceModes ls c.line).distance = .incremental) &&
      (lastSet? Line.newDistance? (ls.take (c.line.index + 1))).all fun s ↦
        decide (s.index ∈ b.read.map Line.index)
  | _, _ => false

theorem takesKnownStep_ownSteps : takesKnownStep twoCells ownSteps = true := by decide +kernel

theorem text_eq_of_incremental_ownSteps :
    ∃ (ls : List (Line Float)) (bs : List (Block Float)), ∃ b ∈ bs, ∃ c ∈ b.copies,
      Line.readAll ownSteps = .ok ls ∧ blocks twoCells ownSteps = .ok bs ∧
      (sourceModes ls c.line).distance = .incremental ∧ c.text = c.line.text := by
  have h := takesKnownStep_ownSteps
  unfold takesKnownStep at h
  split at h
  next ls bs hl hbs =>
    simp only [List.any_eq_true, Bool.and_eq_true, decide_eq_true_eq] at h
    obtain ⟨b, hb, c, hc, ⟨hk, hm⟩, hs⟩ := h
    refine ⟨ls, bs, b, hb, c, hc, hl, hbs, hm, ?_⟩
    refine text_eq_of_incremental hl hbs hb hc (Ending.keeps_of_plain _ hk) hm fun s hlast ↦ ?_
    simpa [hlast] using hs
  next => cases h

def KeepsSteps (o : Order α) (program : Text) : Prop :=
  match Line.readAll program, blocks o program with
  | .ok ls, .ok bs => ∀ b ∈ bs, ∀ c ∈ b.copies,
      (sourceModes ls c.line).distance = .incremental → c.text = c.line.text
  | _, _ => True

instance (o : Order α) (program : Text) : Decidable (KeepsSteps o program) := by
  unfold KeepsSteps
  split <;> infer_instance

def headerSteps : Text := "G91\nT1 M6\nG1 X1".toList

def otherToolSteps : Text := "T1 M6\nG91\nG1 X1\nT2 M6\nG1 X2".toList

def endWordSteps : Text := "T1 M6\nG91M2 .5\nG1 X1".toList

theorem not_keepsSteps :
    ¬ KeepsSteps twoCells headerSteps ∧
      ¬ KeepsSteps { twoCells with sortByTool := true } otherToolSteps ∧
      ¬ KeepsSteps twoCells endWordSteps := by
  decide +kernel

end Steps

end StepAndRepeat.Assembly
