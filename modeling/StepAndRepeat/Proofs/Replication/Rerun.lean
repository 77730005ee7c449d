import StepAndRepeat.Proofs.Replication.Modal

namespace StepAndRepeat.Assembly

variable {α : Type} [Coordinate α]

/-- A code line copied in a block of an assembled program, and the program read again. The output
before the block is cut at some point, from which a run of stretches leads up to the block. -/
structure Rerun (o : Order α) (program : Text) where
  source : List (Line α)
  readAll_program : Line.readAll program = .ok source
  out : Text
  assemble_eq : assemble o program = .ok out
  output : List (Line α)
  readAll_out : Line.readAll out = .ok output
  before : List (Stretch α)
  run : List (Stretch α)
  block : Block α
  after : List (Stretch α)
  stretches_eq : stretches o program = .ok ((before ++ run) ++ .block block :: after)
  earlier : List (Copy α)
  copy : Copy α
  later : List (Copy α)
  copies_eq : block.copies = earlier ++ copy :: later
  isCode : copy.line.kind = .code

namespace Rerun

variable {o : Order α} {program : Text} (r : Rerun o program)

def outset : Nat := (r.before.flatMap Stretch.entries).length

def place : Nat := ((r.before ++ r.run).flatMap Stretch.entries).length + r.earlier.length

def modesBefore : Modes := Modes.through {} (r.output.take r.outset)

def modes : Modes := Modes.through {} (r.output.take (r.place + 1))

def sourceUpTo : List (Line α) := r.source.take (r.copy.line.index + 1)

def ownModes : Modes := sourceModes r.source r.copy.line

def written : List (Line α) :=
  (r.run.flatMap Stretch.copied ++ (r.earlier ++ [r.copy])).map Copy.line

/-- The line written last that sets a mode is the one that last set it in the program. If there is
none, nothing of the program is written before the run either. -/
def SameSetter {β : Type} (set? : Line α → Option β) : Prop :=
  (lastSet? set? r.written).map Line.index = (lastSet? set? r.sourceUpTo).map Line.index ∧
    (lastSet? set? r.sourceUpTo = none → r.before.flatMap Stretch.copied = [])

/-- The run is the pass of the instance so far: its blocks are of the lines that the instance has
read before. -/
structure IsPass : Prop where
  verbatim_notMem : ∀ ls, .verbatim ls ∉ r.run
  lines_eq : ((Stretch.blocks r.run).flatMap Block.lines).map Line.index =
    r.block.before.map Line.index

/-- The line that last set a mode in the program is written in the pass. -/
def SetInPass {β : Type} (set? : Line α → Option β) : Prop :=
  r.IsPass ∧ ∃ s, lastSet? set? r.sourceUpTo = some s ∧
    s.index ∈ (r.run.flatMap Stretch.copied ++ r.block.copies).map (·.line.index)

/-- The run can be chosen to be the pass. -/
theorem exists_isPass : ∃ p : Rerun o program, p.IsPass ∧ p.block = r.block ∧ p.copy = r.copy ∧
    p.place = r.place ∧ p.modes = r.modes ∧ p.ownModes = r.ownModes := by
  obtain ⟨before, run, he, hnone, hlines⟩ :=
    passing_stretches r.stretches_eq (r.before ++ r.run) r.block r.after rfl
  let p : Rerun o program :=
    { r with before := before, run := run, stretches_eq := he ▸ r.stretches_eq }
  have hplace : p.place = r.place :=
    congrArg (fun ss ↦ (ss.flatMap Stretch.entries).length + r.earlier.length) he.symm
  have hmodes : p.modes = r.modes :=
    congrArg (fun n ↦ Modes.through {} (r.output.take (n + 1))) hplace
  exact ⟨p, ⟨hnone, congrArg _ hlines⟩, rfl, rfl, hplace, hmodes, rfl⟩

section Reading

variable [OneLine α] (hbanner : ∀ t ∈ o.banner, IsRemark t)
include hbanner

omit hbanner [OneLine α] in
theorem copies_cut : r.block.copies = (r.earlier ++ [r.copy]) ++ r.later := by
  rw [r.copies_eq, List.append_cons]

omit hbanner [OneLine α] in
theorem entries_cut : ((r.before ++ r.run) ++ .block r.block :: r.after).flatMap Stretch.entries =
    (r.before ++ r.run).flatMap Stretch.entries ++ ((r.earlier ++ [r.copy]).map Entry.copy ++
      (r.later.map Entry.copy ++ r.after.flatMap Stretch.entries)) := by
  rw [List.flatMap_append, List.flatMap_cons, Stretch.entries, r.copies_cut, List.map_append,
    List.append_assoc]

theorem forall₂_copies :
    List.Forall₂ (fun t l ↦ ∃ i, Line.readAt i t = .ok l)
      ((r.earlier ++ [r.copy]).map Copy.text)
      ((r.output.drop ((r.before ++ r.run).flatMap Stretch.entries).length).take
        (r.earlier.length + 1)) := by
  have h := forall₂_output r.assemble_eq r.readAll_out r.stretches_eq hbanner r.entries_cut
  rwa [List.map_map, List.length_map, List.length_append, List.length_singleton] at h

theorem forall₂_run :
    List.Forall₂ (fun t l ↦ ∃ i, Line.readAt i t = .ok l)
      ((r.run.flatMap Stretch.entries).map Entry.text)
      ((r.output.drop r.outset).take (r.run.flatMap Stretch.entries).length) := by
  refine forall₂_output r.assemble_eq r.readAll_out r.stretches_eq hbanner
    (z := (Stretch.block r.block :: r.after).flatMap Stretch.entries) ?_
  rw [List.flatMap_append, List.flatMap_append, List.append_assoc]

theorem text_output : r.output[r.place]?.map Line.text = some r.copy.text := by
  have h := r.forall₂_copies hbanner
  rw [List.map_append, List.map_singleton] at h
  have ht := text_of_read h
  rwa [List.length_map, List.getElem?_take_of_lt (Nat.lt_succ_self _), List.getElem?_drop] at ht

theorem isSound_of_mem {s : Stretch α} (hs : s ∈ (r.before ++ r.run) ++ .block r.block :: r.after) :
    s.IsSound := isSound_stretches r.stretches_eq hbanner s hs

variable {β : Type} {set? : Line α → Option β} (hs : SetByCodes set?)
include hs

/-- What is in force on the copy has been put in force by the lines written since the run began. -/
theorem carry_output (hw : ∀ b ∈ Stretch.blocks r.run ++ [r.block], b.WritesDecimals) (v : β) :
    carry set? v (r.output.take (r.place + 1)) =
      carry set? (carry set? v (r.output.take r.outset)) r.written := by
  have hplace : r.place + 1 = r.outset + (r.run.flatMap Stretch.entries).length +
      (r.earlier.length + 1) := by
    rw [place, outset, List.flatMap_append, List.length_append]
    rfl
  have hblock := r.forall₂_copies hbanner
  rw [List.flatMap_append, List.length_append] at hblock
  have hsub : r.earlier ++ [r.copy] ⊆ r.block.copies :=
    r.copies_cut ▸ List.subset_append_left _ _
  rw [hplace, List.take_add, List.take_add, carry_append, carry_append, written, List.map_append,
    carry_append,
    hs.carry_stretches (fun s hm ↦ r.isSound_of_mem hbanner (by simp [hm]))
      (fun b hb ↦ hw b (by simp [hb])) (r.forall₂_run hbanner)]
  exact hs.carry_copies (r.isSound_of_mem (s := .block r.block) hbanner (by simp))
    (hw r.block (by simp)) hsub hblock _

omit hbanner hs in
theorem exists_source (hk : Ending.Keeps set? r.source) {c : Copy α}
    (hc : c ∈ r.run.flatMap Stretch.copied ++ r.block.copies) :
    ∃ l ∈ r.source, l.index = c.line.index ∧ set? c.line = set? l := by
  rcases List.mem_append.1 hc with hc | hc
  · obtain ⟨s, hs, hc⟩ := List.mem_flatMap.1 hc
    exact set?_of_stretches r.readAll_program r.stretches_eq hk (by simp [hs]) c hc
  · exact set?_of_stretches (s := .block r.block) r.readAll_program r.stretches_eq hk
      (by simp) c (by rwa [Stretch.copied_block])

/-- Nothing is in force before the run where nothing of the program is written before it. -/
theorem carry_before (h : r.before.flatMap Stretch.copied = []) (v : β) :
    carry set? v (r.output.take r.outset) = v := by
  have hread := forall₂_output (x := []) r.assemble_eq r.readAll_out r.stretches_eq hbanner
    (by rw [List.append_assoc, List.flatMap_append, List.nil_append])
  have hw : ∀ b ∈ Stretch.blocks r.before, b.WritesDecimals := by
    intro b hb c hc
    have hmem : c ∈ r.before.flatMap Stretch.copied :=
      List.mem_flatMap.2 ⟨.block b, Stretch.block_mem hb, by rwa [Stretch.copied_block]⟩
    simp [h] at hmem
  have hc := hs.carry_stretches (fun s hm ↦ r.isSound_of_mem hbanner (by simp [hm])) hw hread v
  rwa [h] at hc

theorem carry_of_sameSetter (hk : Ending.Keeps set? r.source)
    (hw : ∀ b ∈ Stretch.blocks r.run ++ [r.block], b.WritesDecimals) (h : r.SameSetter set?)
    (v : β) : carry set? v (r.output.take (r.place + 1)) = carry set? v r.sourceUpTo := by
  rw [r.carry_output hbanner hs hw]
  obtain ⟨hlast, hnone⟩ := h
  cases hsrc : lastSet? set? r.sourceUpTo with
  | none =>
    rw [hsrc, Option.map_none, Option.map_eq_none_iff] at hlast
    rw [r.carry_before hbanner hs (hnone hsrc), carry_of_lastSet?_none hlast,
      carry_of_lastSet?_none hsrc]
  | some s =>
    rw [hsrc, Option.map_some, Option.map_eq_some_iff] at hlast
    obtain ⟨w, hw, hws⟩ := hlast
    obtain ⟨c, hc, rfl⟩ := List.mem_map.1 (mem_of_lastSet? hw)
    have hcopied : c ∈ r.run.flatMap Stretch.copied ++ r.block.copies := by
      rw [r.copies_cut, ← List.append_assoc]
      exact List.mem_append_left _ hc
    obtain ⟨l, hl, hlc, hset⟩ := r.exists_source hk hcopied
    have hls : l = s := Line.eq_of_index_eq (Line.map_index_readAll r.readAll_program) hl
      (List.mem_of_mem_take (mem_of_lastSet? hsrc)) (hlc.trans hws)
    rw [← Option.some_inj, ← carry_of_lastSet? hw, ← carry_of_lastSet? hsrc, hset, hls]

omit [OneLine α] hbanner hs in
theorem IsPass.pairwise_index (h : r.IsPass) :
    (((r.run.flatMap Stretch.copied ++ r.block.copies).filter (·.line.isCode)).map
      Copy.line).Pairwise (·.index < ·.index) := by
  obtain ⟨bs, hbs, hb⟩ := mem_blocks_of_stretches r.stretches_eq
  have hread := pairwise_index_read hbs hb
  rw [← List.pairwise_map] at hread ⊢
  refine hread.sublist ?_
  rw [Stretch.flatMap_copied h.verbatim_notMem, List.filter_append, List.map_append, Block.read,
    List.map_append, List.map_append, ← h.lines_eq, List.filter_flatMap, List.map_flatMap]
  exact ((List.Sublist.flatMap_right _ fun b _ ↦ b.code_sublist).map _).append
    (r.block.code_sublist.map _)

theorem carry_of_setInPass (hk : Ending.Keeps set? r.source)
    (hw : ∀ b ∈ Stretch.blocks r.run ++ [r.block], b.WritesDecimals) (h : r.SetInPass set?)
    (v : β) : carry set? v (r.output.take (r.place + 1)) = carry set? v r.sourceUpTo := by
  obtain ⟨hpass, s, hlast, hs'⟩ := h
  have hcut : r.run.flatMap Stretch.copied ++ r.block.copies =
      (r.run.flatMap Stretch.copied ++ r.earlier) ++ r.copy :: r.later := by
    rw [r.copies_eq, List.append_assoc]
  have hp := hpass.pairwise_index
  rw [hcut] at hp hs'
  rw [r.carry_output hbanner hs hw, written, ← List.append_assoc]
  exact carry_in_order hs r.readAll_program hp
    (fun d hd ↦ r.exists_source hk (hcut ▸ hd)) r.isCode hlast hs' _ _

end Reading

/-- A copied line runs in the modes that the lines written since some point put in force, on top of
those in force there. It runs in the mode of its program if the line that sets the mode is the same,
and so it is whenever that line is written in the pass of the instance. -/
theorem modes_eq [OneLine α] (hbanner : ∀ t ∈ o.banner, IsRemark t)
    (hw : ∀ b ∈ Stretch.blocks r.run ++ [r.block], b.WritesDecimals)
    (hd : Ending.Keeps Line.newDistance? r.source) (hm : Ending.Keeps Line.newMotion? r.source) :
    r.output[r.place]?.map Line.text = some r.copy.text ∧
      r.modes.distance = (r.modesBefore.through r.written).distance ∧
      r.modes.motion = (r.modesBefore.through r.written).motion ∧
      (r.SameSetter Line.newDistance? ∨ r.SetInPass Line.newDistance? →
        r.modes.distance = r.ownModes.distance) ∧
      (r.SameSetter Line.newMotion? ∨ r.SetInPass Line.newMotion? →
        r.modes.motion = r.ownModes.motion) ∧
      ∃ p : Rerun o program, p.IsPass ∧ p.block = r.block ∧ p.copy = r.copy ∧
        p.place = r.place ∧ p.modes = r.modes ∧ p.ownModes = r.ownModes := by
  refine ⟨r.text_output hbanner, ?_, ?_, fun h ↦ ?_, fun h ↦ ?_, r.exists_isPass⟩
  · rw [modes, Modes.through_distance, r.carry_output hbanner setByCodes_newDistance hw,
      Modes.through_distance, modesBefore, Modes.through_distance]
  · rw [modes, Modes.through_motion, r.carry_output hbanner setByCodes_newMotion hw,
      Modes.through_motion, modesBefore, Modes.through_motion]
  · rw [modes, ownModes, sourceModes, Modes.through_distance, Modes.through_distance]
    exact h.elim (r.carry_of_sameSetter hbanner setByCodes_newDistance hd hw · _)
      (r.carry_of_setInPass hbanner setByCodes_newDistance hd hw · _)
  · rw [modes, ownModes, sourceModes, Modes.through_motion, Modes.through_motion]
    exact h.elim (r.carry_of_sameSetter hbanner setByCodes_newMotion hm hw · _)
      (r.carry_of_setInPass hbanner setByCodes_newMotion hm hw · _)

section Search

def any (o : Order Float) (program : Text)
    (test : List (Line Float) → List (Stretch Float) → Block Float → Line Float → Modes → Modes →
      Bool) : Bool :=
  match Line.readAll program, stretches o program, assemble o program with
  | .ok ls, .ok ss, .ok out =>
    match (Line.readAll out : Except LineFault (List (Line Float))) with
    | .ok outs =>
      (List.range ss.length).any fun i ↦
        match ss[i]? with
        | some (.block b) =>
          (List.range (i + 1)).any fun k ↦
            (List.range b.copies.length).any fun j ↦
              match b.copies[j]? with
              | some c =>
                let n := ((ss.take i).flatMap Stretch.entries).length
                decide (c.line.kind = LineKind.code) && test ls ((ss.take i).drop k) b c.line
                  (Modes.through {} (outs.take (n + j + 1))) (sourceModes ls c.line)
              | none => false
        | _ => false
    | .error _ => false
  | _, _, _ => false

theorem cut_of_getElem? {β : Type} {bs : List β} {i : Nat} {b : β} (h : bs[i]? = some b) :
    bs = bs.take i ++ b :: bs.drop (i + 1) ∧ (bs.take i).length = i := by
  obtain ⟨hi, rfl⟩ := List.getElem?_eq_some_iff.1 h
  refine ⟨?_, by rw [List.length_take, Nat.min_eq_left hi.le]⟩
  rw [← List.drop_eq_getElem_cons hi, List.take_append_drop]

theorem exists_of_any {o : Order Float} {program : Text}
    {test : List (Line Float) → List (Stretch Float) → Block Float → Line Float → Modes → Modes →
      Bool} (h : any o program test = true) :
    ∃ r : Rerun o program,
      test r.source r.run r.block r.copy.line r.modes r.ownModes = true := by
  unfold any at h
  split at h
  next ls ss out hl hss hout =>
    split at h
    next outs houts =>
      obtain ⟨i, -, h⟩ := List.any_eq_true.1 h
      split at h
      next b hb =>
        obtain ⟨k, -, h⟩ := List.any_eq_true.1 h
        obtain ⟨j, -, h⟩ := List.any_eq_true.1 h
        split at h
        next c hc =>
          simp only [Bool.and_eq_true, decide_eq_true_eq] at h
          obtain ⟨hs, -⟩ := cut_of_getElem? hb
          obtain ⟨hcs, hj⟩ := cut_of_getElem? hc
          have htake : (ss.take i).take k ++ (ss.take i).drop k = ss.take i :=
            List.take_append_drop k _
          let r : Rerun o program := ⟨ls, hl, out, hout, outs, houts, (ss.take i).take k,
            (ss.take i).drop k, b, ss.drop (i + 1), by rw [htake, ← hs, hss], b.copies.take j, c,
            b.copies.drop (j + 1), hcs, h.1⟩
          have hmodes : r.modes = _ := congrArg₂ (fun (ts : List (Stretch Float)) (m : Nat) ↦
            Modes.through {} (outs.take ((ts.flatMap Stretch.entries).length + m + 1))) htake hj
          exact ⟨r, hmodes ▸ h.2⟩
        next => cases h
      next => cases h
    next => cases h
  next => cases h

end Search

section Steps

def finiteSums (b : Block Float) : Bool :=
  b.copies.all fun c ↦ c.line.keys.all fun k ↦
    match b.cell.offset.of? k.1 with
    | some d =>
      match Binary.magnitude (k.2 + d) with
      | .finite _ _ => true
      | _ => false
    | none => true

theorem writesDecimals_of_finiteSums {b : Block Float} (h : finiteSums b = true) :
    b.WritesDecimals := by
  intro c hc _ k hk d hd
  have hf := List.all_eq_true.1 (List.all_eq_true.1 h c hc) k hk
  rw [hd] at hf
  dsimp only at hf
  split at hf
  next m q hm => exact decimal_fixed hm
  next => cases hf

def carriedSteps : Text := "T1 M6\nG0 X0\nG91\nG1 X1\nT2 M6\nX2\nM30".toList

def stepTest (ls : List (Line Float)) (run : List (Stretch Float)) (b : Block Float)
    (l : Line Float) (_ own : Modes) : Bool :=
  let sets {β : Type} (set? : Line Float → Option β) : Bool :=
    (lastSet? set? (ls.take (l.index + 1))).any fun s ↦
      decide (s.index ∈ (run.flatMap Stretch.copied ++ b.copies).map (·.line.index))
  decide (b.place = 1) && decide (b.tool = some 2) && decide (own.distance = .incremental) &&
    decide (own.motion = .linear) &&
    decide (∀ l ∈ ls, l.isProgramEnd = false ∨ Ending.strip l = none) &&
    (Stretch.blocks run ++ [b]).all finiteSums &&
    run.all (fun s ↦ match s with | .verbatim _ => false | _ => true) &&
    decide (((Stretch.blocks run).flatMap Block.lines).map Line.index = b.before.map Line.index) &&
    sets Line.newDistance? && sets Line.newMotion?

theorem any_stepTest : any twoCells carriedSteps stepTest = true := by decide +kernel

theorem modes_eq_carriedSteps :
    ∃ r : Rerun twoCells carriedSteps, r.block.place = 1 ∧ r.block.tool = some 2 ∧
      (∀ b ∈ Stretch.blocks r.run ++ [r.block], b.WritesDecimals) ∧
      Ending.Keeps Line.newDistance? r.source ∧ Ending.Keeps Line.newMotion? r.source ∧
      r.SetInPass Line.newDistance? ∧ r.SetInPass Line.newMotion? ∧
      r.modes.distance = .incremental ∧ r.modes.motion = .linear := by
  obtain ⟨r, h⟩ := exists_of_any any_stepTest
  simp only [stepTest, Bool.and_eq_true, decide_eq_true_eq] at h
  obtain ⟨⟨⟨⟨⟨⟨⟨⟨⟨hplace, htool⟩, hdist⟩, hmot⟩, hkeep⟩, hsums⟩, hnotes⟩, hlines⟩, hd⟩, hm⟩ := h
  have hw : ∀ b ∈ Stretch.blocks r.run ++ [r.block], b.WritesDecimals := fun b hb ↦
    writesDecimals_of_finiteSums (List.all_eq_true.1 hsums b hb)
  have hkd := Ending.keeps_of_plain Line.newDistance? hkeep
  have hkm := Ending.keeps_of_plain Line.newMotion? hkeep
  have hpass : r.IsPass := ⟨fun ls hls ↦ (nomatch List.all_eq_true.1 hnotes _ hls), hlines⟩
  have hsets {β : Type} {set? : Line Float → Option β}
      (h : ((lastSet? set? (r.source.take (r.copy.line.index + 1))).any fun s ↦
        decide (s.index ∈ (r.run.flatMap Stretch.copied ++ r.block.copies).map
          (·.line.index))) = true) : r.SetInPass set? := by
    obtain ⟨s, hs, hsb⟩ := (Option.any_eq_true _ _).1 h
    exact ⟨hpass, s, hs, of_decide_eq_true hsb⟩
  have hr := r.modes_eq (by simp [twoCells]) hw hkd hkm
  refine ⟨r, hplace, htool, hw, hkd, hkm, hsets hd, hsets hm, ?_, ?_⟩
  · rw [hr.2.2.2.1 (.inr (hsets hd)), hdist]
  · rw [hr.2.2.2.2.1 (.inr (hsets hm)), hmot]

def lateSteps : Text := "T1 M6\nG0 X0 Y0\nG1 X5 Y0\nG91\nG1 X1 Y0".toList

def bareStart : Text := "T1 M6\nX0\nG1 X5".toList

def stopSteps : Text := "T1 M6\nG91 M5\nG1 X1".toList

def hugeSum : Text := "T1 M6\nG91\nX".toList ++ List.replicate 310 '9' ++ "G90".toList

theorem any_distance :
    ∀ p ∈ [lateSteps, stopSteps, endWordSteps, hugeSum],
      any twoCells p (fun _ _ _ _ m own ↦ decide (m.distance ≠ own.distance)) = true := by
  decide +kernel

theorem any_motion :
    any twoCells bareStart (fun _ _ _ l m own ↦ decide (m.motion ≠ own.motion) && l.hasXY) =
      true := by
  decide +kernel

theorem exists_modes_ne :
    (∀ p ∈ [lateSteps, stopSteps, endWordSteps, hugeSum],
      ∃ r : Rerun twoCells p, r.modes.distance ≠ r.ownModes.distance) ∧
    ∃ r : Rerun twoCells bareStart, r.copy.line.hasXY = true ∧
      r.modes.motion ≠ r.ownModes.motion := by
  refine ⟨fun p hp ↦ ?_, ?_⟩
  · obtain ⟨r, h⟩ := exists_of_any (any_distance p hp)
    exact ⟨r, of_decide_eq_true h⟩
  · obtain ⟨r, h⟩ := exists_of_any any_motion
    rw [Bool.and_eq_true, decide_eq_true_eq] at h
    exact ⟨r, h.2, h.1⟩

end Steps

end Rerun

end StepAndRepeat.Assembly
