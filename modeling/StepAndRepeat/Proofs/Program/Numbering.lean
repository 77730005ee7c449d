import StepAndRepeat.Extent.Survey
import StepAndRepeat.Proofs.Machine.Codes
import StepAndRepeat.Proofs.Program.Grouping
import StepAndRepeat.Proofs.Program.LineNumbers

namespace StepAndRepeat

variable {α : Type}

section Echoes

/-- A line says what another says, line numbers aside. -/
structure Line.Echoes (l r : Line α) : Prop where
  kind : r.kind = l.kind
  values : ∀ c, c ≠ 'N' → r.values c = l.values c

namespace Line.Echoes

variable {l r : Line α}

theorem refl (l : Line α) : l.Echoes l := ⟨rfl, fun _ _ ↦ rfl⟩

theorem value?_eq (h : l.Echoes r) {c : Char} (hc : c ≠ 'N') : r.value? c = l.value? c := by
  have hvalue (l : Line α) : l.value? c = (l.values c).head? := by
    rw [Line.value?, Line.values, List.head?_map, List.head?_filter]
  rw [hvalue, hvalue, h.values c hc]

theorem axis?_eq (h : l.Echoes r) (a : Axis) : r.axis? a = l.axis? a :=
  h.value?_eq (by cases a <;> decide)

variable [Coordinate α]

theorem has_eq (h : l.Echoes r) {c : Char} (hc : c ≠ 'N') (n : Nat) : r.has c n = l.has c n :=
  has_of_values (h.values c hc) n

theorem isMachineMove_eq (h : l.Echoes r) : r.isMachineMove = l.isMachineMove :=
  h.has_eq (by decide) 53

theorem begins_eq (h : l.Echoes r) : Phases.begins r = Phases.begins l := by
  rw [Phases.begins, Phases.begins, isSpindleStart, isSpindleStart, h.has_eq (by decide),
    h.has_eq (by decide), hasXY, hasXY, x?, x?, y?, y?, h.value?_eq (by decide),
    h.value?_eq (by decide), h.isMachineMove_eq]

theorem ends_eq (h : l.Echoes r) : Phases.ends r = Phases.ends l := by
  rw [Phases.ends, Phases.ends, isSpindleStop, isSpindleStop, h.has_eq (by decide),
    h.isMachineMove_eq]

end Line.Echoes

theorem LineNumber.echoes_stamp [Coordinate α] (n : LineNumber) (l : Line α) :
    l.Echoes (n.stamp l) where
  kind := rfl
  values c hc := by
    have hn : (n.word : Word α).letter ≠ c := Ne.symm hc
    rw [Line.values, LineNumber.stamp, List.filter_cons_of_neg (by simpa using hn),
      List.filter_map, List.map_map, Line.values]
    rfl

end Echoes

namespace Survey

variable [Circular α] {l r : Line α}

/-- A survey takes no notice of line numbers. -/
theorem step_of_echoes (h : l.Echoes r) (s : Survey α) : s.step r = s.step l := by
  have hi : r.i? = l.i? := h.value?_eq (by decide)
  have hj : r.j? = l.j? := h.value?_eq (by decide)
  have hmodes (m : Modes) : m.after r = m.after l :=
    Modes.after_of_values (h.values 'G' (by decide)) m
  have htarget (d : Distance) (p : Position α) : p.target d r = p.target d l := by
    simp only [Position.target, h.axis?_eq]
  have hcut (before after : Position α) (b : Box α) :
      gatherCut before after r b = gatherCut before after l b := by
    simp only [gatherCut, h.axis?_eq]
  have harc (m : Modes) (before after : Position α) :
      arcOf m before after r = arcOf m before after l := by
    simp only [arcOf, hi, hj]
  have hcenter : r.hasArcCenter = l.hasArcCenter := by
    rw [Line.hasArcCenter, Line.hasArcCenter, hi, hj]
  have haxis : r.hasAxisWord = l.hasAxisWord := by
    simp only [Line.hasAxisWord, h.axis?_eq]
  unfold step
  dsimp only
  rw [h.kind, h.isMachineMove_eq, hmodes, htarget, hcenter, haxis, harc, hcut]

theorem run_map {g : Line α → Line α} (hg : ∀ l : Line α, l.Echoes (g l)) (ls : List (Line α)) :
    run (ls.map g) = run ls := by
  rw [run, run, List.foldl_map]
  exact List.foldl_ext _ _ _ fun s l _ ↦ step_of_echoes (hg l) s

end Survey

section Map

variable {g : Line α → Line α}

namespace Segment

def map (g : Line α → Line α) (s : Segment α) : Segment α := { s with lines := s.lines.map g }

theorem cut_map {ls : List (Line α)} (hg : ∀ l ∈ ls, (g l).tool = l.tool) :
    cut (ls.map g) = ((cut ls).1.map g, (cut ls).2.map (map g)) := by
  induction ls with
  | nil => rfl
  | cons l ls ih =>
    rw [List.map_cons, cut, cut, hg l (by simp), ih fun k hk ↦ hg k (by simp [hk])]
    cases l.tool <;> rfl

theorem close_map (s : Segment α) : (s.map g).close = s.close.map (map g) := by
  simp only [close, map, List.isEmpty_map]
  split <;> rfl

theorem split_map {ls : List (Line α)} (hg : ∀ l ∈ ls, (g l).tool = l.tool) :
    split (ls.map g) = (split ls).map (map g) := by
  have hhead : (⟨none, (cut ls).1.map g⟩ : Segment α) = map g ⟨none, (cut ls).1⟩ := rfl
  rw [split, cut_map hg, hhead, ← List.map_cons, List.flatMap_map, split, List.map_flatMap]
  exact List.flatMap_congr fun s _ ↦ s.close_map

section Tooled

variable (g)

theorem tooled_map (ss : List (Segment α)) :
    tooled (ss.map (map g)) = (tooled ss).map (Prod.map id (map g)) := by
  rw [tooled, List.filterMap_map, tooled, List.map_filterMap]
  refine List.filterMap_congr fun s _ ↦ ?_
  cases h : s.tool <;> simp [map, h]

theorem addTo_map (n : Int) (s : Segment α) (gs : List (Int × List (Segment α))) :
    addTo n (s.map g) (gs.map (Prod.map id (List.map (map g)))) =
      (addTo n s gs).map (Prod.map id (List.map (map g))) := by
  induction gs with
  | nil => rfl
  | cons t gs ih =>
    obtain ⟨m, ss⟩ := t
    rw [List.map_cons, Prod.map_apply, addTo, addTo, ih, id]
    split
    · rw [List.map_cons, Prod.map_apply, List.map_append, id]
      rfl
    · rfl

theorem group_map (gs : List (Int × List (Segment α))) (ts : List (Int × Segment α)) :
    group (gs.map (Prod.map id (List.map (map g)))) (ts.map (Prod.map id (map g))) =
      (group gs ts).map (Prod.map id (List.map (map g))) := by
  induction ts generalizing gs with
  | nil => rfl
  | cons t ts ih =>
    have hstep : group gs (t :: ts) = group (addTo t.1 t.2 gs) ts := rfl
    rw [hstep, ← ih, ← addTo_map]
    rfl

theorem byTool_map (ss : List (Segment α)) :
    byTool (ss.map (map g)) = (byTool ss).map (Prod.map id (List.map (map g))) := by
  rw [byTool_eq, tooled_map, byTool_eq, ← group_map]
  rfl

theorem flatMap_lines_map (ss : List (Segment α)) :
    (ss.map (map g)).flatMap (·.lines) = (ss.flatMap (·.lines)).map g := by
  rw [List.flatMap_map, List.map_flatMap]
  rfl

end Tooled

end Segment

namespace Phases

def map (g : Line α → Line α) (p : Phases α) : Phases α :=
  ⟨p.preamble.map g, p.cutting.map g, p.postamble.map g⟩

/-- Lines that begin and end cutting as before fall into the same phases. -/
theorem split_map [Coordinate α] (hb : ∀ l, begins (g l) = begins l) (he : ∀ l, ends (g l) = ends l)
    (ls : List (Line α)) : split (ls.map g) = (split ls).map g := by
  have hb' : (fun l ↦ !begins l) ∘ g = fun l ↦ !begins l := funext fun l ↦ by simp [hb]
  have he' : (fun l ↦ !ends l) ∘ g = fun l ↦ !ends l := funext fun l ↦ by simp [he]
  simp only [split, map, List.takeWhile_map, List.dropWhile_map, hb', he']

end Phases

theorem Ending.cleanAll_map [Coordinate α] {ls rs : List (Line α)}
    (hg : ∀ l ∈ ls, ∀ ks, clean l = .ok ks → clean (g l) = .ok (ks.map g))
    (h : cleanAll ls = .ok rs) : cleanAll (ls.map g) = .ok (rs.map g) := by
  induction ls generalizing rs with
  | nil =>
    rw [← Except.ok.inj h]
    rfl
  | cons l ls ih =>
    obtain ⟨ks, js, hl, hls, rfl⟩ := cleanAll_cons h
    have hrest := ih (fun k hk ↦ hg k (by simp [hk])) hls
    cases hm : (ls.map g).mapM clean with
    | error f => simp [cleanAll, hm, Except.map] at hrest
    | ok kss =>
      have hflat : kss.flatten = js.map g := by simpa [cleanAll, hm, Except.map] using hrest
      rw [cleanAll, List.map_cons, List.mapM_cons, hg l (by simp) ks hl, hm, List.map_append,
        ← hflat]
      rfl

end Map

abbrev Numbering := Nat → Option LineNumber

namespace Numbering

open LineNumber

variable (f : Numbering)

def write (i : Nat) (t : Text) : Text :=
  match f i with
  | some n => n.write t
  | none => t

/-- Lines with their numbers written, of which the first stands at a given place. -/
def writeFrom (i : Nat) : List Text → List Text
  | [] => []
  | t :: ts => f.write i t :: writeFrom (i + 1) ts

def stamp [Coordinate α] (l : Line α) : Line α :=
  match f l.index with
  | some n => n.stamp l
  | none => l

/-- Every line that is numbered is of a sort. -/
def OnlyOn (P : Text → Prop) (i : Nat) : List Text → Prop
  | [] => True
  | t :: ts => ((f i).isSome = true → P t) ∧ OnlyOn P (i + 1) ts

instance decidableOnlyOn (P : Text → Prop) [DecidablePred P] (i : Nat) :
    (ts : List Text) → Decidable (f.OnlyOn P i ts)
  | [] => .isTrue trivial
  | t :: ts =>
    have := decidableOnlyOn P (i + 1) ts
    inferInstanceAs (Decidable (((f i).isSome = true → P t) ∧ f.OnlyOn P (i + 1) ts))

variable {f} [Coordinate α] {i : Nat} {t : Text} {l : Line α} {ts : List Text}

theorem stamp_of_none (h : f l.index = none) : f.stamp l = l := by
  rw [stamp, h]

theorem stamp_of_some {n : LineNumber} (h : f l.index = some n) : f.stamp l = n.stamp l := by
  rw [stamp, h]

section Read

theorem readAt_write (h : (f i).isSome = true → IsCode t) (hl : Line.readAt i t = .ok l) :
    Line.readAt i (f.write i t) = .ok (f.stamp l) := by
  have hi := (Line.readAt_fields hl).1
  cases hf : f i with
  | none =>
    rw [write, hf, stamp_of_none (hi ▸ hf)]
    exact hl
  | some n =>
    rw [write, hf, stamp_of_some (hi ▸ hf)]
    exact n.readAt_write (h (by rw [hf]; rfl)) hl

theorem readFrom_writeFrom (h : f.OnlyOn IsCode i ts) {ls : List (Line α)}
    (hls : Line.readFrom i ts = .ok ls) :
    Line.readFrom i (f.writeFrom i ts) = .ok (ls.map f.stamp) := by
  induction ts generalizing i ls with
  | nil =>
    rw [← Except.ok.inj hls]
    rfl
  | cons t ts ih =>
    obtain ⟨l, rest, hl, hrest, rfl⟩ := Line.readFrom_cons hls
    rw [writeFrom, Line.readFrom, readAt_write h.1 hl, ih h.2 hrest]
    rfl

theorem OnlyOn.of_mem {P : Text → Prop} (h : f.OnlyOn P i ts) {ls : List (Line α)}
    (hls : Line.readFrom i ts = .ok ls) : ∀ l ∈ ls, (f l.index).isSome = true → P l.text := by
  induction ts generalizing i ls with
  | nil =>
    rw [← Except.ok.inj hls]
    simp
  | cons t ts ih =>
    obtain ⟨k, rest, hk, hrest, rfl⟩ := Line.readFrom_cons hls
    obtain ⟨hindex, htext, -, -⟩ := Line.readAt_fields hk
    intro l hl
    rcases List.mem_cons.1 hl with rfl | hl
    · rw [hindex, htext]
      exact h.1
    · exact ih h.2 hrest l hl

end Read

section Clean

variable {rs : List (Line α)}

theorem clean_stamp (hl : l.IsRead) (hb : (f l.index).isSome = true → StaysCode α l.text)
    (h : Ending.clean l = .ok rs) : Ending.clean (f.stamp l) = .ok (rs.map f.stamp) := by
  have hindex : ∀ r ∈ rs, r.index = l.index := fun r ↦ Ending.index_of_mem_clean h
  cases hf : f l.index with
  | none =>
    have hrs : rs.map f.stamp = rs.map id :=
      List.map_congr_left fun r hr ↦ stamp_of_none ((hindex r hr).symm ▸ hf)
    rw [hrs, List.map_id, stamp_of_none hf, h]
  | some n =>
    have hrs : rs.map f.stamp = rs.map n.stamp :=
      List.map_congr_left fun r hr ↦ stamp_of_some ((hindex r hr).symm ▸ hf)
    rw [hrs, stamp_of_some hf, n.clean_stamp hl (hb (by rw [hf]; rfl)) h]

theorem tool_of_clean (hl : l.IsRead) (hb : (f l.index).isSome = true → Bears α l.text)
    (h : Ending.clean l = .ok rs) : ∀ r ∈ rs, (f.stamp r).tool = r.tool := by
  intro r hr
  have hindex := Ending.index_of_mem_clean h hr
  cases hf : f l.index with
  | none => rw [stamp_of_none (hindex.symm ▸ hf)]
  | some n =>
    rw [stamp_of_some (hindex.symm ▸ hf)]
    exact n.tool_of_clean hl (hb (by rw [hf]; rfl)) h r hr

end Clean

end Numbering

section Answers

variable [Coordinate α] {p : Text}

theorem Phases.exists_of_bind {ph : Phases α} (h : (Line.readAll p).bind ofLines = .ok ph) :
    ∃ ls rs, Line.readAll p = .ok ls ∧ Ending.cleanAll ls = .ok rs ∧ ph = split rs := by
  cases hls : (Line.readAll p : Except LineFault (List (Line α))) with
  | error _ => simp [hls, Except.bind] at h
  | ok ls =>
    rw [hls] at h
    obtain ⟨rs, hrs, hph⟩ := exists_of_ofLines h
    exact ⟨ls, rs, rfl, hrs, hph⟩

end Answers

namespace Numbering

open LineNumber

section Program

variable [Coordinate α] {f : Numbering} {p q : Text} {ls rs : List (Line α)}

theorem OnlyOn.mono {P Q : Text → Prop} (hPQ : ∀ t, P t → Q t) {i : Nat} {ts : List Text}
    (h : f.OnlyOn P i ts) : f.OnlyOn Q i ts := by
  induction ts generalizing i with
  | nil => trivial
  | cons t ts ih => exact ⟨fun hf ↦ hPQ t (h.1 hf), ih h.2⟩

theorem readAll_numbered (hq : Text.lines q = f.writeFrom 0 (Text.lines p))
    (h : f.OnlyOn IsCode 0 (Text.lines p)) (hls : Line.readAll p = .ok ls) :
    Line.readAll q = .ok (ls.map f.stamp) := by
  rw [Line.readAll, hq]
  exact readFrom_writeFrom h hls

theorem cleanAll_stamp (h : f.OnlyOn (StaysCode α) 0 (Text.lines p))
    (hls : Line.readAll p = .ok ls) (hrs : Ending.cleanAll ls = .ok rs) :
    Ending.cleanAll (ls.map f.stamp) = .ok (rs.map f.stamp) := by
  refine Ending.cleanAll_map (fun l hl ks hks ↦ ?_) hrs
  exact clean_stamp (Line.isRead_of_readFrom hls l hl) (h.of_mem hls l hl) hks

theorem tool_of_cleanAll (h : f.OnlyOn (Bears α) 0 (Text.lines p))
    (hls : Line.readAll p = .ok ls) (hrs : Ending.cleanAll ls = .ok rs) :
    ∀ r ∈ rs, (f.stamp r).tool = r.tool := by
  intro r hr
  obtain ⟨l, hl, ks, hks, hr⟩ := Ending.exists_of_mem_cleanAll hrs hr
  exact tool_of_clean (Line.isRead_of_readFrom hls l hl) (h.of_mem hls l hl) hks r hr

end Program

theorem echoes_stamp [Coordinate α] (f : Numbering) (l : Line α) : l.Echoes (f.stamp l) := by
  cases hf : f l.index with
  | none =>
    rw [stamp_of_none hf]
    exact .refl l
  | some n =>
    rw [stamp_of_some hf]
    exact n.echoes_stamp l

/-- Numbering lines of code changes nothing of what a program measures. Numbers aside, it changes
nothing of the phases where numbered lines stay code when their end words are taken out, and nothing
of the segments where, besides, no tool word is left alone on such a line. -/
theorem numbers_unheard [Circular α] {f : Numbering} {p q : Text}
    (hq : Text.lines q = f.writeFrom 0 (Text.lines p)) (hcode : f.OnlyOn IsCode 0 (Text.lines p)) :
    (∀ s : Survey α, Survey.ofProgram p = .ok s → Survey.ofProgram q = .ok s) ∧
      (f.OnlyOn (StaysCode α) 0 (Text.lines p) → ∀ ph : Phases α,
        (Line.readAll p).bind Phases.ofLines = .ok ph →
          (Line.readAll q).bind Phases.ofLines = .ok (ph.map f.stamp)) ∧
      (f.OnlyOn (Bears α) 0 (Text.lines p) → ∀ ss : List (Segment α),
        Segment.ofProgram p = .ok ss →
          Segment.ofProgram q = .ok (ss.map (Segment.map f.stamp))) := by
  refine ⟨fun s hs ↦ ?_, fun h ph hph ↦ ?_, fun h ss hss ↦ ?_⟩
  · cases hls : (Line.readAll p : Except LineFault (List (Line α))) with
    | error _ => simp [Survey.ofProgram, hls, Except.map] at hs
    | ok ls =>
      rw [Survey.ofProgram, hls] at hs
      rw [Survey.ofProgram, readAll_numbered hq hcode hls, ← hs]
      exact congrArg Except.ok (Survey.run_map f.echoes_stamp ls)
  · obtain ⟨ls, rs, hls, hrs, rfl⟩ := Phases.exists_of_bind hph
    have hclean := cleanAll_stamp h hls hrs
    rw [readAll_numbered hq hcode hls, ← Phases.split_map (fun l ↦ (f.echoes_stamp l).begins_eq)
      fun l ↦ (f.echoes_stamp l).ends_eq]
    change (Ending.cleanAll (ls.map f.stamp)).map Phases.split = _
    rw [hclean]
    rfl
  · obtain ⟨ls, rs, hls, hrs, rfl⟩ := Segment.exists_of_ofProgram hss
    have hclean := cleanAll_stamp (h.mono fun _ hb ↦ hb.1) hls hrs
    rw [Segment.ofProgram, readAll_numbered hq hcode hls,
      ← Segment.split_map (tool_of_cleanAll h hls hrs)]
    change (Ending.cleanAll (ls.map f.stamp)).bind (fun rs ↦ .ok (Segment.split rs)) = _
    rw [hclean]
    rfl

section Runs

def ten : LineNumber := ⟨['1', '0'], ' ', by decide, List.all_eq_true.1 (by decide), by decide⟩

def notSecond : Numbering := fun i ↦ if i = 1 then none else some ten

def turned : Text := "T2 M6\n(turn)\nM3\nG1 X4 M30".toList

def turnedNumbered : Text := "N10 T2 M6\n(turn)\nN10 M3\nN10 G1 X4 M30".toList

theorem numbers_unheard_turned :
    ∃ (s : Survey Float) (ph : Phases Float) (ss : List (Segment Float)),
      Survey.ofProgram turned = .ok s ∧ Survey.ofProgram turnedNumbered = .ok s ∧
        (Line.readAll turned).bind Phases.ofLines = .ok ph ∧
        (Line.readAll turnedNumbered).bind Phases.ofLines = .ok (ph.map notSecond.stamp) ∧
        Segment.ofProgram turned = .ok ss ∧
        Segment.ofProgram turnedNumbered = .ok (ss.map (Segment.map notSecond.stamp)) := by
  have hread {β : Type} (x : Except LineFault β) (hx : x.isOk = true) : ∃ b, x = .ok b := by
    cases x with
    | error _ => cases hx
    | ok b => exact ⟨b, rfl⟩
  obtain ⟨s, hs⟩ := hread (Survey.ofProgram (α := Float) turned) (by decide +kernel)
  obtain ⟨ph, hph⟩ := hread ((Line.readAll turned).bind (Phases.ofLines (α := Float)))
    (by decide +kernel)
  obtain ⟨ss, hss⟩ := hread (Segment.ofProgram (α := Float) turned) (by decide +kernel)
  have hlines : Text.lines turnedNumbered = notSecond.writeFrom 0 (Text.lines turned) := by decide
  obtain ⟨hsurvey, hphases, hsegments⟩ := numbers_unheard (α := Float) hlines (by decide)
  exact ⟨s, ph, ss, hs, hsurvey s hs, hph, hphases (by decide +kernel) ph hph, hss,
    hsegments (by decide +kernel) ss hss⟩

def firstOnly : Numbering := fun i ↦ if i = 0 then some ten else none

def bareTool : Text := "T1\nG1 X1".toList

def bareToolNumbered : Text := "N10 T1\nG1 X1".toList

def tools (t : Text) : Except LineFault (List (Option Int)) :=
  (Segment.ofProgram t : Except LineFault (List (Segment Float))).map (List.map Segment.tool)

/-- A number in front of a tool word that has its line to itself hides the tool. -/
theorem number_hides_tool :
    Text.lines bareToolNumbered = firstOnly.writeFrom 0 (Text.lines bareTool) ∧
      firstOnly.OnlyOn IsCode 0 (Text.lines bareTool) ∧ 'N' ∉ bareTool ∧
      tools bareTool = .ok [some 1] ∧ tools bareToolNumbered = .ok [none] := by
  refine ⟨by decide, by decide, by decide, ?_, ?_⟩
  · decide +kernel
  · decide +kernel

example : tools "M30 (end) T1 M6\nG1 X1".toList = .ok [none] ∧
    tools "N10 M30 (end) T1 M6\nG1 X1".toList = .ok [some 1] := by
  decide +kernel

end Runs

end Numbering

end StepAndRepeat
