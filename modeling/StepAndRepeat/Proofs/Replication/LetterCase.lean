import StepAndRepeat.Proofs.Program.LetterCase
import StepAndRepeat.Proofs.Replication.Structure
import StepAndRepeat.Proofs.Replication.Untooled

namespace StepAndRepeat

open Text

variable {α : Type}

section Capitals

@[simp] theorem Line.upper_upper (l : Line α) : l.upper.upper = l.upper := by
  rw [upper, upper, Text.upper_upper]

def Copy.upper (c : Copy α) : Copy α := ⟨c.line.upper, Text.upper c.text⟩

@[simp] theorem Copy.upper_upper (c : Copy α) : c.upper.upper = c.upper := by
  rw [upper, upper, Line.upper_upper, Text.upper_upper]

def LabelHold.upper (h : LabelHold α) : LabelHold α := { h with held := h.held.map Copy.upper }

def Replay.upper (r : Replay α) : Replay α := { r with hold := r.hold.upper }

def Entry.upper : Entry α → Entry α
  | note t => note t
  | copy c => copy c.upper

theorem Entry.upper_text_upper (e : Entry α) : Text.upper e.upper.text = Text.upper e.text := by
  cases e with
  | note t => rfl
  | copy c => exact Text.upper_upper c.text

end Capitals

namespace Label

theorem caseless_isPlain : Caseless isPlain := caseless_of_small (by decide)

theorem inner?_upper (t : Text) : inner? (upper t) = (inner? t).map upper := by
  cases t with
  | nil => rfl
  | cons c t =>
    by_cases hc : c = '('
    · subst hc
      have hopen : Char.toUpper '(' = '(' := by decide
      rw [upper_cons, hopen, inner?, inner?]
      simp only [getLast?_upper_eq_iff (d := ')') (by decide)]
      split
      · rw [Option.map_some, upper, upper, List.map_dropLast]
      · rfl
    · have hopen : c.toUpper ≠ '(' := mt (toUpper_eq_iff (by decide)).1 hc
      rw [upper_cons, inner?.eq_2 _ fun u hu ↦ hopen (List.cons.inj hu).1,
        inner?.eq_2 _ fun u hu ↦ hc (List.cons.inj hu).1]
      rfl

theorem isLabel_upper (t : Text) : isLabel (upper t) = isLabel t := by
  unfold isLabel
  dsimp only
  rw [trim_upper, inner?_upper]
  cases inner? (trim t) with
  | none => rfl
  | some u =>
    simp only [Option.map_some, trim_upper, length_upper, all_upper caseless_isPlain]

end Label

section Copying

variable [Coordinate α]

namespace Offset

variable (o : Offset α)

theorem upper_shiftPart (p : LinePart) : upper (o.shiftPart p.upper) = upper (o.shiftPart p) := by
  rcases p with t | c | ⟨l, n⟩
  · exact upper_upper t
  · exact upper_upper [c]
  · simp only [LinePart.upper, Token.upper, shiftPart, shiftToken, caseless_capital l,
      Numeral.ofText_upper]
    cases o.of? (capital l) with
    | none => exact upper_upper (l :: n)
    | some d => rfl

theorem upper_shiftText (t : Text) : upper (o.shiftText (upper t)) = upper (o.shiftText t) := by
  rw [shiftText_eq_flatMap, LinePart.ofLine_upper, List.flatMap_map, upper_flatMap,
    shiftText_eq_flatMap, upper_flatMap]
  exact List.flatMap_congr fun p _ ↦ o.upper_shiftPart p

theorem fst_step_upper (m : Modes) (l : Line α) : (o.step m l.upper).1 = (o.step m l).1 := rfl

theorem upper_snd_step (m : Modes) (l : Line α) :
    upper (o.step m l.upper).2 = upper (o.step m l).2 := by
  change upper (if applies (o.step m l).1 l then _ else _) =
    upper (if applies (o.step m l).1 l then _ else _)
  split
  · exact o.upper_shiftText l.text
  · exact upper_upper l.text

end Offset

theorem LabelHold.feed_upper (h : LabelHold α) (c : Copy α) (leaveOut : Bool) :
    h.upper.feed c.upper leaveOut =
      ((h.feed c leaveOut).1.upper, (h.feed c leaveOut).2.map Copy.upper) := by
  have hlabel : Label.isLabel c.upper.text = Label.isLabel c.text := Label.isLabel_upper c.text
  have hretract : h.upper.afterRetract = h.afterRetract := rfl
  have hmove : c.upper.line.isMachineMove = c.line.isMachineMove := rfl
  have hcomment : c.upper.line.isComment = c.line.isComment := rfl
  have hblank : c.upper.line.isBlank = c.line.isBlank := rfl
  have hstart : c.upper.line.isOperationStart = c.line.isOperationStart := rfl
  unfold feed
  dsimp only
  rw [hlabel, hretract, hmove, hcomment, hblank, hstart]
  split
  · rfl
  · split
    · rfl
    · cases hheld : h.held with
      | none =>
        have hnone : h.upper.held = none := by rw [upper, hheld, Option.map_none]
        rw [hnone]
        rfl
      | some label =>
        have hsome : h.upper.held = some label.upper := by rw [upper, hheld, Option.map_some]
        rw [hsome]
        dsimp only
        split <;> rfl

namespace Replay

variable (o : Offset α) (dropStops : Bool) {q r : Replay α}

/-- States that are the same in capitals stay the same, and so does what is written. -/
theorem step_congr (h : q.upper = r.upper) (l : Line α) :
    (step o dropStops q l.upper).1.upper = (step o dropStops r l).1.upper ∧
      (step o dropStops q l.upper).2.map Copy.upper =
        (step o dropStops r l).2.map Copy.upper := by
  obtain ⟨hmodes, hhold⟩ := Replay.mk.inj h
  have hcopy : (⟨l.upper, (o.step r.modes l.upper).2⟩ : Copy α).upper =
      (⟨l, (o.step r.modes l).2⟩ : Copy α).upper := by
    rw [Copy.upper, Copy.upper, Line.upper_upper, o.upper_snd_step]
  have hfeed := q.hold.feed_upper ⟨l.upper, (o.step r.modes l.upper).2⟩
    (dropStops && l.isSpindleStop)
  rw [hhold, hcopy, LabelHold.feed_upper] at hfeed
  obtain ⟨hheld, hwritten⟩ := Prod.mk.inj hfeed
  have hstop : l.upper.isSpindleStop = l.isSpindleStop := rfl
  rw [step, step, hmodes, hstop]
  refine ⟨?_, hwritten.symm⟩
  rw [upper, upper, hheld, o.fst_step_upper]

theorem run_congr (h : q.upper = r.upper) (ls : List (Line α)) :
    (run o dropStops q (ls.map Line.upper)).1.upper = (run o dropStops r ls).1.upper ∧
      (run o dropStops q (ls.map Line.upper)).2.map Copy.upper =
        (run o dropStops r ls).2.map Copy.upper := by
  induction ls generalizing q r with
  | nil => exact ⟨h, rfl⟩
  | cons l ls ih =>
    obtain ⟨hstate, hwritten⟩ := step_congr o dropStops h l
    obtain ⟨hend, hrest⟩ := ih hstate
    refine ⟨hend, ?_⟩
    rw [List.map_cons, run, run, List.map_append, List.map_append, hwritten, hrest]

theorem lines_upper (m : Modes) (ls : List (Line α)) :
    (lines o dropStops m (ls.map Line.upper)).1 = (lines o dropStops m ls).1 ∧
      (lines o dropStops m (ls.map Line.upper)).2.map Copy.upper =
        (lines o dropStops m ls).2.map Copy.upper := by
  have hstart : upper { modes := m } = (upper { modes := m } : Replay α) := rfl
  obtain ⟨hstate, hwritten⟩ := run_congr o dropStops hstart ls
  exact ⟨(Replay.mk.inj hstate).1, hwritten⟩

end Replay

end Copying

theorem Segment.headLines_map (g : Line α → Line α) (ss : List (Segment α)) :
    headLines (ss.map (map g)) = (headLines ss).map g := by
  have hheader : isHeader ∘ map g = (isHeader : Segment α → Bool) := rfl
  rw [headLines, headLines, List.find?_map]
  change ((ss.find? (isHeader ∘ map g)).map (map g) |>.map lines).getD [] = _
  rw [hheader]
  cases ss.find? isHeader <;> rfl

namespace Assembly

theorem marked_map {β γ : Type} (f : β → γ) (bs : List β) :
    marked (bs.map f) = (marked bs).map (Prod.map f id) := by
  fun_induction marked bs with
  | case1 => rfl
  | case2 => rfl
  | case3 b bs hne ih =>
    obtain ⟨c, cs, rfl⟩ := List.exists_cons_of_ne_nil hne
    exact congrArg ((f b, false) :: ·) ih

def capitals (es : List (Entry α)) : List (Entry α) := es.map Entry.upper

theorem capitals_append (es fs : List (Entry α)) :
    capitals (es ++ fs) = capitals es ++ capitals fs := List.map_append

theorem capitals_copies (cs : List (Copy α)) :
    capitals (cs.map .copy) = (cs.map Copy.upper).map .copy := by
  rw [capitals, List.map_map, List.map_map]
  rfl

theorem capitals_flatMap_congr {β : Type} {f g : β → List (Entry α)}
    (h : ∀ b, capitals (f b) = capitals (g b)) (bs : List β) :
    capitals (bs.flatMap f) = capitals (bs.flatMap g) := by
  rw [capitals, List.map_flatMap, capitals, List.map_flatMap]
  exact List.flatMap_congr fun b _ ↦ h b

theorem capitals_verbatim (ls : List (Line α)) :
    capitals (Entry.verbatim (ls.map Line.upper)) = capitals (Entry.verbatim ls) := by
  have hline (l : Line α) : (Copy.verbatim l.upper).upper = (Copy.verbatim l).upper :=
    Copy.upper_upper (.verbatim l)
  simp only [capitals, Entry.verbatim, List.map_map]
  exact List.map_congr_left fun l _ ↦ congrArg Entry.copy (hline l)

theorem capitals_header (ls : List (Line α)) :
    capitals (header (ls.map Line.upper)) = capitals (header ls) := by
  rw [header, header, List.isEmpty_map]
  split
  · rfl
  · rw [capitals_append, capitals_append, capitals_verbatim]

theorem capitals_runEntries (r : Int × List (Copy α)) :
    capitals (runEntries r) = runEntries (Prod.map id (List.map Copy.upper) r) := by
  rw [runEntries, List.cons_append, capitals, List.map_cons, ← capitals, capitals_append,
    capitals_copies]
  rfl

variable [Coordinate α] (o : Order α) (i : Instance α)

theorem capitals_replay (dropStops : Bool) (ls : List (Line α)) :
    capitals (replay i dropStops (ls.map Line.upper)) = capitals (replay i dropStops ls) := by
  rw [replay, replay, capitals_copies, capitals_copies,
    (Replay.lines_upper i.offset dropStops {} ls).2]

theorem capitals_withoutTools (p : Phases α) :
    capitals (withoutTools o (p.map Line.upper)) = capitals (withoutTools o p) := by
  simp only [withoutTools, Phases.map, capitals_append, capitals_verbatim]
  congr 2
  refine capitals_flatMap_congr (fun t ↦ ?_) _
  obtain ⟨i, last⟩ := t
  simp only [capitals_append, capitals_replay]

theorem map_runs_upper (last : Bool) (m : Modes) (ss : List ((Int × Segment α) × Bool)) :
    (runs i last m (ss.map (Prod.map (Prod.map id (Segment.map Line.upper)) id))).map
        (Prod.map id (List.map Copy.upper)) =
      (runs i last m ss).map (Prod.map id (List.map Copy.upper)) := by
  induction ss generalizing m with
  | nil => rfl
  | cons s ss ih =>
    obtain ⟨⟨n, s⟩, lastSegment⟩ := s
    obtain ⟨hmodes, hlines⟩ :=
      Replay.lines_upper i.offset (!(last && lastSegment)) m s.lines
    simp only [List.map_cons, Prod.map_apply, id, runs, Segment.map, hmodes, hlines, ih]

theorem capitals_standard (head : List (Line α)) (ss : List (Int × Segment α)) :
    capitals (standard o (head.map Line.upper) (ss.map (Prod.map id (Segment.map Line.upper)))) =
      capitals (standard o head ss) := by
  have hentries (rs : List (Int × List (Copy α))) : capitals (rs.flatMap runEntries) =
      (rs.map (Prod.map id (List.map Copy.upper))).flatMap runEntries := by
    rw [capitals, List.map_flatMap, List.flatMap_map]
    exact List.flatMap_congr fun r _ ↦ capitals_runEntries r
  simp only [standard, capitals_append, capitals_header, List.length_map, marked_map]
  congr 1
  refine capitals_flatMap_congr (fun t ↦ ?_) _
  obtain ⟨i, last⟩ := t
  simp only [capitals_append, hentries, map_runs_upper]

theorem capitals_sorted (head : List (Line α)) (ss : List (Int × Segment α))
    (gs : List (Int × List (Segment α))) :
    capitals (sorted o (head.map Line.upper) (ss.map (Prod.map id (Segment.map Line.upper)))
        (gs.map (Prod.map id (List.map (Segment.map Line.upper))))) =
      capitals (sorted o head ss gs) := by
  have htools : (gs.map (Prod.map id (List.map (Segment.map Line.upper)))).map (·.1) =
      gs.map (·.1) := by
    rw [List.map_map]
    rfl
  simp only [sorted, capitals_append, capitals_header, List.length_map, htools, List.flatMap_map]
  congr 1
  refine capitals_flatMap_congr (fun g ↦ ?_) _
  obtain ⟨n, group⟩ := g
  simp only [Prod.map_apply, id, capitals_append, Segment.flatMap_lines_map]
  congr 1
  refine capitals_flatMap_congr (fun t ↦ ?_) _
  obtain ⟨i, last⟩ := t
  simp only [capitals_append, capitals_replay]

/-- For a program in capitals the same notes are written and copies of the same lines. -/
theorem entries_upper (p : Text) : (entries o (upper p)).map capitals = (entries o p).map capitals := by
  cases hss : (Segment.ofProgram p : Except LineFault (List (Segment α))) with
  | error e =>
    have hupper : (Segment.ofProgram (upper p) : Except LineFault (List (Segment α))) = .error e := by
      rw [Segment.ofProgram_upper, hss]
      rfl
    simp [entries, hss, hupper, bind, Except.bind]
  | ok ss =>
    have hupper : Segment.ofProgram (upper p) = .ok (ss.map (Segment.map Line.upper)) := by
      rw [Segment.ofProgram_upper, hss]
      rfl
    by_cases htooled : Segment.tooled ss = []
    · have htooled' : Segment.tooled (ss.map (Segment.map Line.upper)) = [] := by
        rw [Segment.tooled_map, htooled]
        rfl
      rw [entries_of_untooled o hss htooled, entries_of_untooled o hupper htooled',
        Segment.headLines_map, Phases.ofLines_upper]
      cases Phases.ofLines (Segment.headLines ss) with
      | error _ => rfl
      | ok ph =>
        refine congrArg Except.ok ?_
        simp only [capitals_append, capitals_withoutTools]
    · have htooled' : Segment.tooled (ss.map (Segment.map Line.upper)) ≠ [] := by
        rwa [Segment.tooled_map, ne_eq, List.map_eq_nil_iff]
      rw [entries_of_tooled o hss htooled, entries_of_tooled o hupper htooled',
        Segment.headLines_map, Segment.tooled_map, Segment.byTool_map]
      refine congrArg Except.ok ?_
      cases o.sortByTool
      · simp only [capitals_append, capitals_standard, Bool.false_eq_true, if_false]
      · simp only [capitals_append, capitals_sorted, if_true]

def writtenUpper (o : Order α) (p : Text) : Except LineFault (List Text) :=
  (assemble o p).map fun t ↦ (cut '\n' t).map upper

theorem writtenUpper_eq (o : Order α) (p : Text) :
    writtenUpper o p = ((entries o p).map capitals).map fun es ↦
      cut '\n' (join ['\n'] (es.map fun e ↦ upper e.text)) := by
  have htexts (es : List (Entry α)) : (es.map Entry.text).map upper =
      (capitals es).map fun e ↦ upper e.text := by
    rw [capitals, List.map_map, List.map_map]
    exact List.map_congr_left fun e _ ↦ e.upper_text_upper.symm
  have hlines (es : List (Entry α)) : (cut '\n' (join ['\n'] (es.map Entry.text))).map upper =
      cut '\n' (join ['\n'] ((capitals es).map fun e ↦ upper e.text)) := by
    rw [← cut_upper (by decide), upper_join (by decide), htexts]
  rw [writtenUpper, assemble]
  cases entries o p with
  | error _ => rfl
  | ok es => exact congrArg Except.ok (hlines es)

end Assembly

namespace Line

variable [Coordinate α]

structure Recased (l r : Line α) : Prop where
  text : Text.upper r.text = Text.upper l.text
  index : r.index = l.index
  kind : r.kind = l.kind
  words : r.words = l.words
  values : ∀ c, r.values c = l.values c
  tool : r.tool = l.tool
  flags : r.flags = l.flags
  modes : ∀ m : Modes, m.after r = m.after l

theorem recased_of_upper_eq {l r : Line α} (h : r.upper = l.upper) : l.Recased r := by
  obtain ⟨i, t, k, ws, n⟩ := l
  obtain ⟨j, u, k', ws', n'⟩ := r
  obtain ⟨rfl, htext, rfl, rfl, rfl⟩ := Line.mk.inj h
  exact ⟨htext, rfl, rfl, rfl, fun _ ↦ rfl, rfl, rfl, fun _ ↦ rfl⟩

variable (α) in
def ReadAlike (t u : Text) (i : Nat) : Prop :=
  (∃ e, (readAt i t : Except LineFault (Line α)) = .error e ∧
    (readAt i u : Except LineFault (Line α)) = .error e) ∨
  ∃ l r : Line α, readAt i t = .ok l ∧ readAt i u = .ok r ∧ l.Recased r

theorem readAlike_of_upper_eq {t u : Text} (h : Text.upper u = Text.upper t) (i : Nat) :
    ReadAlike α t u i := by
  have hread : (readAt i u : Except LineFault (Line α)).map upper = (readAt i t).map upper := by
    rw [← readAt_upper, h, readAt_upper]
  cases ht : (readAt i t : Except LineFault (Line α)) with
  | error e =>
    cases hu : (readAt i u : Except LineFault (Line α)) with
    | error f =>
      rw [ht, hu] at hread
      exact .inl ⟨e, ht, hu.trans (congrArg Except.error (Except.error.inj hread))⟩
    | ok r => simp [ht, hu, Except.map] at hread
  | ok l =>
    cases hu : (readAt i u : Except LineFault (Line α)) with
    | error f => simp [ht, hu, Except.map] at hread
    | ok r =>
      rw [ht, hu] at hread
      exact .inr ⟨l, r, ht, hu, recased_of_upper_eq (Except.ok.inj hread)⟩

end Line

section Programs

variable [Circular α] {p q : Text}

variable (α) in
/-- Programs that say the same: they are read, measured, divided and written alike, and only the case
of letters can differ. -/
structure SaysSame (p q : Text) : Prop where
  lines : List.Forall₂ (fun t u ↦ ∀ i, Line.ReadAlike α t u i) (Text.lines p) (Text.lines q)
  survey : (Survey.ofProgram q : Except LineFault (Survey α)) = Survey.ofProgram p
  segments : (Segment.ofProgram q : Except LineFault (List (Segment α))).map
      (List.map (Segment.map Line.upper)) =
    (Segment.ofProgram p).map (List.map (Segment.map Line.upper))
  phases : ((Line.readAll q).bind (Phases.ofLines (α := α))).map (Phases.map Line.upper) =
    ((Line.readAll p).bind Phases.ofLines).map (Phases.map Line.upper)
  /-- The notes are the same, and between them the same lines are copied. -/
  entries : ∀ o : Order α,
    (Assembly.entries o q).map Assembly.capitals = (Assembly.entries o p).map Assembly.capitals
  written : ∀ o : Order α, Assembly.writtenUpper o q = Assembly.writtenUpper o p

theorem Phases.bind_upper (p : Text) : (Line.readAll (upper p)).bind (ofLines (α := α)) =
    ((Line.readAll p).bind ofLines).map (Phases.map Line.upper) := by
  rw [Line.readAll_upper]
  cases (Line.readAll p : Except LineFault (List (Line α))) with
  | error _ => rfl
  | ok ls => exact ofLines_upper ls

/-- The case of letters does not matter. -/
theorem saysSame_of_upper_eq (h : upper q = upper p) : SaysSame α p q where
  lines := by
    have hlines : List.Forall₂ (· = ·) ((Text.lines p).map upper) ((Text.lines q).map upper) := by
      rw [← lines_upper, ← lines_upper, h, List.forall₂_eq_eq_eq]
    rw [List.forall₂_map_left_iff, List.forall₂_map_right_iff] at hlines
    exact hlines.imp fun _ _ heq ↦ Line.readAlike_of_upper_eq heq.symm
  survey := by rw [← Survey.ofProgram_upper, h, Survey.ofProgram_upper]
  segments := by rw [← Segment.ofProgram_upper, h, Segment.ofProgram_upper]
  phases := by rw [← Phases.bind_upper, h, Phases.bind_upper]
  entries o := by rw [← Assembly.entries_upper, h, Assembly.entries_upper]
  written o := by
    rw [Assembly.writtenUpper_eq, ← Assembly.entries_upper, h, Assembly.entries_upper,
      Assembly.writtenUpper_eq]

def spelled : Text := "g21\nT1 m6\nM3\n(Bore 2)\nG1 x1 Y-2;gX\ng53 z0\nM30".toList

def respelled : Text := "G21\nt1 M6\nm3\n(bORE 2)\ng1 X1 y-2;Gx\nG53 Z0\nm30".toList

theorem saysSame_respelled : upper respelled = upper spelled ∧ respelled ≠ spelled ∧
    Numbering.tools respelled = .ok [none, some 1] ∧ SaysSame Float spelled respelled :=
  ⟨by decide, by decide, by decide +kernel, saysSame_of_upper_eq (by decide)⟩

end Programs

end StepAndRepeat
