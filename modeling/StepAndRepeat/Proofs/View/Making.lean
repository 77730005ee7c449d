import StepAndRepeat.Proofs.Job.History
import StepAndRepeat.Proofs.Replication.Passes
import StepAndRepeat.Proofs.Settings.Keeping
import StepAndRepeat.Proofs.View.Turns

namespace StepAndRepeat

theorem Assembly.exists_extent_of_assemble {o : Order Float} {program out : Text}
    (h : assemble o program = .ok out) : ∃ e : Extent Float, Survey.extent program = .ok e := by
  obtain ⟨ss, hss⟩ := exists_segments_of_assemble ⟨out, h⟩
  obtain ⟨ls, -, hls, -, -⟩ := Segment.headLines_subset hss
  exact ⟨_, by rw [Survey.extent, Survey.ofProgram, hls]; rfl⟩

namespace Job

/-- A job has taken in a text from a file, and has measured it if it can be measured. -/
structure Holds (j : Job) (t name : Text) : Prop where
  program_eq : j.program = t
  fileName_eq : j.fileName = some name
  sourceName_eq : j.sourceName = nameFor t (some name) none
  extent_eq : ∀ e, Survey.extent t = .ok e → j.extent = e

variable {j : Job} {t name text : Text} {s : Settings Float} {limits : Limits}

theorem holds_start : start.Holds [] defaultName := ⟨rfl, rfl, rfl, measuredOn_start.own⟩

theorem holds_load (j : Job) (t name : Text) :
    (j.load t (some name) none).state.Holds t name := by
  cases he : (Survey.extent t : Except LineFault (Extent Float)) with
  | error f =>
    rw [(load_of_error he).2]
    exact ⟨rfl, rfl, rfl, fun e h ↦ nomatch he.symm.trans h⟩
  | ok e =>
    rw [(load_of_ok he).2]
    exact ⟨rfl, rfl, rfl, fun e' h ↦ Except.ok.inj (he.symm.trans h)⟩

theorem Holds.of_problems (h : j.Holds t name) (ps : List Problem) :
    Holds { j with problems := ps } t name :=
  ⟨h.program_eq, h.fileName_eq, h.sourceName_eq, h.extent_eq⟩

theorem Holds.own (h : j.Holds t name) : j.Holds j.program name := h.program_eq ▸ h

theorem exists_extent_of_generate (h : (j.generate s limits).result = .ok (some text)) :
    ∃ e : Extent Float, Survey.extent j.program = .ok e := by
  rcases result_generate h with ⟨-, hnone⟩ | ⟨-, _, _, _, -, -, ha, -⟩
  · cases hnone
  · exact Assembly.exists_extent_of_assemble ha

theorem short_of_generate (h : (j.generate s limits).result = .ok (some text)) :
    Text.Short s.rows ∧ Text.Short s.columns := by
  rcases result_generate h with ⟨-, hnone⟩ | ⟨-, _, _, _, -, ho, -, -⟩
  · cases hnone
  · obtain ⟨_, _, _, -, hgrid, -, -⟩ := exists_banner_of_order ho
    obtain ⟨_, hcolumns, hgrid⟩ := bind_eq_ok.1 hgrid
    obtain ⟨_, hrows, -⟩ := bind_eq_ok.1 hgrid
    exact ⟨(Text.writeInt_eq_ok.1 hrows).1, (Text.writeInt_eq_ok.1 hcolumns).1⟩

theorem Holds.exists_outputName (h : j.Holds t name) (hr : Text.Short s.rows)
    (hc : Text.Short s.columns) : ∃ made, j.outputName s = .ok made := by
  have hsource : ∃ source, j.sourceName = some source := by
    rw [h.sourceName_eq, nameFor]
    cases (nonempty none).orElse fun _ ↦ sourceOf t with
    | none => exact ⟨_, rfl⟩
    | some source => exact ⟨source, rfl⟩
  obtain ⟨source, hsource⟩ := hsource
  rw [outputName, hsource, Text.writeInt_of_short hr, Text.writeInt_of_short hc]
  exact ⟨_, rfl⟩

theorem Holds.eq_of_extent {e : Extent Float} (h : j.Holds t name)
    (he : Survey.extent t = .ok e) :
    j = ⟨t, some name, nameFor t (some name) none, e, j.problems⟩ :=
  calc j = ⟨j.program, j.fileName, j.sourceName, j.extent, j.problems⟩ := rfl
    _ = _ := by rw [h.program_eq, h.fileName_eq, h.sourceName_eq, h.extent_eq e he]

/-- What a job makes of its text is what a new job makes of it. -/
theorem Holds.generate_iff (h : j.Holds t name) :
    (j.generate s limits).result = .ok (some text) ↔
      ((start.load t (some name) none).state.generate s limits).result = .ok (some text) := by
  cases he : (Survey.extent t : Except LineFault (Extent Float)) with
  | error f =>
    have hnone {k : Job} (hk : k.Holds t name) :
        (k.generate s limits).result ≠ .ok (some text) := fun hmade ↦ by
      obtain ⟨e, hextent⟩ := exists_extent_of_generate hmade
      rw [hk.program_eq, he] at hextent
      cases hextent
    exact iff_of_false (hnone h) (hnone (holds_load start t name))
  | ok e =>
    rw [h.eq_of_extent he, (holds_load start t name).eq_of_extent he]
    exact Iff.rfl

end Job

namespace Window

def made? (w : Window) (t : Text) : Option Text :=
  match ((Job.start.load t (some w.fileName) none).state.generate w.settings w.limits).result with
  | .ok made => made
  | .error _ => none

section Output

variable {w : Window} {t text : Text}

theorem made?_eq_some : w.made? t = some text ↔
    ((Job.start.load t (some w.fileName) none).state.generate w.settings w.limits).result =
      .ok (some text) := by
  unfold made?
  split
  next h => rw [h, Except.ok.injEq]
  next h => simp [h]

theorem Holds.made?_eq_some (h : w.job.Holds t w.fileName) : w.made? t = some text ↔
    (w.job.generate w.settings w.limits).result = .ok (some text) :=
  Window.made?_eq_some.trans h.generate_iff.symm

/-- Keeping settings that can be written does not fail, whatever becomes of the file. -/
theorem keepSettings_of_short (w : Window) {s : Settings Float} (hr : Text.Short s.rows)
    (hc : Text.Short s.columns) : ∃ files console,
      w.keepSettings s = ⟨{ w with files := files, console := console }, none⟩ := by
  unfold keepSettings
  split
  next => exact ⟨_, _, rfl⟩
  next => exact ⟨_, _, rfl⟩
  next f hf => exact absurd hf (Storage.saveSettings_ne_overrun hr hc f)

theorem output_generate (h : w.job.Holds t w.fileName) :
    w.generate.window.output = (w.made? t).getD w.output := by
  have hstate : (w.job.generate w.settings w.limits).state.Holds t w.fileName := by
    obtain ⟨ps, hps⟩ := w.job.state_validate w.settings w.limits .metric
    rw [Job.state_generate, hps]
    exact h.of_problems ps
  have hnone (hresult : ∀ text, (w.job.generate w.settings w.limits).result ≠ .ok (some text)) :
      w.made? t = none :=
    Option.eq_none_iff_forall_not_mem.2 fun text hmade ↦
      hresult text ((Holds.made?_eq_some h).1 hmade)
  unfold generate
  dsimp only
  split
  next f hresult =>
    rw [hnone fun text hmade ↦ nomatch hresult.symm.trans hmade]
    rfl
  next hresult =>
    rw [hnone fun text hmade ↦ nomatch hresult.symm.trans hmade]
    rfl
  next made hresult =>
    obtain ⟨hrows, hcolumns⟩ := Job.short_of_generate hresult
    obtain ⟨name, hname⟩ := hstate.exists_outputName hrows hcolumns
    rw [(Holds.made?_eq_some h).2 hresult]
    obtain ⟨files, console, hkept⟩ := keepSettings_of_short
      ({ w with job := (w.job.generate w.settings w.limits).state }.report .job
        (w.job.generate w.settings w.limits).log) hrows hcolumns
    rw [hkept, Reaction.andThen, report]
    dsimp only
    rw [hname]
    rfl

end Output

section Runs

variable {w₀ : Window} {host : Host} {files : FileTree} {initial : Option Text}

def EditedSince (w₀ : Window) (ts : List Turn) (t : Text) : Prop :=
  ∃ ts₁ text ts₂, ts = ts₁ ++ .event (.editSource text) :: ts₂ ∧ t = (w₀.after ts₁).source

/-- What is measured is the text in the editor, unless that was edited and the timer is pending. -/
structure Current (w₀ : Window) (ts : List Turn) (d : Desk) : Prop where
  holds : d.job.Holds d.job.program d.fileName
  program : d.job.program = d.source ∨ d.timerPending = true ∧ EditedSince w₀ ts d.job.program

variable {ts : List Turn} {d d' : Desk}

theorem EditedSince.append {t : Text} (h : EditedSince w₀ ts t) (us : List Turn) :
    EditedSince w₀ (ts ++ us) t := by
  obtain ⟨ts₁, text, ts₂, rfl, ht⟩ := h
  exact ⟨ts₁, text, ts₂ ++ us, by simp, ht⟩

theorem current_measure : Current w₀ ts d.measure := by
  obtain ⟨ps, shown, enabled, hmeasure⟩ := d.measure_eq
  rw [hmeasure]
  have hholds := Job.holds_load d.job d.source d.fileName
  exact ⟨(hholds.of_problems ps).own, .inl hholds.program_eq⟩

theorem Current.course {t : Turn} {f : Option WindowFault} (h : Current w₀ ts d)
    (hsource : (w₀.after ts).source = d.source) (hc : d.Course t f d') :
    Current w₀ (ts ++ [t]) d' := by
  have hprogram : d.job.program = d.source ∨
      d.timerPending = true ∧ EditedSince w₀ (ts ++ [t]) d.job.program :=
    h.program.imp_right fun ⟨hpending, hedited⟩ ↦ ⟨hpending, hedited.append [t]⟩
  cases hc with
  | stay => exact ⟨h.holds, hprogram⟩
  | edit text =>
    refine ⟨h.holds, .inr ⟨rfl, ?_⟩⟩
    rcases h.program with hsame | ⟨-, hedited⟩
    · exact ⟨ts, text, [], rfl, hsame.trans hsource.symm⟩
    · exact hedited.append _
  | ask =>
    obtain ⟨ps, hps⟩ := d.job.state_validate d.settings d.limits .metric
    rw [Job.state_generate, hps]
    exact ⟨h.holds.of_problems ps, hprogram⟩
  | check t u form =>
    obtain ⟨ps, shown, enabled, hcheck⟩ := Desk.check_eq { d with units := u, form := form }
    rw [hcheck]
    exact ⟨h.holds.of_problems ps, hprogram⟩
  | time => exact current_measure
  | «open» path name text => exact current_measure

theorem current_launch (h : launch? host files initial = some w₀) : Current w₀ [] w₀.desk := by
  obtain ⟨limits, s, d, rfl, ⟨hdesk, -⟩ | ⟨name, text, pending, hdesk, -⟩⟩ := launch?_cases h
  · rw [hdesk]
    exact ⟨Job.holds_start, .inl rfl⟩
  · rw [hdesk]
    exact current_measure

theorem current_after (h : launch? host files initial = some w₀) (ts : List Turn) :
    Current w₀ ts (w₀.after ts).desk := by
  -- from the end, since the last measurement is what counts
  induction ts using List.reverseRecOn with
  | nil => exact current_launch h
  | append_singleton ts t ih =>
    rw [after_concat]
    exact ih.course rfl ((w₀.after ts).course_take t)

/-- After any turns, failed ones included, the button writes what is made of the text measured last,
if anything is made of it. That is the text in the editor, unless the timer is pending that waits
for the text to be measured: then it may be one that was in the editor before an edit. -/
theorem output_after_generate (h₀ : launch? host files initial = some w₀) (ts : List Turn) :
    ∃ t, ((w₀.after ts).handle .generate).window.output =
        ((w₀.after ts).made? t).getD (w₀.after ts).output ∧
      (t = (w₀.after ts).source ∨ (w₀.after ts).timerPending = true ∧ EditedSince w₀ ts t) := by
  have hcurrent := current_after h₀ ts
  exact ⟨(w₀.after ts).job.program, output_generate hcurrent.holds, hcurrent.program⟩

end Runs

section Pending

def onePart : FileTree := .folder [("part.nc".toList, .file (Text.utf8 "G1 X10 Y5".toList))]

def edited : List Turn := [.event (.editSource "G1 X2".toList)]

theorem output_after_generate_measured : ∃ w₀ text,
    launch? Session.host onePart (some "part.nc".toList) = some w₀ ∧
      (w₀.after (edited ++ [.event .timer])).made? "G1 X2".toList = some text ∧
      ((w₀.after (edited ++ [.event .timer])).handle .generate).window.output = text := by
  have hrun : (launch? Session.host onePart (some "part.nc".toList)).any (fun w₀ ↦
      let w := w₀.after (edited ++ [.event .timer])
      !w.timerPending && w.source == "G1 X2".toList &&
        (w.made? "G1 X2".toList).isSome) = true := by decide +kernel
  obtain ⟨w₀, h₀, hdecided⟩ := (Option.any_eq_true ..).1 hrun
  obtain ⟨⟨hmeasured, hsource⟩, hmade⟩ : ((w₀.after (edited ++ [.event .timer])).timerPending =
      false ∧ (w₀.after (edited ++ [.event .timer])).source = "G1 X2".toList) ∧
      ((w₀.after (edited ++ [.event .timer])).made? "G1 X2".toList).isSome := by
    simpa using hdecided
  obtain ⟨text, htext⟩ := Option.isSome_iff_exists.1 hmade
  obtain ⟨t, houtput, rfl | ⟨hpending, -⟩⟩ :=
    output_after_generate h₀ (edited ++ [.event .timer])
  · refine ⟨w₀, text, h₀, htext, ?_⟩
    rw [houtput, hsource, htext]
    rfl
  · rw [hmeasured] at hpending
    cases hpending

def AlwaysOfEditor : Prop :=
  ∀ files initial w₀ ts w, launch? Session.host files initial = some w₀ → w₀.after? ts = some w →
    (w.handle .generate).fault = none → (w.handle .generate).window.status = "Generated".toList →
      w.made? w.source = some (w.handle .generate).window.output

theorem not_alwaysOfEditor : ¬ AlwaysOfEditor := by
  intro h
  have hstale : ((launch? Session.host onePart (some "part.nc".toList)).bind (·.after? edited)).any (fun w ↦
      (w.handle .generate).fault.isNone &&
        (w.handle .generate).window.status == "Generated".toList &&
        w.made? w.source != some (w.handle .generate).window.output) = true := by decide +kernel
  obtain ⟨w, hw, hdecided⟩ := (Option.any_eq_true ..).1 hstale
  obtain ⟨w₀, h₀, hedited⟩ := Option.bind_eq_some_iff.1 hw
  obtain ⟨⟨hfault, hstatus⟩, hother⟩ : ((w.handle .generate).fault = none ∧
      (w.handle .generate).window.status = "Generated".toList) ∧
      w.made? w.source ≠ some (w.handle .generate).window.output := by
    simpa using hdecided
  exact hother (h _ _ w₀ edited w h₀ hedited hfault hstatus)

end Pending

end Window

end StepAndRepeat
