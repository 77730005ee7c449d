import StepAndRepeat.Proofs.Job.Agreement
import StepAndRepeat.Session

namespace StepAndRepeat

def Reaction.window? (r : Reaction) : Option Window :=
  match r.fault with
  | none => some r.window
  | some _ => none

theorem Reaction.window?_eq_some {r : Reaction} {w : Window} :
    r.window? = some w ↔ r.fault = none ∧ r.window = w := by
  unfold window?
  cases r.fault <;> simp

namespace Window

/-- What can happen to a window: an event that it answers, or a change of its files by others. -/
inductive Turn where
  | event (e : Event)
  | disk (files : FileTree)

def take (w : Window) : Turn → Reaction
  | .event e => w.handle e
  | .disk files => ⟨{ w with files := files }, none⟩

/-- The window after some turns, failed ones included. -/
def after (w : Window) (ts : List Turn) : Window := ts.foldl (fun w t ↦ (w.take t).window) w

theorem after_concat (w : Window) (ts : List Turn) (t : Turn) :
    w.after (ts ++ [t]) = ((w.after ts).take t).window := List.foldl_append

def after? (w : Window) (ts : List Turn) : Option Window := ts.foldlM (fun w t ↦ (w.take t).window?) w

def launch? (host : Host) (files : FileTree) (initial : Option Text) : Option Window :=
  match launch host files initial with
  | .ok r => r.window?
  | .error _ => none

/-- What a window measures, checks and makes programs from, and what it shows of that. -/
structure Desk where
  fields : Fields
  job : Job
  limits : Limits
  units : Units
  fileName : Text
  form : Form
  source : Text
  timerPending : Bool
  canGenerate : Bool
  summary : Text

def desk (w : Window) : Desk :=
  ⟨w.fields, w.job, w.limits, w.units, w.fileName, w.form, w.source, w.timerPending, w.canGenerate,
    w.summary⟩

namespace Desk

variable (d : Desk)

def settings : Settings Float := d.form.settings d.units

def verdict : Except JobFault Bool := (d.job.validate d.settings d.limits d.units).result

def check : Desk :=
  let o := d.job.summary d.settings d.limits d.units
  match o.result with
  | .error _ => { d with job := o.state }
  | .ok sum =>
    { d with
      job := o.state
      summary := summaryText d.units sum
      canGenerate := sum.canGenerate }

def checkFault : Option WindowFault :=
  match (d.job.summary d.settings d.limits d.units).result with
  | .error f => some (.job f)
  | .ok _ => none

def loaded : Desk := { d with job := (d.job.load d.source (some d.fileName) none).state }

def measure : Desk :=
  match (d.job.load d.source (some d.fileName) none).result with
  | .error _ => d.loaded
  | .ok _ => d.loaded.check

def measureFault : Option WindowFault :=
  match (d.job.load d.source (some d.fileName) none).result with
  | .error f => some (.job f)
  | .ok _ => d.loaded.checkFault

/-- Each gap of a form is the one that was there, or what a field makes of a number. -/
structure Entered (f : Form) : Prop where
  gapX : f.gapX = d.form.gapX ∨ ∃ x, f.gapX = d.fields.gap x
  gapY : f.gapY = d.form.gapY ∨ ∃ y, f.gapY = d.fields.gap y

/-- What a turn makes of a desk, and the fault if it fails. -/
inductive Course : Turn → Option WindowFault → Desk → Prop
  | stay (t : Turn) (f : Option WindowFault) : Course t f d
  | edit (text : Text) :
      Course (.event (.editSource text)) none { d with source := text, timerPending := true }
  | ask (t : Turn) (f : Option WindowFault) :
      Course t f { d with job := (d.job.generate d.settings d.limits).state }
  | check (t : Turn) (u : Units) (f : Form) (h : d.Entered f) :
      Course t (checkFault { d with units := u, form := f })
        (Desk.check { d with units := u, form := f })
  | time (h : d.timerPending = true) :
      Course (.event .timer) (measureFault { d with timerPending := false })
        (measure { d with timerPending := false })
  | open (path name text : Text) :
      Course (.event (.load (some path))) (measureFault { d with fileName := name, source := text })
        (measure { d with fileName := name, source := text })

end Desk

section Check

variable (d : Desk)

theorem Desk.check_eq : ∃ ps shown enabled, d.check = { d with
    job := { d.job with problems := ps }, summary := shown, canGenerate := enabled } := by
  obtain ⟨ps, hps⟩ := d.job.state_validate d.settings d.limits d.units
  unfold check
  dsimp only
  rw [Job.state_summary, hps]
  split <;> exact ⟨_, _, _, rfl⟩

theorem Desk.measure_eq : ∃ ps shown enabled, d.measure = { d with
    job := { d.loaded.job with problems := ps }, summary := shown, canGenerate := enabled } := by
  unfold measure
  split
  · exact ⟨_, _, _, rfl⟩
  · exact d.loaded.check_eq

end Check

section Turns

variable (w : Window)

/-- What a summary says about the program is what the problems found say. -/
theorem canGenerate_eq {j : Job} {s : Settings Float} {limits : Limits} {u : Units}
    {m : Job.Summary} (h : (j.summary s limits u).result = .ok m) :
    m.canGenerate = !Problem.anyBlocking (j.summary s limits u).state.problems := by
  have hvalid := (Job.result_summary h).1
  rw [Job.state_summary]
  unfold Job.validate at hvalid ⊢
  split at hvalid
  next => cases hvalid
  next =>
    dsimp only at hvalid ⊢
    split at hvalid
    next => cases hvalid
    next => exact (Except.ok.inj hvalid).symm

theorem exists_preview_of_summary {j k : Job} {s : Settings Float} {limits : Limits} {u : Units}
    {m : Job.Summary} (h : (j.summary s limits u).result = .ok m) :
    ∃ cells, k.preview s = .ok cells :=
  ⟨_, map_eq_ok.2 ⟨_, (Job.result_summary h).2.2.1, rfl⟩⟩

theorem updatePreview_desk : w.updatePreview.window.desk = w.desk.check ∧
    w.updatePreview.fault = w.desk.checkFault := by
  have hdesk : w.desk.job.summary w.desk.settings w.desk.limits w.desk.units =
      w.job.summary w.settings w.limits w.units := rfl
  unfold updatePreview Desk.check Desk.checkFault
  dsimp only
  rw [hdesk]
  cases h : (w.job.summary w.settings w.limits w.units).result with
  | error f => exact ⟨rfl, rfl⟩
  | ok m =>
    have hshown (k : Job) := exists_preview_of_summary (k := k) h
    dsimp only
    rw [canGenerate_eq h]
    split
    next f hf =>
      obtain ⟨cells, hcells⟩ := hshown _
      exact nomatch hf.symm.trans hcells
    next => exact ⟨rfl, rfl⟩

theorem analyze_desk : w.analyze.window.desk = w.desk.measure ∧
    w.analyze.fault = w.desk.measureFault := by
  have hdesk : w.desk.job.load w.desk.source (some w.desk.fileName) none =
      w.job.load w.source (some w.fileName) none := rfl
  unfold analyze Desk.measure Desk.measureFault
  dsimp only
  rw [hdesk]
  cases (w.job.load w.source (some w.fileName) none).result with
  | error f => exact ⟨rfl, rfl⟩
  | ok _ => exact updatePreview_desk _

theorem keepSettings_desk (s : Settings Float) : (w.keepSettings s).window.desk = w.desk := by
  unfold keepSettings
  split <;> rfl

theorem andThen_desk {r : Reaction} {next : Window → Reaction} {d : Desk}
    (hr : r.window.desk = d) (hnext : ∀ w, w.desk = d → (next w).window.desk = d) :
    (r.andThen next).window.desk = d := by
  unfold Reaction.andThen
  split
  · exact hnext _ hr
  · exact hr

theorem generate_desk : w.generate.window.desk =
    { w.desk with job := (w.job.generate w.settings w.limits).state } := by
  unfold generate
  dsimp only
  split
  · rfl
  · rfl
  · refine andThen_desk (keepSettings_desk _ _) fun w' hw' ↦ ?_
    rw [← hw']
    split <;> rfl

/-- What was asked before has no part in a summary. -/
theorem summary_check (d : Desk) : d.check.job.summary d.check.settings d.check.limits d.check.units =
    d.job.summary d.settings d.limits d.units := by
  obtain ⟨ps, hps⟩ := d.job.state_validate d.settings d.limits d.units
  have hstate : (d.job.summary d.settings d.limits d.units).state =
      { d.job with problems := ps } := by rw [Job.state_summary, hps]
  unfold Desk.check
  dsimp only
  rw [hstate]
  split <;> rfl

theorem check_check (d : Desk) : d.check.check = d.check ∧ d.check.checkFault = d.checkFault := by
  have hagain := summary_check d
  unfold Desk.checkFault
  rw [hagain]
  refine ⟨?_, rfl⟩
  rw [Desk.check, hagain]
  unfold Desk.check
  dsimp only
  split <;> rfl

theorem changeShape_desk (f : Form) : ∃ text, (w.changeShape f).window.desk =
    Desk.check { w.desk with form := { f with skipText := text } } ∧
      (w.changeShape f).fault =
        Desk.checkFault { w.desk with form := { f with skipText := text } } := by
  unfold changeShape Reaction.andThen
  split
  · exact ⟨f.skipText, updatePreview_desk { w with form := f }⟩
  · -- the skip text is cleared first, and that alone has the form checked once
    have hclear := updatePreview_desk { w with form := { f with skipText := [] } }
    refine ⟨[], ?_⟩
    dsimp only
    split
    next hfault =>
      have hagain := updatePreview_desk
        (updatePreview { w with form := { f with skipText := [] } }).window
      rw [hclear.1, (check_check _).1, (check_check _).2] at hagain
      exact hagain
    next => exact hclear

theorem openFile_cases (path : Text) :
    (∃ f, w.files.readAt path = .error f ∧ (w.openFile path).window.desk = w.desk) ∨
      (w.openFile path).fault ≠ none ∧ (w.openFile path).window.desk = w.desk ∨
      ∃ name text, (w.openFile path).window.desk =
        Desk.measure { w.desk with fileName := name, source := text } ∧
          (w.openFile path).fault =
            Desk.measureFault { w.desk with fileName := name, source := text } := by
  unfold openFile
  cases w.files.readAt path with
  | error f => exact .inl ⟨f, rfl, rfl⟩
  | ok content =>
    dsimp only
    split
    · exact .inr (.inl ⟨by simp, rfl⟩)
    · exact .inr (.inr ⟨_, _, analyze_desk _⟩)

/-- Every turn takes one of the six courses. -/
theorem course_take (t : Turn) : w.desk.Course t (w.take t).fault (w.take t).window.desk := by
  have hchange (f : Form) (u : Units) (hf : w.desk.Entered f) :
      w.desk.Course t (updatePreview { w with units := u, form := f }).fault
        (updatePreview { w with units := u, form := f }).window.desk := by
    obtain ⟨hdesk, hfault⟩ := updatePreview_desk { w with units := u, form := f }
    rw [hdesk, hfault]
    exact .check t u f hf
  have hshape (f : Form) (hf : w.desk.Entered f) :
      w.desk.Course t (w.changeShape f).fault (w.changeShape f).window.desk := by
    obtain ⟨text, hdesk, hfault⟩ := w.changeShape_desk f
    rw [hdesk, hfault]
    exact .check t w.units _ ⟨hf.gapX, hf.gapY⟩
  have hset {p : Prop} [Decidable p] {r : Reaction}
      (h : w.desk.Course t r.fault r.window.desk) :
      w.desk.Course t (if p then ⟨w, none⟩ else r).fault
        (if p then ⟨w, none⟩ else r).window.desk := by
    split
    · exact .stay t none
    · exact h
  cases t with
  | disk files => exact .stay _ none
  | event e =>
    cases e with
    | setColumns n => exact hset (hshape _ ⟨.inl rfl, .inl rfl⟩)
    | setRows n => exact hset (hshape _ ⟨.inl rfl, .inl rfl⟩)
    | setColumnDirection d => exact hset (hchange _ w.units ⟨.inl rfl, .inl rfl⟩)
    | setRowDirection d => exact hset (hchange _ w.units ⟨.inl rfl, .inl rfl⟩)
    | setGapX x => exact hset (hchange _ w.units ⟨.inr ⟨x, rfl⟩, .inl rfl⟩)
    | setGapY y => exact hset (hchange _ w.units ⟨.inl rfl, .inr ⟨y, rfl⟩⟩)
    | setSortByTool b => exact hset (hchange _ w.units ⟨.inl rfl, .inl rfl⟩)
    | setSkipText text => exact hset (hchange _ w.units ⟨.inl rfl, .inl rfl⟩)
    | setUnits u => exact hset (hchange _ u ⟨.inr ⟨_, rfl⟩, .inr ⟨_, rfl⟩⟩)
    | editSource text => exact .edit text
    | timer =>
      rw [take, handle, fireTimer]
      split
      next hpending =>
        obtain ⟨hdesk, hfault⟩ := analyze_desk { w with timerPending := false }
        rw [hdesk, hfault]
        exact .time hpending
      next => exact .stay _ none
    | generate =>
      rw [take, handle, generate_desk]
      exact .ask _ _
    | load path =>
      cases path with
      | none => exact .stay _ none
      | some path =>
        rcases w.openFile_cases path with ⟨-, -, hdesk⟩ | ⟨-, hdesk⟩ | ⟨name, text, hdesk, hfault⟩
        · rw [take, handle, hdesk]
          exact .stay _ _
        · rw [take, handle, hdesk]
          exact .stay _ _
        · rw [take, handle, hdesk, hfault]
          exact .open path name text
    | save path =>
      cases path with
      | none => exact .stay _ none
      | some path =>
        have hdesk : (w.saveOutput path).desk = w.desk := by
          unfold saveOutput
          split <;> rfl
        rw [take, handle, hdesk]
        exact .stay _ none

/-- What every turn preserves holds after any number of them. -/
theorem after_preserves {P : Desk → Prop} {w₀ : Window}
    (hstep : ∀ d d' t f, Desk.Course d t f d' → P d → P d') (h₀ : P w₀.desk) (ts : List Turn) :
    P (w₀.after ts).desk := by
  induction ts generalizing w₀ with
  | nil => exact h₀
  | cons t ts ih => exact ih (hstep _ _ t _ (w₀.course_take t) h₀)

/-- What turns that do not fail preserve holds after any number of them. -/
theorem after?_preserves {P : Desk → Prop} {w₀ w : Window} {ts : List Turn}
    (hstep : ∀ d d' t f, Desk.Course d t f d' → f = none → P d → P d') (h₀ : P w₀.desk)
    (h : w₀.after? ts = some w) : P w.desk := by
  induction ts generalizing w₀ with
  | nil => exact Option.some_inj.1 h ▸ h₀
  | cons t ts ih =>
    obtain ⟨w₁, h₁, h⟩ := Option.bind_eq_some_iff.1 h
    obtain ⟨hfault, rfl⟩ := Reaction.window?_eq_some.1 h₁
    exact ih (hstep _ _ t _ (w₀.course_take t) hfault h₀) h

end Turns

section Launch

def blankSummary : Text := "Summary:\nNo program loaded".toList

def Desk.blank (fields : Fields) (limits : Limits) (form : Form) : Desk :=
  ⟨fields, .start, limits, .metric, Job.defaultName, form, [], false, true, blankSummary⟩

def Unread (files : FileTree) (initial : Option Text) : Prop :=
  ∃ path f, path ≠ [] ∧ initial = some path ∧ files.readAt path = .error f

variable {host : Host} {files : FileTree} {initial : Option Text} {w : Window}

theorem desk_of_start (h : start host files = .ok w) :
    w.files = files ∧ ∃ limits s,
      w.desk = .blank host.fields limits (.ofSettings host.fields .metric s) := by
  unfold start at h
  cases hs : Storage.loadSettings host.room files (Storage.settingsPath Storage.here).text with
  | error f => simp [hs, bind, Except.bind] at h
  | ok s =>
    cases hl : Storage.loadLimits host.room files (Storage.firmwarePath Storage.here).text with
    | error f => simp [hs, hl, bind, Except.bind] at h
    | ok limits =>
      simp only [hs, hl, bind, Except.bind, pure, Except.pure, Except.ok.injEq] at h
      subst h
      exact ⟨rfl, _, _, rfl⟩

theorem launch?_cases (h : launch? host files initial = some w) : ∃ limits s d,
    d = Desk.blank host.fields limits (.ofSettings host.fields .metric s) ∧
      (w.desk = d ∧ Unread files initial ∨
        ∃ name text pending, w.desk = Desk.measure { d with
            fileName := name, source := text, timerPending := pending } ∧
          Desk.measureFault { d with
            fileName := name, source := text, timerPending := pending } = none) := by
  unfold launch? at h
  split at h
  next r hr =>
    obtain ⟨hfault, rfl⟩ := Reaction.window?_eq_some.1 h
    unfold launch at hr
    cases hs : start host files with
    | error f => simp [hs, bind, Except.bind] at hr
    | ok w₀ =>
      obtain ⟨rfl, limits, s, hdesk⟩ := desk_of_start hs
      simp only [hs, bind, Except.bind] at hr
      refine ⟨limits, s, w₀.desk, hdesk, ?_⟩
      have hsample {r : Reaction} (hr : (w₀.editSource sampleProgram).analyze = r)
          (hf : r.fault = none) : ∃ name text pending, r.window.desk =
            Desk.measure { w₀.desk with
              fileName := name, source := text, timerPending := pending } ∧
            Desk.measureFault { w₀.desk with
              fileName := name, source := text, timerPending := pending } = none := by
        subst hr
        obtain ⟨hd, hm⟩ := analyze_desk (w₀.editSource sampleProgram)
        exact ⟨w₀.fileName, sampleProgram, true, hd, hm ▸ hf⟩
      split at hr
      · exact .inr (hsample (Except.ok.inj hr) hfault)
      · exact .inr (hsample (Except.ok.inj hr) hfault)
      next path hne =>
        obtain rfl := Except.ok.inj hr
        rcases w₀.openFile_cases path with ⟨f, hf, hd⟩ | ⟨hf, -⟩ | ⟨name, text, hd, hm⟩
        · exact .inl ⟨hd, path, f, fun hnil ↦ hne (by rw [hnil]), rfl, hf⟩
        · exact absurd hfault hf
        · exact .inr ⟨name, text, w₀.timerPending, hd, hm ▸ hfault⟩
  next => cases h

end Launch

end Window

end StepAndRepeat
