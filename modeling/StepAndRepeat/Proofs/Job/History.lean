import StepAndRepeat.Proofs.Job.Agreement
import StepAndRepeat.Proofs.Program.Overflow

namespace StepAndRepeat.Job

/-- What a job can be called upon to do. -/
inductive Call where
  | load (program : Text) (fileName given : Option Text)
  | ask (q : Question)
  | plan (s : Settings Float)
  | banner (s : Settings Float)
  | outputName (s : Settings Float)
  | preview (s : Settings Float)
  | gridSize (s : Settings Float)
  | partSize
  | listProblems

def perform (j : Job) : Call → Job
  | .load program fileName given => (j.load program fileName given).state
  | .ask q => j.ask q
  | .plan _ | .banner _ | .outputName _ | .preview _ | .gridSize _ | .partSize | .listProblems => j

def performAll (j : Job) (calls : List Call) : Job := calls.foldl perform j

theorem performAll_concat (j : Job) (calls : List Call) (c : Call) :
    j.performAll (calls ++ [c]) = (j.performAll calls).perform c := List.foldl_append

def nameFor (program : Text) (fileName given : Option Text) : Option Text :=
  ((nonempty given).orElse fun _ ↦ sourceOf program).orElse fun _ ↦ fileName

section Load

variable {j : Job} {program : Text} {fileName given : Option Text}

theorem load_of_ok {e : Extent Float} (h : Survey.extent program = .ok e) :
    (j.load program fileName given).result = .ok () ∧
      (j.load program fileName given).state =
        ⟨program, fileName, nameFor program fileName given, e, []⟩ := by
  rw [load]
  dsimp only
  rw [h]
  exact ⟨rfl, rfl⟩

/-- A program that cannot be measured is taken in all the same, with its names. -/
theorem load_of_error {f : LineFault}
    (h : (Survey.extent program : Except LineFault (Extent Float)) = .error f) :
    (j.load program fileName given).result = .error (.line f) ∧
      (j.load program fileName given).state = { j with
        program := program
        fileName := fileName
        sourceName := nameFor program fileName given } := by
  rw [load]
  dsimp only
  rw [h]
  exact ⟨rfl, rfl⟩

/-- Taken in or not, the program is the one held. -/
theorem program_load : (j.load program fileName given).state.program = program := by
  cases he : (Survey.extent program : Except LineFault (Extent Float)) with
  | error f => rw [(load_of_error he).2]
  | ok e => rw [(load_of_ok he).2]

end Load

/-- The program that a call measures, or else the one measured before. -/
def Call.measured (before : Text) : Call → Text
  | .load program _ _ =>
    if (Survey.extent program : Except LineFault (Extent Float)).isOk then program else before
  | _ => before

/-- The last program that could be measured. A job begins with an empty one. -/
def lastMeasured (calls : List Call) : Text := calls.foldl Call.measured []

theorem lastMeasured_concat (calls : List Call) (c : Call) :
    lastMeasured (calls ++ [c]) = c.measured (lastMeasured calls) := List.foldl_append

/-- The extent of a job is that of a program, and of its own program if that can be measured. -/
structure MeasuredOn (j : Job) (t : Text) : Prop where
  extent_eq : Survey.extent t = .ok j.extent
  own : ∀ e, Survey.extent j.program = .ok e → j.extent = e

theorem measuredOn_start : start.MeasuredOn [] where
  extent_eq := rfl
  own _ h := Except.ok.inj h

theorem MeasuredOn.of_problems {j : Job} {t : Text} (h : j.MeasuredOn t) (ps : List Problem) :
    MeasuredOn { j with problems := ps } t := ⟨h.extent_eq, h.own⟩

theorem MeasuredOn.load {j : Job} {t : Text} (h : j.MeasuredOn t) (program : Text)
    (fileName given : Option Text) :
    (j.load program fileName given).state.MeasuredOn
      (Call.measured t (.load program fileName given)) := by
  rw [Call.measured]
  cases he : (Survey.extent program : Except LineFault (Extent Float)) with
  | error f =>
    rw [(load_of_error he).2, if_neg (by simp [Except.isOk, Except.toBool])]
    refine ⟨h.extent_eq, fun e hown ↦ ?_⟩
    rw [he] at hown
    cases hown
  | ok e =>
    rw [(load_of_ok he).2, if_pos (by simp [Except.isOk, Except.toBool])]
    exact ⟨he, fun e' hown ↦ Except.ok.inj (he.symm.trans hown)⟩

/-- One call keeps track of the program that was measured. -/
theorem MeasuredOn.perform {j : Job} {t : Text} (h : j.MeasuredOn t) (c : Call) :
    (j.perform c).MeasuredOn (c.measured t) := by
  cases c with
  | load program fileName given => exact h.load program fileName given
  | ask q =>
    obtain ⟨ps, hps⟩ := j.ask_eq q
    rw [Job.perform, hps]
    exact h.of_problems ps
  | _ => exact h

theorem measuredOn_performAll (calls : List Call) :
    (start.performAll calls).MeasuredOn (lastMeasured calls) := by
  -- from the end, so that the call that decides comes last
  induction calls using List.reverseRecOn with
  | nil => exact measuredOn_start
  | append_singleton calls c ih =>
    rw [performAll_concat, lastMeasured_concat]
    exact ih.perform c

/-- After any calls, failed ones included, the extent of a job is that of the last program that
could be measured, and it is the extent of the program that the job holds just if that has one. A
program that cannot be measured replaces the one held before it with its names, and leaves the
extent and the problems as they were. -/
theorem extent_performAll (calls : List Call) :
    Survey.extent (lastMeasured calls) = .ok (start.performAll calls).extent ∧
      (Survey.extent (start.performAll calls).program = .ok (start.performAll calls).extent ↔
        ∃ e : Extent Float, Survey.extent (start.performAll calls).program = .ok e) ∧
      ∀ program fileName given,
        (∃ f, ((start.performAll calls).load program fileName given).result = .error f) →
          ((start.performAll calls).load program fileName given).state =
            { start.performAll calls with
              program := program
              fileName := fileName
              sourceName := nameFor program fileName given } := by
  have hmeasured := measuredOn_performAll calls
  refine ⟨hmeasured.extent_eq, ⟨fun h ↦ ⟨_, h⟩, ?_⟩, ?_⟩
  · rintro ⟨e, he⟩
    rw [he, hmeasured.own e he]
  · rintro program fileName given ⟨f, hf⟩
    cases he : (Survey.extent program : Except LineFault (Extent Float)) with
    | error f => exact (load_of_error he).2
    | ok e =>
      rw [(load_of_ok he).1] at hf
      cases hf

section HugeTool

def hugeToolCalls : List Call :=
  [.load "G1 X10 Y5".toList (some "good.nc".toList) none,
    .ask (.check { Settings.default with gapX := -1 } {} .metric)] ++
    [.load hugeTool (some "huge.nc".toList) none]

theorem isOk_extent_hugeTool :
    (Survey.extent hugeTool : Except LineFault (Extent Float)).isOk = false := by decide +kernel

theorem lastMeasured_hugeToolCalls : lastMeasured hugeToolCalls = "G1 X10 Y5".toList := by
  have hgood :
      (Survey.extent "G1 X10 Y5".toList : Except LineFault (Extent Float)).isOk = true := by
    decide +kernel
  rw [hugeToolCalls, lastMeasured_concat, Call.measured, isOk_extent_hugeTool, lastMeasured,
    List.foldl_cons, List.foldl_cons, List.foldl_nil, Call.measured, hgood]
  rfl

theorem program_hugeToolCalls : (start.performAll hugeToolCalls).program = hugeTool := by
  rw [hugeToolCalls, performAll_concat, perform, program_load]

/-- The program that failed is held, and the extent is still that of the one before. -/
theorem extent_performAll_hugeTool :
    (start.performAll hugeToolCalls).program = hugeTool ∧
      Survey.extent "G1 X10 Y5".toList = .ok (start.performAll hugeToolCalls).extent := by
  refine ⟨program_hugeToolCalls, ?_⟩
  rw [← lastMeasured_hugeToolCalls]
  exact (extent_performAll hugeToolCalls).1

def AlwaysMeasured : Prop :=
  ∀ calls, Survey.extent (start.performAll calls).program = .ok (start.performAll calls).extent

def FailsCleanly : Prop :=
  ∀ calls program fileName given,
    (∃ f, ((start.performAll calls).load program fileName given).result = .error f) →
      ((start.performAll calls).load program fileName given).state = start.performAll calls

theorem not_alwaysMeasured : ¬ AlwaysMeasured ∧ ¬ FailsCleanly := by
  have hfails : ∃ f, (Survey.extent hugeTool : Except LineFault (Extent Float)) = .error f := by
    cases h : (Survey.extent hugeTool : Except LineFault (Extent Float)) with
    | error f => exact ⟨f, rfl⟩
    | ok e =>
      have hok := isOk_extent_hugeTool
      rw [h] at hok
      cases hok
  obtain ⟨f, hf⟩ := hfails
  constructor
  · intro h
    have hown := h hugeToolCalls
    rw [program_hugeToolCalls, hf] at hown
    cases hown
  · intro h
    have hsame := h [] hugeTool none none ⟨.line f, (load_of_error hf).1⟩
    rw [(load_of_error hf).2] at hsame
    cases congrArg Job.program hsame

end HugeTool

end StepAndRepeat.Job
