import Mathlib.Logic.Relation
import StepAndRepeat.Proofs.Job.Agreement
import StepAndRepeat.Proofs.Replication.ProgramEnds
import StepAndRepeat.Proofs.Text.Trimming

namespace StepAndRepeat

namespace Text

theorem exists_lines_join_cons {t : Text} (h : Unbroken t) (hn : t ≠ []) (ts : List Text) :
    ∃ us, lines (join ['\n'] (t :: ts)) = t :: us := by
  cases ts with
  | nil => exact ⟨[], lines_of_unbroken h hn⟩
  | cons u ts =>
    refine ⟨lines (join ['\n'] (u :: ts)), ?_⟩
    rw [join, List.append_assoc, List.singleton_append, lines_append_feed h]
    simp

end Text

namespace Assembly

variable {α : Type} [Coordinate α]

theorem exists_assemble_eq {o : Order α} {program out : Text} (h : assemble o program = .ok out) :
    ∃ ts, out = Text.join ['\n'] (o.banner ++ ts) := by
  obtain ⟨ss, hss⟩ := exists_stretches_of_assemble h
  obtain ⟨ls, rs, body, -, -, -, rfl⟩ := stretches_cases hss
  rw [assemble, entries_of_stretches hss] at h
  refine ⟨((body ++ [Stretch.note programEnd]).flatMap Stretch.entries).map Entry.text, ?_⟩
  have hbanner : ((o.banner.map (Stretch.note (α := α))).flatMap Stretch.entries).map
      Entry.text = o.banner := by
    induction o.banner with
    | nil => rfl
    | cons t ts ih =>
      rw [List.map_cons, List.flatMap_cons, List.map_append, ih]
      rfl
  rw [← Except.ok.inj h]
  dsimp only
  rw [List.append_assoc, List.flatMap_append, List.map_append, hbanner]

end Assembly

namespace Job

open Text

variable {j : Job} {name text : Text}

theorem trimmed_sourceLine (name : Text) : Trimmed (sourceLine (some name)) where
  head := by
    intro c hc
    obtain rfl : '(' = c := Option.some_inj.1 hc
    decide
  last := by
    intro c hc
    rw [sourceLine, List.getLast?_concat, Option.mem_some_iff] at hc
    rw [← hc]
    decide

theorem unbroken_sourceLine (h : Unbroken name) : Unbroken (sourceLine (some name)) :=
  unbroken_append.2 ⟨unbroken_append.2 ⟨by decide, h⟩, by decide⟩

/-- A name is read from the line that records it, all of it: only the last parenthesis closes. -/
theorem sourceIn?_sourceLine (h : name ≠ []) : sourceIn? (sourceLine (some name)) = some name := by
  have hmark : sourceMark.isPrefixOf (sourceLine (some name)) = true := by
    rw [List.isPrefixOf_iff_prefix, sourceLine, List.append_assoc]
    exact List.prefix_append _ _
  have hrest : (sourceLine (some name)).drop sourceMark.length = name ++ [')'] := by
    rw [sourceLine, List.append_assoc, List.drop_left]
    rfl
  have hlength : 2 ≤ (name ++ [')']).length := by
    have := List.length_pos_iff.2 h
    rw [List.length_append, List.length_singleton]
    omega
  rw [sourceIn?, if_pos hmark]
  dsimp only
  rw [hrest, if_pos ⟨List.getLast?_concat, hlength⟩, List.dropLast_concat]

theorem sourceOf_join (hn : name ≠ []) (hu : Unbroken name) (ts : List Text) :
    sourceOf (join ['\n'] (generatorLine :: sourceLine (some name) :: ts)) = some name := by
  have hne : sourceLine (some name) ≠ [] := by simp [sourceLine]
  obtain ⟨us, hus⟩ := exists_lines_join_cons (unbroken_sourceLine hu) hne ts
  have hlines : lines (join ['\n'] (generatorLine :: sourceLine (some name) :: ts)) =
      generatorLine :: sourceLine (some name) :: us := by
    rw [join, List.append_assoc, List.singleton_append, lines_append_feed (by decide), hus]
    simp
  have hgenerator : trim generatorLine = generatorLine := by decide
  rw [sourceOf, hlines]
  dsimp only
  rw [if_pos hgenerator, firstSource, (trimmed_sourceLine name).trim_eq, sourceIn?_sourceLine hn]

theorem sourceOf_of_generate {s : Settings Float} {limits : Limits} (hn : name ≠ [])
    (hu : Unbroken name) (hj : j.sourceName = some name)
    (h : (j.generate s limits).result = .ok (some text)) : sourceOf text = some name := by
  rcases result_generate h with ⟨-, hnone⟩ | ⟨-, instances, o, made, -, ho, ha, hsome⟩
  · cases hnone
  · obtain rfl := Option.some_inj.1 hsome
    obtain ⟨ts, rfl⟩ := Assembly.exists_assemble_eq ha
    obtain ⟨ns, grid, skips, -, -, -, rfl⟩ := exists_banner_of_order ho
    rw [hj]
    exact sourceOf_join hn hu _

/-- Taking in a program with a record, under any file name, keeps the recorded name, even when the
program cannot be measured. -/
theorem sourceName_load (h : sourceOf text = some name) (j : Job) (fileName : Option Text) :
    (j.load text fileName none).state.sourceName = some name := by
  unfold load
  dsimp only
  split
  · rw [h]
    rfl
  · rw [h]
    rfl

/-- A program is made for the grid under some settings, and then taken in again under some file
name, without a word about where it came from. -/
inductive Round (j : Job) : Job → Prop
  | remade (s : Settings Float) (limits : Limits) (fileName : Option Text) {text : Text}
      (h : (j.generate s limits).result = .ok (some text)) :
      Round j ((j.generate s limits).state.load text fileName none).state

theorem Round.sourceName_eq {k : Job} (h : Round j k) (hn : name ≠ []) (hu : Unbroken name)
    (hj : j.sourceName = some name) : k.sourceName = some name := by
  cases h with
  | remade s limits fileName h =>
    exact sourceName_load (sourceOf_of_generate hn hu hj h) _ fileName

/-- The name of the source outlasts replication: each program made by a job that holds it records
it, every job that takes such a program in finds it there, and so it is the same after any number
of rounds. -/
theorem sourceName_outlasts (hn : name ≠ []) (hu : Unbroken name)
    (hj : j.sourceName = some name) :
    (∀ s limits text, (j.generate s limits).result = .ok (some text) →
      sourceOf text = some name ∧
        ∀ k fileName, (load k text fileName none).state.sourceName = some name) ∧
      ∀ k, Relation.ReflTransGen Round j k → k.sourceName = some name := by
  refine ⟨fun s limits text h ↦ ?_, fun k hk ↦ ?_⟩
  · have hsource := sourceOf_of_generate hn hu hj h
    exact ⟨hsource, sourceName_load hsource⟩
  · induction hk with
    | refl => exact hj
    | tail _ hround ih => exact hround.sourceName_eq hn hu ih

section Banners

def bannerName : Text := " a) (Source: b.nc) ; ".toList

def bannerJob : Job := (start.load "G0 X1\nT1 M6\nG1 X10 Y5".toList none (some bannerName)).state

def sortedByTool : Settings Float := { Settings.default with sortByTool := true }

def remadeTwice (j : Job) : Option (Text × Text) :=
  match (j.generate Settings.default {}).result with
  | .ok (some text) =>
    match (((j.generate Settings.default {}).state.load text none none).state.generate sortedByTool
      {}).result with
    | .ok (some again) => some (text, again)
    | _ => none
  | _ => none

theorem sourceName_outlasts_banner :
    ∃ text again, remadeTwice bannerJob = some (text, again) ∧ sourceOf text = some bannerName ∧
      sourceOf again = some bannerName := by
  have hn : bannerName ≠ [] := by decide
  have hu : Unbroken bannerName := by decide
  have hj : bannerJob.sourceName = some bannerName := by decide +kernel
  have hsome : (remadeTwice bannerJob).isSome = true := by decide +kernel
  obtain ⟨⟨text, again⟩, hmade⟩ := Option.isSome_iff_exists.1 hsome
  have hmade' := hmade
  unfold remadeTwice at hmade'
  split at hmade'
  next made hfirst =>
    split at hmade'
    next remade hsecond =>
      obtain ⟨rfl, rfl⟩ : made = text ∧ remade = again := by simpa using hmade'
      obtain ⟨hmake, hrounds⟩ := sourceName_outlasts hn hu hj
      have hround := hrounds _ (.single (.remade Settings.default {} none hfirst))
      exact ⟨made, remade, hmade, (hmake _ _ _ hfirst).1,
        ((sourceName_outlasts hn hu hround).1 _ _ _ hsecond).1⟩
    next => cases hmade'
  next => cases hmade'

end Banners

end Job

end StepAndRepeat
