import StepAndRepeat.Proofs.View.Turns

namespace StepAndRepeat.Window

theorem exists_summaryText_eq (u : Units) (s : Job.Summary) :
    ∃ t, summaryText u s = "Summary:\nSource: ".toList ++ t := by
  have hjoin (t x y : Text) (ts : List Text) : Text.join ['\n'] (t :: (x ++ y) :: ts) =
      t ++ '\n' :: x ++ (Text.join ['\n'] (y :: ts)) := by
    cases ts <;> simp [Text.join]
  exact ⟨_, hjoin "Summary:".toList "Source: ".toList _ _⟩

theorem summaryText_ne_blank (u : Units) (s : Job.Summary) : summaryText u s ≠ blankSummary := by
  obtain ⟨t, ht⟩ := exists_summaryText_eq u s
  rw [ht]
  intro h
  have htake := congrArg (List.take 10) h
  rw [List.take_append_of_le_length (by decide)] at htake
  exact absurd htake (by decide)

namespace Desk

def Truthful (d : Desk) : Prop := d.canGenerate = true ↔ d.verdict = .ok true

variable {d d' : Desk}

theorem verdict_of_extent (hj : d'.job.extent = d.job.extent) (hs : d'.settings = d.settings)
    (hl : d'.limits = d.limits) : d'.verdict = d.verdict := by
  rw [verdict, verdict, hs, hl]
  exact Job.result_validate_congr hj _

/-- A check that does not fail makes the button truthful, and its outcome is shown. -/
theorem truthful_check (h : d.checkFault = none) :
    d.check.Truthful ∧ d.check.summary ≠ blankSummary := by
  cases hsum : (d.job.summary d.settings d.limits d.units).result with
  | error f =>
    rw [checkFault, hsum] at h
    cases h
  | ok m =>
    obtain ⟨ps, hps⟩ := d.job.state_validate d.settings d.limits d.units
    have hcheck : d.check = { d with
        job := { d.job with problems := ps }
        summary := summaryText d.units m
        canGenerate := m.canGenerate } := by
      rw [check, hsum, Job.state_summary, hps]
    have hverdict : d.check.verdict = .ok m.canGenerate := by
      rw [hcheck]
      exact (verdict_of_extent (d := d) rfl rfl rfl).trans (Job.result_summary hsum).1
    rw [Truthful, hverdict, hcheck]
    exact ⟨by simp, summaryText_ne_blank _ _⟩

theorem truthful_measure (h : d.measureFault = none) :
    d.measure.Truthful ∧ d.measure.summary ≠ blankSummary := by
  unfold measureFault at h
  unfold measure
  split at h
  next => cases h
  next => exact truthful_check h

/-- The button is truthful, unless the form was never checked, which has a reason. -/
structure Honest (reason : Prop) (d : Desk) : Prop where
  truthful : d.summary ≠ blankSummary → d.Truthful
  blank : d.summary = blankSummary → reason ∧ d.canGenerate = true

variable {reason : Prop}

theorem Honest.of_checked (h : d.Truthful ∧ d.summary ≠ blankSummary) : d.Honest reason :=
  ⟨fun _ ↦ h.1, fun hblank ↦ absurd hblank h.2⟩

theorem Honest.congr (h : Honest reason d) (hv : d'.verdict = d.verdict)
    (hc : d'.canGenerate = d.canGenerate) (hs : d'.summary = d.summary) : Honest reason d' where
  truthful hshown := by
    rw [Truthful, hv, hc]
    exact h.truthful (hs ▸ hshown)
  blank hblank := hc ▸ h.blank (hs ▸ hblank)

/-- A turn that does not fail leaves the button honest. -/
theorem Honest.course {t : Turn} {f : Option WindowFault} (h : Honest reason d)
    (hc : d.Course t f d') (hf : f = none) : Honest reason d' := by
  cases hc with
  | stay => exact h
  | edit text => exact h.congr rfl rfl rfl
  | ask =>
    obtain ⟨ps, hps⟩ := d.job.state_validate d.settings d.limits .metric
    rw [Job.state_generate, hps]
    exact h.congr (verdict_of_extent rfl rfl rfl) rfl rfl
  | check t u f h => exact .of_checked (truthful_check hf)
  | time => exact .of_checked (truthful_measure hf)
  | «open» path name text => exact .of_checked (truthful_measure hf)

end Desk

section Runs

variable {w w₀ : Window} {host : Host} {files : FileTree} {initial : Option Text} {ts : List Turn}

theorem honest_launch (h : launch? host files initial = some w) :
    w.desk.Honest (Unread files initial) := by
  obtain ⟨limits, s, d, rfl, ⟨hdesk, hunread⟩ | ⟨name, text, pending, hdesk, hfault⟩⟩ :=
    launch?_cases h
  · rw [hdesk]
    exact ⟨fun hshown ↦ absurd rfl hshown, fun _ ↦ ⟨hunread, rfl⟩⟩
  · rw [hdesk]
    exact .of_checked (Desk.truthful_measure hfault)

/-- After any turns that do not fail, the button is enabled just if checking the form against the
program and the limits finds nothing in the way, as soon as the window shows the outcome of a check.
It shows none only if it was opened on a file that could not be read, and then its button is
enabled. -/
theorem canGenerate_iff_valid (h₀ : launch? host files initial = some w₀)
    (h : w₀.after? ts = some w) :
    (w.summary ≠ blankSummary →
      (w.canGenerate = true ↔ (w.job.validate w.settings w.limits w.units).result = .ok true)) ∧
      (w.summary = blankSummary → Unread files initial ∧ w.canGenerate = true) := by
  have hhonest : w.desk.Honest (Unread files initial) :=
    after?_preserves (fun _ _ _ _ hc hf hd ↦ hd.course hc hf) (honest_launch h₀) h
  exact ⟨hhonest.truthful, hhonest.blank⟩

end Runs

section Overlapping

def overlapping : FileTree :=
  .folder [("part.nc".toList, .file (Text.utf8 "G1 X10 Y5".toList)),
    (Storage.appName, .folder [(Storage.settingsName,
      .file (Text.utf8 "\x7b\"gap_x\": -1\x7d".toList))])]

def skippingNinth : List Turn :=
  [.event (.setSkipText "9".toList), .event (.editSource "G1 X1".toList), .event .generate]

theorem canGenerate_iff_valid_skippingNinth : ∃ w₀ w,
    launch? Session.host overlapping (some "part.nc".toList) = some w₀ ∧
      w₀.after? skippingNinth = some w ∧ w.summary ≠ blankSummary ∧ w.canGenerate = false ∧
      (w.job.validate w.settings w.limits w.units).result ≠ .ok true := by
  have hrun : ((launch? Session.host overlapping (some "part.nc".toList)).bind
      (·.after? skippingNinth)).any
        (fun w ↦ w.summary ≠ blankSummary && !w.canGenerate) = true := by decide +kernel
  obtain ⟨w, hw, hdecided⟩ := (Option.any_eq_true ..).1 hrun
  obtain ⟨w₀, h₀, h⟩ := Option.bind_eq_some_iff.1 hw
  obtain ⟨hshown, hdisabled⟩ : w.summary ≠ blankSummary ∧ w.canGenerate = false := by
    simpa using hdecided
  refine ⟨w₀, w, h₀, h, hshown, hdisabled, fun hvalid ↦ ?_⟩
  rw [((canGenerate_iff_valid h₀ h).1 hshown).2 hvalid] at hdisabled
  cases hdisabled

def AlwaysTruthful : Prop :=
  ∀ files initial w₀ ts w, launch? Session.host files initial = some w₀ → w₀.after? ts = some w →
    (w.canGenerate = true ↔ (w.job.validate w.settings w.limits w.units).result = .ok true)

theorem not_alwaysTruthful : ¬ AlwaysTruthful := by
  intro h
  have hblocked : (launch? Session.host overlapping (some "missing.nc".toList)).any (fun w ↦
      w.canGenerate && (w.job.validate w.settings w.limits w.units).result.toOption ==
        some false) = true := by decide +kernel
  obtain ⟨w, hw, hdecided⟩ := (Option.any_eq_true ..).1 hblocked
  obtain ⟨henabled, hinvalid⟩ : w.canGenerate = true ∧
      (w.job.validate w.settings w.limits w.units).result.toOption = some false := by
    simpa using hdecided
  rw [(h _ _ w [] w hw rfl).1 henabled] at hinvalid
  cases hinvalid

end Overlapping

end StepAndRepeat.Window
