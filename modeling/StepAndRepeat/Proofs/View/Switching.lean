import StepAndRepeat.Proofs.View.Gaps
import StepAndRepeat.Proofs.View.Making

namespace StepAndRepeat

namespace Settings

def mapGaps (f : Float → Float) (s : Settings Float) : Settings Float :=
  { s with gapX := f s.gapX, gapY := f s.gapY }

end Settings

namespace Window

open Binary StepAndRepeat.Units

def switches (us : List Units) : List Turn := us.map fun u ↦ .event (.setUnits u)

section Switches

variable (w : Window)

/-- A check of the form leaves it as it is, also if the check fails. -/
theorem form_updatePreview : w.updatePreview.window.fields = w.fields ∧
    w.updatePreview.window.units = w.units ∧ w.updatePreview.window.form = w.form := by
  obtain ⟨hdesk, -⟩ := w.updatePreview_desk
  obtain ⟨ps, shown, enabled, hcheck⟩ := w.desk.check_eq
  rw [hcheck] at hdesk
  exact ⟨congrArg Desk.fields hdesk, congrArg Desk.units hdesk, congrArg Desk.form hdesk⟩

theorem settings_setUnits (u : Units) : (w.take (.event (.setUnits u))).window.fields = w.fields ∧
    (w.take (.event (.setUnits u))).window.units = u ∧
    (w.take (.event (.setUnits u))).window.settings = w.settings.mapGaps fun g ↦
      if w.units = u then g else u.toMetric (w.fields.gap (u.toDisplay g)) := by
  rw [take, handle]
  split
  next h => simp [h, Settings.mapGaps]
  next h =>
    obtain ⟨hfields, hunits, hform⟩ :=
      form_updatePreview { w with units := u, form := w.form.convert w.fields w.units u }
    refine ⟨hfields, hunits, ?_⟩
    rw [changeUnits, settings, hform, hunits]
    simp only [if_neg (Ne.symm h)]
    rfl

theorem settings_after (us : List Units) : (w.after (switches us)).settings =
    w.settings.mapGaps (w.fields.carry w.units us) := by
  induction us generalizing w with
  | nil => rfl
  | cons u us ih =>
    obtain ⟨hfields, hunits, hsettings⟩ := w.settings_setUnits u
    have hcons : w.after (switches (u :: us)) =
        (w.take (.event (.setUnits u))).window.after (switches us) := rfl
    rw [hcons, ih, hfields, hunits, hsettings]
    rfl

end Switches

section Reached

variable {k : Fields} {host : Host} {files : FileTree} {initial : Option Text} {w₀ : Window}

structure Desk.Filled (k : Fields) (d : Desk) : Prop where
  fields : d.fields = k
  gapX : ∃ x, d.form.gapX = k.gap x
  gapY : ∃ y, d.form.gapY = k.gap y

theorem Desk.Filled.course {d d' : Desk} {t : Turn} {f : Option WindowFault}
    (h : Desk.Filled k d) (hc : d.Course t f d') : Desk.Filled k d' := by
  have hmeasure {d : Desk} (h : Desk.Filled k d) : Desk.Filled k d.measure := by
    obtain ⟨ps, shown, enabled, hmeasure⟩ := d.measure_eq
    rw [hmeasure]
    exact ⟨h.fields, h.gapX, h.gapY⟩
  cases hc with
  | stay => exact h
  | edit => exact ⟨h.fields, h.gapX, h.gapY⟩
  | ask => exact ⟨h.fields, h.gapX, h.gapY⟩
  | check t u form hentered =>
    obtain ⟨ps, shown, enabled, hcheck⟩ := Desk.check_eq { d with units := u, form := form }
    rw [hcheck]
    refine ⟨h.fields, ?_, ?_⟩
    · rcases hentered.gapX with hx | ⟨x, hx⟩
      · exact hx ▸ h.gapX
      · exact ⟨x, hx.trans (congrArg (Fields.gap · x) h.fields)⟩
    · rcases hentered.gapY with hy | ⟨y, hy⟩
      · exact hy ▸ h.gapY
      · exact ⟨y, hy.trans (congrArg (Fields.gap · y) h.fields)⟩
  | time => exact hmeasure ⟨h.fields, h.gapX, h.gapY⟩
  | «open» => exact hmeasure ⟨h.fields, h.gapX, h.gapY⟩

theorem filled_after (h : launch? host files initial = some w₀) (ts : List Turn) :
    Desk.Filled host.fields (w₀.after ts).desk := by
  refine after_preserves (fun _ _ _ _ hc hd ↦ hd.course hc) ?_ ts
  obtain ⟨limits, s, d, rfl, ⟨hdesk, -⟩ | ⟨name, text, pending, hdesk, -⟩⟩ := launch?_cases h
  · rw [hdesk]
    exact ⟨rfl, ⟨_, rfl⟩, ⟨_, rfl⟩⟩
  · obtain ⟨ps, shown, enabled, hmeasure⟩ := Desk.measure_eq _
    rw [hdesk, hmeasure]
    exact ⟨rfl, ⟨_, rfl⟩, ⟨_, rfl⟩⟩

/-- The windows that come of one that has opened, whatever has happened to it. -/
def Reached (host : Host) (w : Window) : Prop :=
  ∃ files initial w₀ ts, launch? host files initial = some w₀ ∧ w₀.after ts = w

/-- Whatever has happened to a window, switches of units change nothing in its settings but the gaps.
A gap is a number of thousandths of the unit shown, and becomes the nearest thousandth of the unit
chosen, up to a thousand millimetres. This does not add up: thousandths of an inch come back from
millimetres as they were, so that a gap shown in millimetres is changed no more once it has been shown
in inches, and one shown in inches is kept. No gap up to a thousand millimetres moves by more than
0.0131 of them. -/
theorem settings_after_switches {w : Window} (hk : host.fields.RoundsGaps) (hw : Reached host w) :
    (∀ us, (w.after (switches us)).settings =
      w.settings.mapGaps (host.fields.carry w.units us)) ∧
    (∀ g ∈ [w.settings.gapX, w.settings.gapY], ∃ z : ℤ, |z| ≤ 10 ^ 6 ∧ ∀ us,
      IsFinite (host.fields.carry w.units us g) ∧
        value (host.fields.carry w.units us g) =
          value ((us.getLast?.getD w.units).length (thousandthsAfter w.units us z)) ∧
        (|value g| ≤ 1000 → |value (host.fields.carry w.units us g) - value g| ≤ 131 / 10000)) ∧
    (∀ us z, |z| ≤ 10 ^ 6 → thousandthsAfter metric us z =
      if imperial ∈ us then
        if us.getLast? = some imperial then imperial.thousandths z
        else metric.thousandths (imperial.thousandths z)
      else z) ∧
    (∀ us z, |z| ≤ 39370 → thousandthsAfter imperial us z =
      if us.getLast? = some metric then metric.thousandths z else z) ∧
    ∀ z, |z| ≤ 10 ^ 6 → (metric.thousandths (imperial.thousandths z) = z ↔
      ∃ n, |n| ≤ 39370 ∧ metric.thousandths n = z) := by
  obtain ⟨files, initial, w₀, ts, h₀, rfl⟩ := hw
  obtain ⟨hfields, ⟨x, hx⟩, ⟨y, hy⟩⟩ := filled_after h₀ ts
  refine ⟨fun us ↦ ?_, fun g hg ↦ ?_, fun us z ↦ (thousandthsAfter_eq us z).1,
    fun us z ↦ (thousandthsAfter_eq us z).2, fun z ↦ thousandths_eq_iff⟩
  · rw [settings_after, ← hfields]
    rfl
  · obtain ⟨a, rfl⟩ : ∃ a, g = (w₀.after ts).units.toMetric (host.fields.gap a) := by
      rcases List.mem_pair.1 hg with rfl | rfl
      · exact ⟨x, congrArg (w₀.after ts).units.toMetric hx⟩
      · exact ⟨y, congrArg (w₀.after ts).units.toMetric hy⟩
    obtain ⟨z, hz, hshows, -⟩ := hk a
    exact ⟨z, hz, fun us ↦ hk.value_carry hshows hz us⟩

end Reached

section Five

theorem five_eq : metric.length 5000 = 5 := by decide +kernel

theorem exists_reached_five : ∃ w, Reached Session.host w ∧ w.units = metric ∧
    w.settings.gapX = 5 := by
  have hrun : (launch? Session.host onePart (some "part.nc".toList)).any (fun w₀ ↦
      w₀.units = metric && w₀.settings.gapX = 5) = true := by decide +kernel
  obtain ⟨w₀, h₀, hdecided⟩ := (Option.any_eq_true ..).1 hrun
  exact ⟨w₀, ⟨_, _, w₀, [], h₀, rfl⟩, by simpa using hdecided⟩

theorem settings_after_switches_twice : ∃ w, Reached Session.host w ∧ w.settings.gapX = 5 ∧
    value (w.after (switches [imperial, metric, imperial])).settings.gapX =
      value (imperial.length 197) ∧
    |value (w.after (switches [imperial, metric, imperial])).settings.gapX - value 5| ≤
      131 / 10000 := by
  obtain ⟨w, hw, hunits, hgap⟩ := exists_reached_five
  obtain ⟨hsettings, hgaps, -⟩ := settings_after_switches Fields.roundsGaps_standard hw
  obtain ⟨z, hz, hcarried⟩ := hgaps 5 (List.mem_pair.2 (.inl hgap.symm))
  rw [hunits] at hsettings hcarried
  -- without a switch the gap is what it is, and that are so many thousandths
  have hz₅ : z = 5000 := eq_of_value_length hz (by norm_num)
    ((hcarried []).2.1.symm.trans (congrArg value five_eq.symm))
  obtain ⟨-, hvalue, hnear⟩ := hcarried [imperial, metric, imperial]
  have hgapX : (w.after (switches [imperial, metric, imperial])).settings.gapX =
      Session.host.fields.carry metric [imperial, metric, imperial] 5 := by
    rw [hsettings, Settings.mapGaps, hgap]
  have hsize : |value 5| ≤ 1000 := by
    have hfive := ((shows_ofNumeral 5000).near (by norm_num)).2
    change |value (metric.length 5000) * 1000 - (5000 : ℤ)| ≤ _ at hfive
    rw [five_eq, abs_le] at hfive
    rw [abs_le]
    norm_num at hfive
    constructor <;> linarith
  rw [← hgapX, hz₅] at hvalue
  rw [← hgapX] at hnear
  exact ⟨w, hw, hgap, hvalue, hnear hsize⟩

def KeepsGaps : Prop := ∀ w us, Reached Session.host w →
  (w.after (switches us)).settings.gapX = w.settings.gapX ∧
    (w.after (switches us)).settings.gapY = w.settings.gapY

/-- Five millimetres become 0.197 inches, and these 5.004 millimetres. -/
theorem not_keepsGaps : ¬ KeepsGaps := by
  intro h
  obtain ⟨w, hw, hunits, hgap⟩ := exists_reached_five
  have hkept := (h w [imperial, metric] hw).1
  obtain ⟨files, initial, w₀, ts, h₀, rfl⟩ := hw
  have hfields : (w₀.after ts).fields = .standard := (filled_after h₀ ts).fields
  rw [settings_after, hunits, hfields, Settings.mapGaps, hgap] at hkept
  dsimp only at hkept
  exact absurd hkept (by decide +kernel)

end Five

end Window

end StepAndRepeat
