import StepAndRepeat.Proofs.Attempts
import StepAndRepeat.Proofs.Settings.Loading

namespace StepAndRepeat

namespace Json

/-- A value in which members can be looked up: an object, or one that counts as false. -/
def HasMembers (v : Json) : Prop := v.truthy = true → ∃ ms, v = object ms

theorem find?_set (key other : CodeText) (v : Json) (ms : List (CodeText × Json)) :
    find? other (set key v ms) = if key = other then some v else find? other ms := by
  induction ms with
  | nil => simp [set, find?]
  | cons m ms ih =>
    obtain ⟨k, w⟩ := m
    rw [set]
    split
    next hk =>
      subst hk
      rw [find?, find?]
      split <;> rfl
    next hk =>
      rw [find?, find?, ih]
      split
      next ho => rw [if_neg fun h ↦ hk (ho.trans h.symm)]
      next => rfl

end Json

namespace Limits

variable {key : CodeText} {firmware v : Json}

def positive? (v : Json) : Option Float := v.toFloat.toOption.filter fun x ↦ decide (0 < x)

def travel (key : CodeText) (firmware : Json) : Float :=
  ((value? key firmware).bind positive?).getD 400

def settingsIn (firmware : Json) : Json := (firmware.get? settingsKey).getD .null

def entryIn (key : CodeText) (firmware : Json) : Json := ((settingsIn firmware).get? key).getD .null

/-- Nothing on the way to a value is in the place of an object without being one, and the value is
no number that is too large. -/
structure Readable (key : CodeText) (firmware : Json) : Prop where
  report : firmware.HasMembers
  settings : (settingsIn firmware).HasMembers
  entry : (entryIn key firmware).HasMembers
  value : ∀ v, value? key firmware = some v → ¬ v.Huge

theorem value?_eq (key : CodeText) (firmware : Json) :
    value? key firmware = (entryIn key firmware).get? valueKey := by
  unfold value? entryIn settingsIn
  cases firmware.get? settingsKey with
  | none => rfl
  | some settings =>
    change (settings.get? key).bind _ = _
    rw [Option.getD_some]
    cases settings.get? key <;> rfl

theorem member_of_hasMembers (key : CodeText) (h : v.HasMembers) : member key v = .ok (v.get? key) := by
  rcases member_cases key v with hm | ⟨hm, -⟩
  · exact hm
  · unfold member at hm
    split at hm
    next ht =>
      obtain ⟨ms, rfl⟩ := h ht
      cases hm
    next => cases hm

theorem member_of_not_hasMembers (key : CodeText) (h : ¬ v.HasMembers) :
    member key v = .error .notObject := by
  obtain ⟨ht, hobject⟩ := Classical.not_imp.1 h
  unfold member
  rw [if_pos ht]
  cases v with
  | object ms => exact absurd ⟨ms, rfl⟩ hobject
  | _ => rfl

theorem member_eq_ok_iff {o : Option Json} :
    member key v = .ok o ↔ v.HasMembers ∧ v.get? key = o := by
  by_cases h : v.HasMembers
  · simp [member_of_hasMembers key h, h]
  · simp [member_of_not_hasMembers key h, h]

theorem travel?_eq_ok_iff {o : Option Float} : travel? v = .ok o ↔ v.HasMembers ∧
    (∀ x, v.get? valueKey = some x → ¬ x.Huge) ∧ (v.get? valueKey).bind positive? = o := by
  rw [travel?]
  by_cases h : v.HasMembers
  · rw [member_of_hasMembers valueKey h]
    cases v.get? valueKey with
    | none => simp [h, bind, Except.bind, pure, Except.pure]
    | some x =>
      simp only [h, bind, Except.bind, Option.some.injEq, forall_eq', Option.bind_some, true_and,
        ← Json.toFloat_outOfRange, positive?]
      cases hx : x.toFloat with
      | ok y => by_cases hy : 0 < y <;> simp [hy, pure, Except.pure, Except.toOption, Option.filter]
      | error f => cases f <;> simp [pure, Except.pure, Except.toOption]
  · rw [member_of_not_hasMembers valueKey h]
    simp [h, bind, Except.bind]

theorem along_eq_ok_iff {o : Option Float} : along key firmware = .ok o ↔
    Readable key firmware ∧ (value? key firmware).bind positive? = o := by
  have hreadable : Readable key firmware ↔ firmware.HasMembers ∧
      (settingsIn firmware).HasMembers ∧ (entryIn key firmware).HasMembers ∧
        ∀ v, value? key firmware = some v → ¬ v.Huge :=
    ⟨fun h ↦ ⟨h.report, h.settings, h.entry, h.value⟩, fun ⟨hr, hs, he, hv⟩ ↦ ⟨hr, hs, he, hv⟩⟩
  simp only [along, entry, bind_eq_ok, member_eq_ok_iff, travel?_eq_ok_iff, pure, Except.pure,
    Except.ok.injEq, hreadable, value?_eq, and_assoc, exists_eq_left', exists_and_left]
  rfl

/-- A report is read just if it can be read along both axes. -/
theorem ofJson_eq_ok_iff {l : Limits} : ofJson firmware = .ok l ↔
    Readable xKey firmware ∧ Readable yKey firmware ∧
      l = ⟨travel xKey firmware, travel yKey firmware⟩ := by
  simp only [ofJson_eq, bind_eq_ok, along_eq_ok_iff, pure, Except.pure, Except.ok.injEq,
    and_assoc, exists_and_left, exists_eq_left']
  rw [eq_comm (b := l)]
  rfl

theorem positive?_pos {x : Float} (h : positive? v = some x) : 0 < x := by
  obtain ⟨-, hpos⟩ := Option.filter_eq_some_iff.1 h
  simpa using hpos

theorem travel_pos (key : CodeText) (firmware : Json) : 0 < travel key firmware := by
  rw [travel]
  cases h : (value? key firmware).bind positive? with
  | none => decide +kernel
  | some x =>
    obtain ⟨v, -, hv⟩ := Option.bind_eq_some_iff.1 h
    exact positive?_pos hv

section Entries

variable {ms ss : List (CodeText × Json)}

def withEntry (key : CodeText) (entry : Json) (ms ss : List (CodeText × Json)) : Json :=
  .object (Json.set settingsKey (.object (Json.set key entry ss)) ms)

theorem travel_withEntry (entry : Json) {key other : CodeText} (hne : key ≠ other)
    (hs : Json.find? settingsKey ms = some (.object ss)) :
    travel other (withEntry key entry ms ss) = travel other (.object ms) := by
  have hvalue : value? other (withEntry key entry ms ss) = value? other (.object ms) := by
    simp only [value?, withEntry, Json.get?, Json.find?_set, ↓reduceIte, hs, Option.bind_some,
      if_neg hne]
  rw [travel, hvalue, travel]

/-- A report gives, along each axis, the number of that axis's own entry if it is positive and the
default otherwise, whatever the entry of the other axis holds. It is read just if all it takes to
come to the two numbers are objects and neither number is too large. -/
theorem ofJson_axes (ms : List (CodeText × Json)) :
    (∀ l, ofJson (.object ms) = .ok l ↔ Readable xKey (.object ms) ∧ Readable yKey (.object ms) ∧
      l = ⟨travel xKey (.object ms), travel yKey (.object ms)⟩) ∧
    (∀ l, ofJson (.object ms) = .ok l → 0 < l.x ∧ 0 < l.y) ∧
    ∀ ss, Json.find? settingsKey ms = some (.object ss) →
      ∀ entry l l', ofJson (.object ms) = .ok l →
        (ofJson (withEntry yKey entry ms ss) = .ok l' → l'.x = l.x) ∧
          (ofJson (withEntry xKey entry ms ss) = .ok l' → l'.y = l.y) := by
  refine ⟨fun l ↦ ofJson_eq_ok_iff, fun l h ↦ ?_, fun ss hs entry l l' h ↦ ⟨fun h' ↦ ?_, fun h' ↦ ?_⟩⟩
  · obtain ⟨-, -, rfl⟩ := ofJson_eq_ok_iff.1 h
    exact ⟨travel_pos _ _, travel_pos _ _⟩
  · obtain ⟨-, -, rfl⟩ := ofJson_eq_ok_iff.1 h
    obtain ⟨-, -, rfl⟩ := ofJson_eq_ok_iff.1 h'
    exact travel_withEntry entry (by decide) hs
  · obtain ⟨-, -, rfl⟩ := ofJson_eq_ok_iff.1 h
    obtain ⟨-, -, rfl⟩ := ofJson_eq_ok_iff.1 h'
    exact travel_withEntry entry (by decide) hs

deriving instance DecidableEq for Limits

def entries (x y : Json) : List (CodeText × Json) := [(xKey, x), (yKey, y)]

def reporting (x y : Json) : List (CodeText × Json) := [(settingsKey, .object (entries x y))]

def eightHundred : Json := .object [(valueKey, .str (.ofText "800".toList))]

def negative : Json := .object [(valueKey, .int (-5))]

theorem ofJson_axes_damaged :
    ∃ l l', ofJson (.object (reporting eightHundred negative)) = .ok l ∧ 0 < l.x ∧ 0 < l.y ∧
      ofJson (withEntry yKey (.list []) (reporting eightHundred negative)
        (entries eightHundred negative)) = .ok l' ∧ l'.x = l.x := by
  obtain ⟨-, hpos, hother⟩ := ofJson_axes (reporting eightHundred negative)
  have hread : ofJson (.object (reporting eightHundred negative)) = .ok ⟨800, 400⟩ := by
    decide +kernel
  have hdamaged : ofJson (withEntry yKey (.list []) (reporting eightHundred negative)
      (entries eightHundred negative)) = .ok ⟨800, 400⟩ := by
    decide +kernel
  obtain ⟨hx, hy⟩ := hpos _ hread
  exact ⟨_, _, hread, hx, hy, hdamaged, (hother _ rfl (.list []) _ _ hread).1 hdamaged⟩

def ReadsAll : Prop := ∀ ms, ∃ l, ofJson (.object ms) = .ok l

/-- A number in the place of the entry for X, beside a number for Y. -/
theorem not_readsAll : ¬ ReadsAll := by
  intro h
  obtain ⟨l, hl⟩ := h (reporting (.int 800) (.object [(valueKey, .int 600)]))
  have hfails : (ofJson (.object (reporting (.int 800) (.object [(valueKey, .int 600)])))).isOk =
      false := by decide +kernel
  rw [hl] at hfails
  cases hfails

end Entries

end Limits

end StepAndRepeat
