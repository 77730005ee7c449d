import StepAndRepeat.Proofs.Json.Nesting
import StepAndRepeat.Proofs.Number.Truncation
import StepAndRepeat.Proofs.Text.Utf8
import StepAndRepeat.Settings.Storage

namespace StepAndRepeat

open Binary

def fault? {ε β : Type} : Except ε β → Option ε
  | .ok _ => none
  | .error f => some f

section Faults

variable {ε β γ : Type} {x : Except ε β}

theorem fault?_eq_some {f : ε} : fault? x = some f ↔ x = .error f := by
  cases x <;> simp [fault?]

theorem fault?_bind {g : β → Except ε γ} {o : Option ε} (h : ∀ b, x = .ok b → fault? (g b) = o) :
    fault? (x >>= g) = (fault? x).or o := by
  cases x with
  | error f => rfl
  | ok b => exact h b rfl

end Faults

namespace Json

def Huge (v : Json) : Prop := ∃ n : ℤ, v = int n ∧ threshold ≤ |(n : ℝ)|

def Endless (v : Json) : Prop := ∃ x : Float, v = num x ∧ (x = infinity ∨ x = -infinity)

theorem toInt_outOfRange {v : Json} : v.toInt = .error .outOfRange ↔ v.Endless := by
  cases v with
  | num x =>
    have hkind : (toInt (num x) = .error .outOfRange) ↔ IsNumber x ∧ ¬ IsFinite x := by
      have hnumber : IsNumber x ↔ x.isNaN = false := by
        rw [← not_iff_not, ← isNaN_iff, Bool.not_eq_false]
      rw [hnumber, ← trunc?_eq_none_iff, toInt]
      cases trunc? x with
      | some n => simp
      | none => cases x.isNaN <;> simp
    rw [hkind, infinite_iff]
    exact ⟨fun h ↦ ⟨x, rfl, h⟩, fun ⟨_, hx, h⟩ ↦ by cases hx; exact h⟩
  | str t =>
    rw [toInt]
    cases t.text?.bind Reading.int? <;> simp [Endless]
  | _ => simp [toInt, Endless]

theorem toFloat_outOfRange {v : Json} : v.toFloat = .error .outOfRange ↔ v.Huge := by
  cases v with
  | int n =>
    have hhuge : (int n).Huge ↔ threshold ≤ |(n : ℝ)| :=
      ⟨fun ⟨_, hn, h⟩ ↦ by cases hn; exact h, fun h ↦ ⟨n, rfl, h⟩⟩
    rw [hhuge, ← ofInt?_eq_none_iff, toFloat]
    cases ofInt? n <;> simp
  | str t =>
    rw [toFloat]
    cases t.text?.bind Reading.float? <;> simp [Huge]
  | _ => simp [toFloat, Huge]

end Json

namespace Settings

section

variable {β : Type} {ms : List (CodeText × Json)} {key : CodeText}

def faultAt (ms : List (CodeText × Json)) (key : CodeText) (convert : Json → Except SettingsFault β) :
    Option SettingsFault :=
  (Json.find? key ms).bind fun v ↦ fault? (convert v)

def firstFault (ms : List (CodeText × Json)) : Option SettingsFault :=
  [faultAt ms rowDirectionKey toDirection, faultAt ms columnDirectionKey toDirection,
    faultAt ms rowsKey toInt, faultAt ms columnsKey toInt, faultAt ms gapXKey toFloat,
    faultAt ms gapYKey toFloat, faultAt ms skipKey toText].findSome? id

theorem fault?_field (default : β) (convert : Json → Except SettingsFault β) :
    fault? (field ms key default convert) = faultAt ms key convert := by
  unfold field faultAt
  cases Json.find? key ms <;> rfl

theorem faultAt_ok (convert : Json → β) : faultAt ms key (fun v ↦ .ok (convert v)) = none := by
  unfold faultAt
  cases Json.find? key ms <;> rfl

theorem fault?_ofJson : fault? (ofJson (.object ms)) = firstFault ms := by
  have hdone (s : Settings Float) : fault? (pure s : Except SettingsFault _) = none := rfl
  have hcons (o : Option SettingsFault) (os : List (Option SettingsFault)) :
      (o :: os).findSome? id = o.or (os.findSome? id) := by cases o <;> rfl
  rw [ofJson, fault?_bind fun _ _ ↦ fault?_bind fun _ _ ↦ fault?_bind fun _ _ ↦
    fault?_bind fun _ _ ↦ fault?_bind fun _ _ ↦ fault?_bind fun _ _ ↦ fault?_bind fun _ _ ↦
    fault?_bind fun _ _ ↦ hdone _]
  simp only [fault?_field, faultAt_ok, firstFault, hcons, Option.none_or]
  rfl

/-- The members hold a number that is too large where it is asked for. -/
def HasTooLarge (ms : List (CodeText × Json)) : Prop :=
  ∃ key v, Json.find? key ms = some v ∧
    ((key = rowsKey ∨ key = columnsKey) ∧ v.Endless ∨ (key = gapXKey ∨ key = gapYKey) ∧ v.Huge)

theorem exists_of_faultAt {convert : Json → Except SettingsFault β} {f : SettingsFault}
    (h : faultAt ms key convert = some f) :
    ∃ v, Json.find? key ms = some v ∧ convert v = .error f := by
  obtain ⟨v, hv, hf⟩ := Option.bind_eq_some_iff.1 h
  exact ⟨v, hv, fault?_eq_some.1 hf⟩

theorem mapError_value {x : Except ValueFault β} {f : ValueFault}
    (h : x.mapError SettingsFault.value = .error (.value f)) : x = .error f := by
  cases x with
  | ok b => cases h
  | error g => cases h; rfl

theorem hasTooLarge_of_firstFault (h : firstFault ms = some (.value .outOfRange)) :
    HasTooLarge ms := by
  obtain ⟨o, ho, rfl⟩ := List.exists_of_findSome?_eq_some h
  simp only [List.mem_cons, List.not_mem_nil, or_false] at ho
  have hdirection {key : CodeText} : faultAt ms key toDirection ≠ some (.value .outOfRange) := by
    intro hf
    obtain ⟨v, -, hv⟩ := exists_of_faultAt hf
    unfold toDirection at hv
    split at hv
    next => cases hv
    next => split at hv <;> cases hv
  have hcount {key : CodeText} (hf : faultAt ms key toInt = some (.value .outOfRange)) :
      ∃ v, Json.find? key ms = some v ∧ v.Endless := by
    obtain ⟨v, hfind, hv⟩ := exists_of_faultAt hf
    exact ⟨v, hfind, Json.toInt_outOfRange.1 (mapError_value hv)⟩
  have hlength {key : CodeText} (hf : faultAt ms key toFloat = some (.value .outOfRange)) :
      ∃ v, Json.find? key ms = some v ∧ v.Huge := by
    obtain ⟨v, hfind, hv⟩ := exists_of_faultAt hf
    exact ⟨v, hfind, Json.toFloat_outOfRange.1 (mapError_value hv)⟩
  have htext {key : CodeText} : faultAt ms key toText ≠ some (.value .outOfRange) := by
    intro hf
    obtain ⟨v, -, hv⟩ := exists_of_faultAt hf
    unfold toText at hv
    split at hv
    next => split at hv <;> cases hv
    next => cases hv
  rcases ho with hf | hf | hf | hf | hf | hf | hf
  · exact absurd hf.symm hdirection
  · exact absurd hf.symm hdirection
  · obtain ⟨v, hfind, hv⟩ := hcount hf.symm
    exact ⟨rowsKey, v, hfind, .inl ⟨.inl rfl, hv⟩⟩
  · obtain ⟨v, hfind, hv⟩ := hcount hf.symm
    exact ⟨columnsKey, v, hfind, .inl ⟨.inr rfl, hv⟩⟩
  · obtain ⟨v, hfind, hv⟩ := hlength hf.symm
    exact ⟨gapXKey, v, hfind, .inr ⟨.inl rfl, hv⟩⟩
  · obtain ⟨v, hfind, hv⟩ := hlength hf.symm
    exact ⟨gapYKey, v, hfind, .inr ⟨.inr rfl, hv⟩⟩
  · exact absurd hf.symm htext

end

end Settings

namespace Limits

def value? (key : CodeText) (firmware : Json) : Option Json :=
  ((firmware.get? settingsKey).bind (·.get? key)).bind (·.get? valueKey)

def along (key : CodeText) (firmware : Json) : Except ValueFault (Option Float) := do
  let settings := (← member settingsKey firmware).getD .null
  travel? (← entry key settings)

variable {key : CodeText} {firmware v : Json}

theorem member_cases (key : CodeText) (v : Json) : member key v = .ok (v.get? key) ∨
    member key v = .error .notObject ∧ v.get? key = none := by
  unfold member
  split
  next htrue =>
    cases v with
    | object ms => exact .inl rfl
    | _ => exact .inr ⟨rfl, rfl⟩
  next hfalse =>
    left
    cases v with
    | object ms =>
      cases ms with
      | nil => rfl
      | cons m ms => simp [Json.truthy] at hfalse
    | _ => rfl

theorem travel?_outOfRange : travel? v = .error .outOfRange ↔
    ∃ x, v.get? valueKey = some x ∧ x.Huge := by
  rw [travel?]
  rcases member_cases valueKey v with h | ⟨h, hnone⟩
  · rw [h]
    cases v.get? valueKey with
    | none => simp [bind, Except.bind, pure, Except.pure]
    | some x =>
      simp only [bind, Except.bind, Option.some.injEq, exists_eq_left', ← Json.toFloat_outOfRange]
      cases x.toFloat with
      | ok y => simp [pure, Except.pure]
      | error f => cases f <;> simp [pure, Except.pure]
  · rw [h, hnone]
    simp [bind, Except.bind]

theorem along_outOfRange : along key firmware = .error .outOfRange ↔
    ∃ x, value? key firmware = some x ∧ x.Huge := by
  have htravel (o : Option Json) : travel? (o.getD .null) = .error .outOfRange ↔
      ∃ x, o.bind (·.get? valueKey) = some x ∧ x.Huge := by
    rw [travel?_outOfRange]
    cases o <;> rfl
  have hentry (settings : Json) : (entry key settings >>= travel?) = .error .outOfRange ↔
      ∃ x, (settings.get? key).bind (·.get? valueKey) = some x ∧ x.Huge := by
    rw [← htravel, entry]
    rcases member_cases key settings with h | ⟨h, hnone⟩
    · rw [h]
      rfl
    · rw [h, hnone, htravel]
      simp [bind, Except.bind]
  rw [along, value?]
  rcases member_cases settingsKey firmware with h | ⟨h, hnone⟩
  · rw [h]
    refine (hentry _).trans ?_
    cases firmware.get? settingsKey <;> rfl
  · rw [h, hnone]
    simp [bind, Except.bind]

theorem ofJson_eq (firmware : Json) : ofJson firmware = (do
    let x ← along xKey firmware
    let y ← along yKey firmware
    return ⟨x.getD 400, y.getD 400⟩) := by
  unfold ofJson along
  cases member settingsKey firmware with
  | error f => rfl
  | ok settings =>
    change (entry xKey (settings.getD .null) >>= fun e ↦ travel? e >>= fun x ↦
        entry yKey (settings.getD .null) >>= fun e ↦ travel? e >>= fun y ↦
          pure (Limits.mk (x.getD 400) (y.getD 400))) =
      ((entry xKey (settings.getD .null) >>= travel?) >>= fun x ↦
        (entry yKey (settings.getD .null) >>= travel?) >>= fun y ↦
          pure (Limits.mk (x.getD 400) (y.getD 400)))
    simp only [bind_assoc]

/-- The number for X is too large, or that for X is in order and the one for Y is too large. -/
def TooLarge (firmware : Json) : Prop :=
  (∃ x, value? xKey firmware = some x ∧ x.Huge) ∨
    fault? (along xKey firmware) = none ∧ ∃ y, value? yKey firmware = some y ∧ y.Huge

theorem ofJson_outOfRange : ofJson firmware = .error .outOfRange ↔ TooLarge firmware := by
  rw [ofJson_eq, TooLarge, ← along_outOfRange, ← along_outOfRange]
  cases along xKey firmware with
  | error f => simp [bind, Except.bind, fault?]
  | ok x => cases along yKey firmware <;> simp [bind, Except.bind, pure, Except.pure, fault?]

end Limits

namespace Storage

def document? (content : List UInt8) : Option Json :=
  (Text.ofUtf8? content).bind fun t ↦ (Json.read t.length t).toOption

def settingsIn? (content : List UInt8) : Option (Settings Float) :=
  (document? content).bind fun v ↦ (Settings.ofJson v).toOption

def limitsIn? (content : List UInt8) : Option Limits :=
  (document? content).bind fun v ↦ (Limits.ofJson v).toOption

def SettingsTooLarge (content : List UInt8) : Prop :=
  ∃ ms, document? content = some (.object ms) ∧
    Settings.firstFault ms = some (.value .outOfRange)

def LimitsTooLarge (content : List UInt8) : Prop :=
  ∃ v, document? content = some v ∧ Limits.TooLarge v

/-- There is room for fewer levels than there are. -/
def TooDeep (room : ℕ) (content : List UInt8) : Prop := document room content = .error .tooDeep

/-- A file has so many levels, no more than it has bytes. Values that lie deeper than there is room
for are too deep, and else its document is what it holds. -/
theorem document_eq_ite (content : List UInt8) : ∃ levels, levels ≤ content.length ∧
    (∀ v, document? content = some v → v.depth ≤ levels + 1) ∧
    ∀ room, document room content = if room < levels then .error .tooDeep else
      match document? content with
      | some v => .ok v
      | none => .error .malformed := by
  unfold document document?
  cases ht : Text.ofUtf8? content with
  | none => exact ⟨0, Nat.zero_le _, by simp, fun room ↦ rfl⟩
  | some t =>
    obtain ⟨levels, a, hlevels, ha, hdepth, hread⟩ := Json.read_eq_ite t
    have hwhole : Json.read t.length t = a := by rw [hread, if_neg (not_lt.2 hlevels)]
    refine ⟨levels, hlevels.trans (Text.length_of_ofUtf8? ht), fun v hv ↦ hdepth v ?_, fun room ↦ ?_⟩
    · rw [Option.bind_some, hwhole] at hv
      cases a with
      | error e => cases hv
      | ok w => exact congrArg Except.ok (Option.some_inj.1 hv)
    · dsimp only [Option.bind_some]
      rw [hread, hwhole]
      cases a with
      | error e =>
        cases e with
        | malformed => rfl
        | tooDeep => exact absurd rfl ha
      | ok v => rfl

/-- What was loaded is what is held; else the default with a warning; else, if a number was too
large or a value too deep, there is nothing. -/
structure Answers {β : Type} (r : Except LoadFault (Loaded β)) (default : β) (held : Option β)
    (tooLarge tooDeep : Prop) : Prop where
  of_some : ¬ tooDeep → ∀ b, held = some b → r = .ok ⟨b, false⟩
  of_none : ¬ tooDeep → held = none → ¬ tooLarge → r = .ok ⟨default, true⟩
  of_tooLarge : ¬ tooDeep → tooLarge → r = .error .tooLarge
  of_tooDeep : tooDeep → r = .error .tooDeep

def settingsOf (v : Json) : Except ValueFault (Option (Settings Float)) :=
  match Settings.ofJson v with
  | .ok s => .ok (some s)
  | .error (.value f) => .error f
  | .error (.direction _) => .ok none

theorem join_settingsOf (v : Json) :
    (settingsOf v).toOption.join = (Settings.ofJson v).toOption := by
  unfold settingsOf
  rcases Settings.ofJson v with (f | f) | s <;> rfl

theorem settingsOf_outOfRange {v : Json} : settingsOf v = .error .outOfRange ↔
    ∃ ms, v = .object ms ∧ Settings.firstFault ms = some (.value .outOfRange) := by
  have hof : settingsOf v = .error .outOfRange ↔
      Settings.ofJson v = .error (.value .outOfRange) := by
    unfold settingsOf
    rcases Settings.ofJson v with (f | f) | s <;> simp
  rw [hof, ← fault?_eq_some]
  cases v with
  | object ms => simp [Settings.fault?_ofJson]
  | _ => simp [Settings.ofJson, fault?]

section Load

variable {β : Type} {d : β} {convert : Json → Except ValueFault (Option β)} {t : FileTree}
  {path : Text} {content : List UInt8}

theorem answers_load (h : t.readAt path = .ok content) (room : ℕ) :
    Answers (load d convert room t path) d
      ((document? content).bind fun v ↦ (convert v).toOption.join)
      (∃ v, document? content = some v ∧ convert v = .error .outOfRange) (TooDeep room content) := by
  obtain ⟨levels, -, -, hdocument⟩ := document_eq_ite content
  unfold load TooDeep
  rw [h]
  dsimp only
  rw [hdocument room]
  by_cases hroom : room < levels
  · rw [if_pos hroom]
    exact ⟨by simp, by simp, by simp, fun _ ↦ rfl⟩
  · rw [if_neg hroom]
    cases document? content with
    | none => exact ⟨by simp, fun _ _ _ ↦ rfl, by simp, by simp⟩
    | some v =>
      dsimp only [Option.bind_some]
      cases hv : convert v with
      | ok o => cases o <;> constructor <;> simp [Except.toOption, hv]
      | error f => cases f <;> constructor <;> simp [Except.toOption, hv]

theorem Answers.congr {r : Except LoadFault (Loaded β)} {held held' : Option β}
    {large large' deep : Prop} (h : Answers r d held large deep) (hh : held = held')
    (hl : large ↔ large') : Answers r d held' large' deep := by
  rwa [← hh, ← hl]

/-- Whatever bytes the files consist of and however deep values may lie, the settings and the limits
are what a well-formed document holds, else the defaults, with a warning; but there is a fault if the
first thing at fault is a number that is too large, which no document has whose numbers are not, or
if there is room for fewer levels than the file has, as there never is for a file with no more bytes
than there is room. -/
theorem load_of_content (h : t.readAt path = .ok content) :
    (∀ room, Answers (loadSettings room t path) .default (settingsIn? content)
        (SettingsTooLarge content) (TooDeep room content) ∧
      Answers (loadLimits room t path) {} (limitsIn? content) (LimitsTooLarge content)
        (TooDeep room content)) ∧
      (SettingsTooLarge content →
        ∃ ms, document? content = some (.object ms) ∧ Settings.HasTooLarge ms) ∧
      ∃ levels, levels ≤ content.length ∧ (∀ room, TooDeep room content ↔ room < levels) ∧
        ∀ v, document? content = some v → v.depth ≤ levels + 1 := by
  have hlimits (v : Json) :
      ((Limits.ofJson v).map some).toOption.join = (Limits.ofJson v).toOption := by
    cases Limits.ofJson v <;> rfl
  have hfault (v : Json) :
      (Limits.ofJson v).map some = .error .outOfRange ↔ Limits.TooLarge v := by
    rw [← Limits.ofJson_outOfRange]
    cases Limits.ofJson v <;> simp [Except.map]
  refine ⟨fun room ↦ ⟨?_, ?_⟩, fun ⟨ms, hms, hf⟩ ↦
    ⟨ms, hms, Settings.hasTooLarge_of_firstFault hf⟩, ?_⟩
  · have hload : loadSettings room t path = load .default settingsOf room t path := rfl
    rw [hload]
    refine (answers_load h room).congr ?_ ?_
    · simp only [join_settingsOf, settingsIn?]
    · simp only [settingsOf_outOfRange, SettingsTooLarge]
      exact ⟨fun ⟨_, hv, ms, hms, hf⟩ ↦ ⟨ms, hms ▸ hv, hf⟩,
        fun ⟨ms, hv, hf⟩ ↦ ⟨_, hv, ms, rfl, hf⟩⟩
  · refine (answers_load h room).congr ?_ ?_
    · simp only [hlimits, limitsIn?]
    · simp only [hfault, LimitsTooLarge]
  · obtain ⟨levels, hle, hdepth, hdocument⟩ := document_eq_ite content
    refine ⟨levels, hle, fun room ↦ ?_, hdepth⟩
    rw [TooDeep, hdocument]
    split
    next hlt => simp [hlt]
    next hlt => cases document? content <;> simp [hlt]

end Load

section Rows

def holding (text : String) : FileTree :=
  .folder [("settings.json".toList, .file (Text.utf8 text.toList))]

theorem readAt_holding (text : String) :
    (holding text).readAt "settings.json".toList = .ok (Text.utf8 text.toList) := by
  rfl

theorem load_of_content_manyRows :
    loadSettings 900 (holding "\x7b\"rows\": \"many\"\x7d") "settings.json".toList =
      .ok ⟨.default, true⟩ := by
  obtain ⟨hanswers, -, levels, hle, hdeep, -⟩ :=
    load_of_content (readAt_holding "\x7b\"rows\": \"many\"\x7d")
  have hreturns : (loadSettings 900 (holding "\x7b\"rows\": \"many\"\x7d")
      "settings.json".toList).isOk = true := by decide +kernel
  have hnone : (settingsIn? (Text.utf8 "\x7b\"rows\": \"many\"\x7d".toList)).isNone = true := by
    decide +kernel
  have hshort : (Text.utf8 "\x7b\"rows\": \"many\"\x7d".toList).length ≤ 900 := by decide +kernel
  have hroom : ¬ TooDeep 900 (Text.utf8 "\x7b\"rows\": \"many\"\x7d".toList) :=
    mt (hdeep 900).1 (not_lt.2 (hle.trans hshort))
  refine (hanswers 900).1.of_none hroom (by simpa using hnone) fun hlarge ↦ ?_
  rw [(hanswers 900).1.of_tooLarge hroom hlarge] at hreturns
  cases hreturns

def AlwaysLoads : Prop :=
  ∀ t path content, FileTree.readAt t path = .ok content →
    (∃ s, loadSettings 900 t path = .ok s) ∧ ∃ l, loadLimits 900 t path = .ok l

theorem not_alwaysLoads : ¬ AlwaysLoads := by
  intro h
  have hfails : (loadSettings 900 (holding "\x7b\"rows\": 1e999\x7d") "settings.json".toList).isOk =
      false := by decide +kernel
  obtain ⟨s, hs⟩ := (h _ _ _ (readAt_holding "\x7b\"rows\": 1e999\x7d")).1
  rw [hs] at hfails
  cases hfails

end Rows

end Storage

end StepAndRepeat
