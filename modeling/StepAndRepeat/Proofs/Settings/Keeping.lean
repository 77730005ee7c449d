import StepAndRepeat.Proofs.Files.Writing
import StepAndRepeat.Proofs.Json.Documents
import StepAndRepeat.Proofs.Number.Whole
import StepAndRepeat.Proofs.Settings.Loading

namespace StepAndRepeat

open Text

namespace Reading

variable {t r : Text} {n count : ℕ}

theorem moreDigits_lt {value count' : ℕ} (h : moreDigits value count t = (n, count', r))
    (hv : value < 10 ^ count) : n < 10 ^ count' := by
  have hstep {value count d : ℕ} (hv : value < 10 ^ count) (hd : d < 10) :
      10 * value + d < 10 ^ (count + 1) := by
    rw [Nat.pow_succ]
    omega
  fun_induction moreDigits value count t with
  | case1 | case4 | case5 =>
    obtain ⟨rfl, rfl, -⟩ := by simpa using h
    exact hv
  | case2 value count c t d hd ih => exact ih h (hstep hv (lt_ten_of_digitValue? hd))
  | case3 value count _ _ u d hd ih => exact ih h (hstep hv (lt_ten_of_digitValue? ‹_›))

theorem digits_lt (h : digits 0 t = (n, count, r)) : n < 10 ^ count := by
  cases t with
  | nil =>
    obtain ⟨rfl, rfl, -⟩ := by simpa [digits] using h
    exact Nat.one_pos
  | cons c t =>
    rw [digits] at h
    split at h
    next d hd => exact moreDigits_lt h (by have := lt_ten_of_digitValue? hd; omega)
    next =>
      obtain ⟨rfl, rfl, -⟩ := by simpa using h
      exact Nat.one_pos

theorem short_of_int? {m : ℤ} (h : int? t = some m) : Short m := by
  unfold int? at h
  dsimp only at h
  split at h
  next n count hdigits =>
    split at h
    next => cases h
    next hc =>
      have hlt := digits_lt hdigits
      have habs : m.natAbs = n := by
        rw [← Option.some_inj.1 h]
        split <;> simp
      rw [Short, habs]
      exact hlt.trans_le (Nat.pow_le_pow_right (by decide) (not_lt.1 (not_or.1 hc).2))
  next => cases h

end Reading

namespace Binary

theorem short_of_trunc? {x : Float} {n : ℤ} (h : trunc? x = some n) : Short n := by
  obtain ⟨k, s, hk, hs, hn⟩ := exists_of_trunc? h
  rw [Short, hn]
  calc k * 2 ^ s ≤ 2 ^ 53 * 2 ^ 971 :=
        Nat.mul_le_mul hk.le (Nat.pow_le_pow_right (by decide) hs)
    _ < 10 ^ digitLimit := by decide +kernel

end Binary

namespace Json

theorem short_of_toInt {v : Json} {n : ℤ} (hv : v.Held) (h : v.toInt = .ok n) : Short n := by
  cases v with
  | bool b =>
    obtain rfl := Except.ok.inj h
    cases b <;> decide +kernel
  | int m =>
    obtain rfl := Except.ok.inj h
    exact held_int_iff.1 hv
  | num x =>
    rw [toInt] at h
    split at h
    next m hm => exact Except.ok.inj h ▸ Binary.short_of_trunc? hm
    next => cases h
  | str t =>
    rw [toInt] at h
    split at h
    next m hm =>
      obtain ⟨u, -, hu⟩ := Option.bind_eq_some_iff.1 hm
      exact Except.ok.inj h ▸ Reading.short_of_int? hu
    next => cases h
  | _ => cases h

theorem isWritable_iff {n : ℤ} : (int n).isWritable = true ↔ Short n := by
  rw [isWritable, writeInt, Short, ← length_ofNat_le_iff (by decide)]
  split <;> simp [Except.isOk, Except.toBool] <;> omega

end Json

namespace Settings

def keys : List CodeText :=
  [rowsKey, columnsKey, rowDirectionKey, columnDirectionKey, gapXKey, gapYKey, sortKey, skipKey]

/-- Settings that a document can hold. -/
structure Held (s : Settings Float) : Prop where
  rows : Short s.rows
  columns : Short s.columns
  skipText : s.skipText.Settled

variable {s : Settings Float}

theorem nodup_keys : keys.Nodup := by decide

theorem held_toJson (h : s.Held) : s.toJson.Held := by
  refine .object nodup_keys (fun m hm ↦ ?_) fun m hm ↦ ?_
  · simp only [List.mem_cons, List.not_mem_nil, or_false] at hm
    rcases hm with rfl | rfl | rfl | rfl | rfl | rfl | rfl | rfl
    all_goals exact CodeText.settled_ofText _
  · simp only [List.mem_cons, List.not_mem_nil, or_false] at hm
    rcases hm with rfl | rfl | rfl | rfl | rfl | rfl | rfl | rfl
    · exact .int h.rows
    · exact .int h.columns
    · exact .str (CodeText.settled_ofText _)
    · exact .str (CodeText.settled_ofText _)
    · exact .num _
    · exact .num _
    · exact .bool _
    · exact .str h.skipText

theorem depth_toJson (s : Settings Float) : s.toJson.depth = 1 := by
  simp [toJson, Json.depth, Json.membersDepth]

theorem isWritable_toJson : s.toJson.isWritable = true ↔ Short s.rows ∧ Short s.columns := by
  rw [← Json.isWritable_iff, ← Json.isWritable_iff, ← Bool.and_eq_true]
  simp [toJson, Json.isWritable, Json.membersWritable]

theorem document_toJson_eq_ok {text : Text} : s.toJson.document = .ok text ↔
    (Short s.rows ∧ Short s.columns) ∧ s.toJson.indented = text := by
  rw [Json.document, ← isWritable_toJson]
  split <;> simp_all

theorem indented_joined (s : Settings Float) :
    { s with skipText := s.skipText.joined }.toJson.indented = s.toJson.indented := by
  simp only [Json.indented, toJson, Json.textAt, Json.membersText, Json.scalarText,
    Json.quote_joined]

theorem toDirection_name (d : Direction) : toDirection (.str (.ofText d.name)) = .ok d := by
  have hname : Direction.ofJson? (.str (.ofText d.name)) = some d := by
    rw [Direction.ofJson?, Json.plainText, CodeText.text?_ofText]
    exact Direction.ofName?_name d
  rw [toDirection, hname]

theorem toText_str (t : CodeText) : toText (.str t) = .ok t := by
  cases t <;> simp [toText, Json.truthy, Json.isWritable, Json.plainText]

theorem ofJson_toJson (s : Settings Float) : ofJson s.toJson = .ok s := by
  have hfield {β : Type} (key : CodeText) (v : Json) (d : β)
      (convert : Json → Except SettingsFault β) (ms : List (CodeText × Json))
      (h : Json.find? key ms = some v) : field ms key d convert = convert v := by
    rw [field, h]
  rw [toJson, ofJson, hfield rowDirectionKey (.str (.ofText s.rowDirection.name)) _ _ _ rfl,
    hfield columnDirectionKey (.str (.ofText s.columnDirection.name)) _ _ _ rfl,
    hfield rowsKey (.int s.rows) _ _ _ rfl, hfield columnsKey (.int s.columns) _ _ _ rfl,
    hfield gapXKey (.num s.gapX) _ _ _ rfl, hfield gapYKey (.num s.gapY) _ _ _ rfl,
    hfield sortKey (.bool s.sortByTool) _ _ _ rfl, hfield skipKey (.str s.skipText) _ _ _ rfl,
    toDirection_name, toDirection_name, toText_str]
  rfl

theorem mem_of_find? {key : CodeText} {v : Json} {ms : List (CodeText × Json)}
    (h : Json.find? key ms = some v) : (key, v) ∈ ms := by
  induction ms with
  | nil => cases h
  | cons m ms ih =>
    obtain ⟨k, w⟩ := m
    rw [Json.find?] at h
    split at h
    next hk =>
      rw [hk, Option.some_inj.1 h]
      exact List.mem_cons_self
    next => exact List.mem_cons_of_mem _ (ih h)

theorem settled_of_toText {v : Json} {t : CodeText} (hv : v.Held) (h : toText v = .ok t) :
    t.Settled := by
  unfold toText at h
  split at h
  next =>
    split at h
    next =>
      rw [← Except.ok.inj h]
      cases v with
      | str u => exact Json.held_str_iff.1 hv
      | _ => exact CodeText.settled_ofText _
    next => cases h
  next => exact Except.ok.inj h ▸ CodeText.settled_ofText []

theorem held_of_ofJson {ms : List (CodeText × Json)} (h : Json.Held (.object ms))
    (hs : ofJson (.object ms) = .ok s) : s.Held := by
  obtain ⟨-, -, hms⟩ := Json.held_object_iff.1 h
  have hfield {β : Type} {key : CodeText} {d b : β} {convert : Json → Except SettingsFault β}
      {P : β → Prop} (hd : P d) (hconvert : ∀ v, v.Held → ∀ b, convert v = .ok b → P b)
      (hb : field ms key d convert = .ok b) : P b := by
    unfold field at hb
    split at hb
    next => exact Except.ok.inj hb ▸ hd
    next v hv => exact hconvert v (hms _ (mem_of_find? hv)) b hb
  have hcount (v : Json) (hv : v.Held) (n : ℤ) (hn : toInt v = .ok n) : Short n :=
    Json.short_of_toInt hv (mapError_eq_ok.1 hn)
  rw [ofJson] at hs
  obtain ⟨_, -, hs⟩ := bind_eq_ok.1 hs
  obtain ⟨_, -, hs⟩ := bind_eq_ok.1 hs
  obtain ⟨rows, hrows, hs⟩ := bind_eq_ok.1 hs
  obtain ⟨columns, hcolumns, hs⟩ := bind_eq_ok.1 hs
  obtain ⟨_, -, hs⟩ := bind_eq_ok.1 hs
  obtain ⟨_, -, hs⟩ := bind_eq_ok.1 hs
  obtain ⟨_, -, hs⟩ := bind_eq_ok.1 hs
  obtain ⟨skipText, hskip, hs⟩ := bind_eq_ok.1 hs
  obtain rfl := Except.ok.inj hs
  exact ⟨hfield (by decide +kernel) hcount hrows, hfield (by decide +kernel) hcount hcolumns,
    hfield (CodeText.settled_ofText []) (fun v hv t ht ↦ settled_of_toText hv ht) hskip⟩

end Settings

namespace Storage

variable {t t' : FileTree} {path : Text} {s : Settings Float}

theorem document_toJson (h : s.Held) (room : ℕ) :
    document room (utf8 s.toJson.indented) = .ok s.toJson := by
  rw [document, ofUtf8?_utf8]
  exact Json.read_textAt (Settings.held_toJson h) (by rw [s.depth_toJson]; omega)

/-- Saving is making the folders and writing the document. -/
theorem saveSettings_eq_ok : saveSettings s t path = .ok t' ↔
    (Short s.rows ∧ Short s.columns) ∧
      ∃ t₁, t.makeFolderAt (Path.ofText path).parent.text = .ok t₁ ∧
        t₁.writeAt (Path.ofText path).text (utf8 s.toJson.indented) = .ok t' := by
  simp only [saveSettings, bind_eq_ok, mapError_eq_ok, Settings.document_toJson_eq_ok]
  constructor
  · rintro ⟨t₁, ht₁, text, ⟨hshort, rfl⟩, hwrite⟩
    exact ⟨hshort, t₁, ht₁, hwrite⟩
  · rintro ⟨hshort, t₁, ht₁, hwrite⟩
    exact ⟨t₁, ht₁, _, ⟨hshort, rfl⟩, hwrite⟩

theorem saveSettings_ne_overrun (hr : Short s.rows) (hc : Short s.columns) (f : Overrun) :
    saveSettings s t path ≠ .error (.overrun f) := by
  rw [saveSettings, Settings.document_toJson_eq_ok.2 ⟨⟨hr, hc⟩, rfl⟩]
  cases t.makeFolderAt (Path.ofText path).parent.text with
  | error e => simp [Except.mapError, bind, Except.bind]
  | ok t₁ =>
    simp only [Except.mapError, bind, Except.bind]
    split <;> simp

theorem load_of_document {content : List UInt8} {room : ℕ} (h : t.readAt path = .ok content)
    (hs : document room content = .ok s.toJson) : loadSettings room t path = .ok ⟨s, false⟩ := by
  rw [loadSettings, load, h]
  dsimp only
  rw [hs]
  dsimp only
  rw [Settings.ofJson_toJson]

theorem saved_kept (s : Settings Float) (t : FileTree) (path : Text) :
    Settings.ofJson s.toJson = .ok s ∧
      ((∃ t', saveSettings s t path = .ok t') ↔
        (Short s.rows ∧ Short s.columns) ∧ t.HasPlace path) ∧
      ∀ t' room, saveSettings s t path = .ok t' →
        loadSettings room t' path = .ok ⟨{ s with skipText := s.skipText.joined }, false⟩ := by
  refine ⟨s.ofJson_toJson, ?_, fun t' room h ↦ ?_⟩
  · simp only [saveSettings_eq_ok, exists_and_left]
    exact and_congr_right fun _ ↦ exists_comm.trans FileTree.exists_writeAt_iff
  · obtain ⟨hshort, t₁, -, hwrite⟩ := saveSettings_eq_ok.1 h
    have hheld : Settings.Held { s with skipText := s.skipText.joined } :=
      ⟨hshort.1, hshort.2, CodeText.settled_joined _⟩
    rw [← s.indented_joined] at hwrite
    exact load_of_document (FileTree.readAt_of_writeAt hwrite) (document_toJson hheld room)

/-- A JSON object is what a JSON text is read as. Settings that come from any such object give a
document that gives the same settings; they can be saved wherever there is a place for a file, and
loading the file gives them without a warning. Whatever other settings there are give themselves too,
but their numbers may be too long to be saved, and of their skip texts pairs of halves are put
together. -/
theorem settings_kept (t : FileTree) (path : Text) :
    (∀ room text ms s, Json.read room text = .ok (.object ms) →
      Settings.ofJson (.object ms) = .ok s →
      Settings.ofJson s.toJson = .ok s ∧
        ((∃ t', saveSettings s t path = .ok t') ↔ t.HasPlace path) ∧
        ∀ t' room', saveSettings s t path = .ok t' →
          loadSettings room' t' path = .ok ⟨s, false⟩) ∧
    ∀ s, Settings.ofJson s.toJson = .ok s ∧
      ((∃ t', saveSettings s t path = .ok t') ↔
        (Short s.rows ∧ Short s.columns) ∧ t.HasPlace path) ∧
      ∀ t' room, saveSettings s t path = .ok t' →
        loadSettings room t' path = .ok ⟨{ s with skipText := s.skipText.joined }, false⟩ := by
  refine ⟨fun room text ms s hread hs ↦ ?_, fun s ↦ saved_kept s t path⟩
  have hheld := Settings.held_of_ofJson (Json.held_of_read hread) hs
  obtain ⟨hsame, hsaves, hloads⟩ := saved_kept s t path
  rw [CodeText.joined_of_settled hheld.skipText] at hloads
  exact ⟨hsame, hsaves.trans (and_iff_right ⟨hheld.rows, hheld.columns⟩), hloads⟩

section Escapes

def unusual : Text :=
  ("\x7b\"rows\": -3, \"columns\": 1e20, \"row_direction\": \"Negative\", \"gap_x\": NaN," ++
    "\"gap_y\": 0.1, \"sort_by_tool\": 1, \"skip_instances\":" ++
    "\"\\\"1-3\\\" \\\\ \\u0007 \\ud83d\\ude00 \\ud83d\"\x7d").toList

theorem settings_kept_unusual :
    FileTree.empty.HasPlace "made/replicator.json".toList ∧
      ∃ ms s t, Json.read 900 unusual = .ok (.object ms) ∧ Settings.ofJson (.object ms) = .ok s ∧
        s.rows = -3 ∧ s.columns = 10 ^ 20 ∧ s.skipText.length = 13 ∧
        saveSettings s .empty "made/replicator.json".toList = .ok t ∧
        loadSettings 900 t "made/replicator.json".toList = .ok ⟨s, false⟩ := by
  have hplace : FileTree.empty.HasPlace "made/replicator.json".toList :=
    ⟨⟨by decide, by decide⟩, FileTree.open_empty (by decide)⟩
  have hfound : ((Json.read 900 unusual).toOption.bind fun v ↦ (Settings.ofJson v).toOption).any
      (fun s ↦ s.rows = -3 ∧ s.columns = 10 ^ 20 ∧ s.skipText.length = 13) = true := by
    decide +kernel
  obtain ⟨s, hread, hfields⟩ := (Option.any_eq_true ..).1 hfound
  obtain ⟨v, hread, hs⟩ := Option.bind_eq_some_iff.1 hread
  have hread := eq_ok_of_toOption hread
  have hs := eq_ok_of_toOption hs
  obtain ⟨hrows, hcolumns, hlength⟩ : s.rows = -3 ∧ s.columns = 10 ^ 20 ∧
    s.skipText.length = 13 := by simpa using hfields
  cases v with
  | object ms =>
    obtain ⟨-, hsaves, hloads⟩ :=
      (settings_kept .empty "made/replicator.json".toList).1 900 unusual ms s hread hs
    obtain ⟨t, ht⟩ := hsaves.2 hplace
    exact ⟨hplace, ms, s, t, hread, hs, hrows, hcolumns, hlength, ht, hloads t 900 ht⟩
  | _ => cases hs

end Escapes

end Storage

end StepAndRepeat
