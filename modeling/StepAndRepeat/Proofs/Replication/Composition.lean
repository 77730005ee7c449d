import StepAndRepeat.Proofs.Replication.Structure

namespace StepAndRepeat

variable {α : Type} [Coordinate α]

namespace Offset

instance : Add (Offset α) := ⟨fun o p ↦ ⟨o.x + p.x, o.y + p.y⟩⟩

/-- Texts as they are written for a copy, from the modes that a machine begins with. -/
def shiftAll (o : Offset α) (ts : List Text) : Except LineFault (List Text) :=
  (Line.readFrom 0 ts).map fun ls ↦ (o.rewrites {} ls).map Copy.text

/-- Adding to a sum as it is written and read again is written as adding both amounts at once. -/
def AddsOn (d e v : α) : Prop :=
  Coordinate.fixed 3 (Coordinate.ofNumeral (.ofText (Coordinate.fixed 3 (v + d))) + e) =
    Coordinate.fixed 3 (v + (d + e))

instance (d e v : α) : Decidable (AddsOn d e v) := inferInstanceAs (Decidable (_ = _))

variable {o p : Offset α}

def AddsOnAll (o p : Offset α) (l : Line α) : Prop :=
  ∀ k ∈ l.keys, ∀ d e, o.of? k.1 = some d → p.of? k.1 = some e → AddsOn d e k.2

section Text

omit [Coordinate α] in
theorem of?_eq_some_iff {c : Char} {d : α} :
    o.of? c = some d ↔ c = 'X' ∧ o.x = d ∨ c = 'Y' ∧ o.y = d := by
  unfold of?
  by_cases hx : c = 'X'
  · subst hx
    simp
  · by_cases hy : c = 'Y' <;> simp [hx, hy]

omit [Coordinate α] in
theorem of?_eq_none_iff {c : Char} : o.of? c = none ↔ c ≠ 'X' ∧ c ≠ 'Y' := by
  unfold of?
  split
  · simp [*]
  · split <;> simp [*]

theorem of?_add {c : Char} {d e : α} (hd : o.of? c = some d) (he : p.of? c = some e) :
    (o + p).of? c = some (d + e) := by
  rcases of?_eq_some_iff.1 hd with ⟨rfl, rfl⟩ | ⟨rfl, rfl⟩
  · obtain rfl : p.x = e := Option.some_inj.1 he
    rfl
  · obtain rfl : p.y = e := Option.some_inj.1 he
    rfl

/-- A word that was shifted is shifted again as one that is shifted by both amounts. -/
theorem shiftPart_mapToken {q : LinePart}
    (h : ∀ k, q.key? = some k → ∀ d e, o.of? k.1 = some d → p.of? k.1 = some e → AddsOn d e k.2) :
    p.shiftPart (q.mapToken o.changeToken) = (o + p).shiftPart q := by
  cases q with
  | comment t => rfl
  | token k =>
    cases k with
    | other c => rfl
    | word l n =>
      simp only [LinePart.mapToken, changeToken, shiftPart]
      cases hd : o.of? (Text.capital l) with
      | none =>
        have hp : p.of? (Text.capital l) = none := of?_eq_none_iff.2 (of?_eq_none_iff.1 hd)
        have hsum : (o + p).of? (Text.capital l) = none :=
          of?_eq_none_iff.2 (of?_eq_none_iff.1 hd)
        simp only [shiftToken, hp, hsum]
      | some d =>
        obtain ⟨e, he⟩ : ∃ e, p.of? (Text.capital l) = some e := by
          refine Option.ne_none_iff_exists'.1 fun hp ↦ ?_
          rw [of?_eq_none_iff.2 (of?_eq_none_iff.1 hp)] at hd
          cases hd
        have hadds := h _ rfl d e hd he
        simp only [shiftToken, capital_of_of? hd, he, of?_add hd he]
        rw [wordText, wordText, hadds]

theorem shiftText_shiftText {l : Line α} (hl : l.IsRead) (hk : l.kind = .code)
    (ho : o.WritesDecimals l) (ha : AddsOnAll o p l) :
    p.shiftText (o.shiftText l.text) = (o + p).shiftText l.text := by
  have hparts : LinePart.ofLine (o.shiftText l.text) =
      (LinePart.ofLine l.text).map (LinePart.mapToken o.changeToken) := by
    rw [shiftText_eq, LinePart.ofLine_map fun k hk' ↦ changes_changeToken hl hk ho hk']
  have hkeys : l.keys = (LinePart.ofLine l.text).filterMap LinePart.key? := by
    rw [Line.keys_of_readAt hl, if_pos (hl.kind_eq ▸ hk)]
  rw [p.shiftText_eq_flatMap, hparts, List.flatMap_map, shiftText_eq_flatMap]
  refine List.flatMap_congr fun q hq ↦ shiftPart_mapToken fun k hqk ↦ ?_
  exact ha k (hkeys ▸ List.mem_filterMap.2 ⟨q, hq, hqk⟩)

end Text

section Lines

/-- A line that was written for one copy is read again, sets the modes it has set before, and is
written for the other copy as it is for both. -/
theorem exists_read_copyText {l : Line α} (hl : l.IsRead) (ho : o.WritesDecimals l)
    (ha : AddsOnAll o p l) (m : Modes) (i : Nat) :
    ∃ r : Line α, Line.readAt i (o.copyText (m.read l) l) = .ok r ∧ m.read r = m.read l ∧
      p.copyText (m.read l) r = (o + p).copyText (m.read l) l := by
  by_cases happ : applies (m.read l) l = true
  · have hk : l.kind = .code := by
      simp only [applies, Bool.and_eq_true, decide_eq_true_eq] at happ
      exact happ.1.1.1
    obtain ⟨r, hr, hs⟩ := exists_lineShifted_shiftText hl hk ho i
    have hflags := hs.flags
    simp only [Line.flags, List.cons.injEq, and_true] at hflags
    obtain ⟨-, -, hmachine, -, -, -, -, -, hxy, -, -⟩ := hflags
    have happ' : applies (m.read l) r = true := by
      rw [applies, hs.kind, hmachine, hxy]
      rwa [applies, hk] at happ
    have htext := (Line.readAt_fields hr).2.1
    refine ⟨r, by rwa [copyText, if_pos happ], ?_, ?_⟩
    · exact Modes.read_of_values (hs.kind.trans hk.symm) (hs.values 'G' (by decide) (by decide)) m
    · rw [copyText, if_pos happ', copyText, if_pos happ, htext, shiftText_shiftText hl hk ho ha]
  · obtain ⟨r, hr⟩ := Line.exists_readAt_of_readAt hl i
    have hsame : r = { l with index := i } := by
      have h := hr
      rw [Line.readAt_eq_map, Line.readAt_zero hl] at h
      exact (Except.ok.inj h).symm
    have happ' : ¬ applies (m.read l) r = true := by
      rw [hsame]
      exact happ
    refine ⟨r, by rwa [copyText, if_neg happ], ?_, ?_⟩
    · rw [hsame]
      rfl
    · rw [copyText, if_neg happ', copyText, if_neg happ, hsame]

/-- Lines that were written for one copy are read and written for the other as for both. -/
theorem exists_readFrom_rewrites {ls : List (Line α)} (hl : ∀ l ∈ ls, l.IsRead)
    (ho : ∀ l ∈ ls, o.WritesDecimals l) (ha : ∀ l ∈ ls, AddsOnAll o p l) (m : Modes) (i : Nat) :
    ∃ rs : List (Line α), Line.readFrom i ((o.rewrites m ls).map Copy.text) = .ok rs ∧
      (p.rewrites m rs).map Copy.text = ((o + p).rewrites m ls).map Copy.text := by
  induction ls generalizing m i with
  | nil => exact ⟨[], rfl, rfl⟩
  | cons l ls ih =>
    obtain ⟨r, hr, hmodes, htext⟩ := exists_read_copyText (hl l (by simp)) (ho l (by simp))
      (ha l (by simp)) m i
    obtain ⟨rs, hrs, hrest⟩ := ih (fun k hk ↦ hl k (by simp [hk])) (fun k hk ↦ ho k (by simp [hk]))
      (fun k hk ↦ ha k (by simp [hk])) (m.read l) (i + 1)
    refine ⟨r :: rs, ?_, ?_⟩
    · rw [rewrites, List.map_cons, Line.readFrom, step_text, step_modes, hr, hrs]
      rfl
    · rw [rewrites, rewrites, List.map_cons, List.map_cons, step_text, step_text, step_modes,
        step_modes, hmodes, htext, hrest]

end Lines

section Binary

structure Composes (o p : Offset Float) (w : Word Float) : Prop where
  finite_x : w.letter = 'X' → Binary.IsFinite (w.value + o.x)
  finite_y : w.letter = 'Y' → Binary.IsFinite (w.value + o.y)
  adds_x : w.letter = 'X' → AddsOn o.x p.x w.value
  adds_y : w.letter = 'Y' → AddsOn o.y p.y w.value

instance (o p : Offset Float) (w : Word Float) : Decidable (Composes o p w) :=
  decidable_of_iff ((w.letter = 'X' → Binary.IsFinite (w.value + o.x)) ∧
      (w.letter = 'Y' → Binary.IsFinite (w.value + o.y)) ∧
      (w.letter = 'X' → AddsOn o.x p.x w.value) ∧ (w.letter = 'Y' → AddsOn o.y p.y w.value))
    ⟨fun h ↦ ⟨h.1, h.2.1, h.2.2.1, h.2.2.2⟩,
      fun h ↦ ⟨h.finite_x, h.finite_y, h.adds_x, h.adds_y⟩⟩

variable {o p : Offset Float} {ts : List Text}

theorem Composes.of_keys {t : Text} {i : Nat} {l : Line Float} (hl : Line.readAt i t = .ok l)
    (h : Line.kindOf t = .code → ∀ w ∈ (Word.ofLine t : List (Word Float)), Composes o p w) :
    o.WritesDecimals l ∧ AddsOnAll o p l := by
  have hword : ∀ k ∈ l.keys, ∃ w : Word Float, w.key = k ∧ Composes o p w := by
    intro k hk
    obtain ⟨w, hw, rfl⟩ := List.mem_map.1 hk
    rw [(Line.readAt_fields hl).2.2.2] at hw
    split at hw
    next hcode => exact ⟨w, rfl, h hcode w hw⟩
    next => simp at hw
  constructor
  · refine FiniteSums.writesDecimals fun k hk d hd ↦ ?_
    obtain ⟨w, rfl, hw⟩ := hword k hk
    rcases of?_eq_some_iff.1 hd with ⟨hx, rfl⟩ | ⟨hy, rfl⟩
    · exact hw.finite_x hx
    · exact hw.finite_y hy
  · intro k hk d e hd he
    obtain ⟨w, rfl, hw⟩ := hword k hk
    rcases of?_eq_some_iff.1 hd with ⟨hx, rfl⟩ | ⟨hy, rfl⟩
    · rw [hx] at he
      obtain rfl : p.x = e := Option.some_inj.1 he
      exact hw.adds_x hx
    · rw [hy] at he
      obtain rfl : p.y = e := Option.some_inj.1 he
      exact hw.adds_y hy

/-- Shifting lines and shifting what is written once more writes, line for line, what one shift by
both amounts writes. -/
theorem shiftAll_shiftAll
    (h : ∀ t ∈ ts, Line.kindOf t = .code →
      ∀ w ∈ (Word.ofLine t : List (Word Float)), Composes o p w) :
    (o.shiftAll ts >>= p.shiftAll) = (o + p).shiftAll ts := by
  unfold shiftAll
  cases hread : (Line.readFrom 0 ts : Except LineFault (List (Line Float))) with
  | error e => rfl
  | ok ls =>
    have hl := Line.isRead_of_readFrom hread
    have hsums : ∀ l ∈ ls, o.WritesDecimals l ∧ AddsOnAll o p l := by
      intro l hm
      obtain ⟨t, ht, j, hj⟩ := Line.exists_text_of_mem hread hm
      exact Composes.of_keys hj (h t ht)
    obtain ⟨rs, hrs, htexts⟩ := exists_readFrom_rewrites hl (fun l hm ↦ (hsums l hm).1)
      (fun l hm ↦ (hsums l hm).2) {} 0
    change (Line.readFrom 0 ((o.rewrites {} ls).map Copy.text)).map _ = _
    rw [hrs]
    exact congrArg Except.ok htexts

def switching : List Text :=
  ["n5g1x1.5(X9)Y-2 Z3;x1", "(X1)", "", "G91 X4", "X5Y5", "G90 G53 X1", "T7 m6", "X.25 y-3 x1."].map
    String.toList

def switched : List Text :=
  ["n5g1X14.000(X9)Y-2.750 Z3;x1", "(X1)", "", "G91 X4", "X5Y5", "G90 G53 X1", "T7 m6",
    "X12.750 Y-3.750 X13.500"].map String.toList

theorem shiftAll_shiftAll_switching :
    (∀ t ∈ switching, Line.kindOf t = .code → ∀ w ∈ (Word.ofLine t : List (Word Float)),
      Composes ⟨10, 0.5⟩ ⟨2.5, -1.25⟩ w) ∧
    ((⟨10, 0.5⟩ : Offset Float).shiftAll switching >>= Offset.shiftAll ⟨2.5, -1.25⟩) =
      (⟨10, 0.5⟩ + ⟨2.5, -1.25⟩ : Offset Float).shiftAll switching ∧
    ((⟨10, 0.5⟩ + ⟨2.5, -1.25⟩ : Offset Float).shiftAll switching).toOption = some switched := by
  have h : ∀ t ∈ switching, Line.kindOf t = .code → ∀ w ∈ (Word.ofLine t : List (Word Float)),
      Composes ⟨10, 0.5⟩ ⟨2.5, -1.25⟩ w := by decide +kernel
  exact ⟨h, shiftAll_shiftAll h, by decide +kernel⟩

end Binary

end Offset

end StepAndRepeat
