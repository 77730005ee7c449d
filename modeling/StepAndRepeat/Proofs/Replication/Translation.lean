import StepAndRepeat.Proofs.Replication.Structure
import StepAndRepeat.Proofs.Replication.Tracks

namespace StepAndRepeat

section Codes

variable {α : Type} [Coordinate α] {l r : Line α}

namespace Offset

variable {o : Offset α}

theorem read_copyText_same {m : Modes} (hl : l.IsRead) (ho : o.WritesDecimals l) {i : Nat}
    (hr : Line.readAt i (o.copyText m l) = .ok r) :
    r.kind = l.kind ∧ r.values 'G' = l.values 'G' ∧
      r.words.map Word.letter = l.words.map Word.letter := by
  obtain ⟨hkind, hkeys⟩ := read_copyText hl ho hr
  refine ⟨hkind, ?_⟩
  split at hkeys
  · exact ⟨values_of_shifted hkeys (by decide) (by decide), letters_of_shifted hkeys⟩
  · refine ⟨Line.values_of_keys hkeys 'G', ?_⟩
    rw [Line.map_letter_eq, Line.map_letter_eq, hkeys]

end Offset

end Codes

section Placed

variable {α : Type} [Coordinate α]

def Line.places (m : Modes) (a : Axis) (l : Line α) : Bool :=
  l.isCode && !l.isMachineMove && decide ((m.read l).distance = .absolute) && (l.axis? a).isSome

def placed (a : Axis) (m : Modes) : List (Line α) → Bool
  | [] => false
  | l :: ls => l.places m a || placed a (m.read l) ls

theorem Line.places_eq (m : Modes) (a : Axis) (l : Line α) :
    l.places m a = (decide ((m.read l).distance = .absolute) && (l.act a).value.isSome) := by
  rw [places, act, isCode]
  by_cases hk : l.kind = .code
  · cases hm : l.isMachineMove with
    | true => simp
    | false => simp [hk]
  · simp [hk]

end Placed

namespace Survey

section Step

variable {α : Type} [Circular α]

def cuts (m : Modes) (l : Line α) : Bool :=
  l.isCode && !l.isMachineMove && (m.motion.isCutting && l.hasAxisWord)

def arcs (m : Modes) (l : Line α) : Bool :=
  l.isCode && !l.isMachineMove && (m.motion.isArc && l.hasArcCenter)

theorem cuttingMoves_step (s : Survey α) (l : Line α) :
    (s.step l).cuttingMoves =
      s.cuttingMoves + if cuts (s.modes.read l) l then 1 else 0 := by
  unfold step cuts Modes.read Line.isCode
  by_cases hk : l.kind = .code
  · cases l.isMachineMove <;> simp [hk]
  · simp [hk]

theorem arcMoves_step (s : Survey α) (l : Line α) :
    (s.step l).arcMoves = s.arcMoves + if arcs (s.modes.read l) l then 1 else 0 := by
  unfold step arcs Modes.read Line.isCode
  by_cases hk : l.kind = .code
  · cases l.isMachineMove <;> simp [hk]
  · simp [hk]

end Step

/-- A survey that has come as far as another one, moved by a shift along the axes of a kind. -/
structure Translated (o : Offset ℝ) (along : Axis → Bool) (s s' : Survey ℝ) : Prop where
  modes : s'.modes = s.modes
  cuttingMoves : s'.cuttingMoves = s.cuttingMoves
  arcMoves : s'.arcMoves = s.arcMoves
  position : ∀ a, s'.position.on a = s.position.on a + if along a then o.on a else 0

variable {o : Offset ℝ} {along : Axis → Bool} {s s' : Survey ℝ}

theorem Translated.start (o : Offset ℝ) : Translated o (fun _ ↦ false) start start where
  modes := rfl
  cuttingMoves := rfl
  arcMoves := rfl
  position _ := by simp

/-- A shifted coordinate leads to a shifted place, and a step leads from it to a shifted place. -/
theorem moved_translated (d : Distance) (x c : ℝ) (b : Bool) (v : Option ℝ) :
    Position.moved d (x + if b then c else 0)
        (if d = .absolute then v.map (· + c) else v) =
      Position.moved d x v +
        if b || (decide (d = .absolute) && v.isSome) then c else 0 := by
  cases v with
  | none => cases d <;> simp [Position.moved]
  | some v =>
    cases d with
    | absolute => simp [Position.moved]
    | incremental =>
      simp only [Position.moved, reduceCtorEq, if_false, decide_false, Bool.false_and,
        Bool.or_false]
      exact add_right_comm x _ v

theorem Translated.step (h : Translated o along s s') {l r : Line ℝ} (hl : l.IsRead)
    (ho : Offset.applies (s.modes.read l) l = true → o.ReadsBack l) {i : Nat}
    (hr : Line.readAt i (o.copyText (s.modes.read l) l) = .ok r) :
    Translated o (fun a ↦ along a || l.places s.modes a) (s.step l) (s'.step r) := by
  obtain ⟨hkind, hg, hlet⟩ := Offset.read_copyText_same hl (Offset.writesDecimals l) hr
  have hmodes : s'.modes.read r = s.modes.read l := by
    rw [h.modes, Modes.read_of_values hkind hg]
  have hmachine : r.isMachineMove = l.isMachineMove := Line.has_of_values hg 53
  have hcode : r.isCode = l.isCode := by rw [Line.isCode, Line.isCode, hkind]
  -- steps are copied as they are, and positions are shifted
  have hact (a : Axis) : (r.act a).value =
      if (s.modes.read l).distance = .absolute then (l.act a).value.map (· + o.on a)
      else (l.act a).value := by
    split
    next hd => rw [Offset.act_copyText hd hl ho hr a, Act.shift]
    next hd =>
      have hi : (s.modes.read l).distance = .incremental := by
        cases hc : (s.modes.read l).distance with
        | absolute => exact absurd hc hd
        | incremental => rfl
      rw [Offset.copyText_of_incremental o hi] at hr
      rw [Line.act_of_alike (hl.alike hr) a]
  refine ⟨?_, ?_, ?_, fun a ↦ ?_⟩
  · rw [modes_step, modes_step, hmodes]
  · rw [cuttingMoves_step, cuttingMoves_step, hmodes, h.cuttingMoves, cuts, cuts, hcode, hmachine,
      Line.hasAxisWord_of_letters hlet]
  · rw [arcMoves_step, arcMoves_step, hmodes, h.arcMoves, arcs, arcs, hcode, hmachine,
      Line.hasArcCenter_of_letters hlet]
  · rw [position_step, position_step, hmodes, hact, h.position, Line.places_eq]
    exact moved_translated _ _ _ _ _

end Survey

namespace Offset

variable {o : Offset ℝ}

def ReadsBackAll (o : Offset ℝ) (m : Modes) : List (Line ℝ) → Prop
  | [] => True
  | l :: ls => (applies (m.read l) l = true → o.ReadsBack l) ∧ o.ReadsBackAll (m.read l) ls

/-- Lines, and what is written for them. -/
theorem translated_foldl {along : Axis → Bool} {s s' : Survey ℝ}
    (h : Survey.Translated o along s s') {i j : Nat} {ts : List Text} {ls rs : List (Line ℝ)}
    (hl : Line.readFrom i ts = .ok ls) (ho : o.ReadsBackAll s.modes ls)
    (hr : Line.readFrom j ((o.rewrites s.modes ls).map Copy.text) = .ok rs) (n : Nat) :
    Survey.Translated o (fun a ↦ along a || placed a s.modes (ls.take n))
      ((ls.take n).foldl Survey.step s) ((rs.take n).foldl Survey.step s') := by
  induction n generalizing along s s' i j ts ls rs with
  | zero => simpa [placed] using h
  | succ n ih =>
    cases ts with
    | nil =>
      cases Except.ok.inj hl
      cases Except.ok.inj hr
      simpa [placed] using h
    | cons t ts =>
      obtain ⟨l, ls, hl₀, hls, rfl⟩ := Line.readFrom_cons hl
      obtain ⟨r, rs, hr₀, hrs, rfl⟩ := Line.readFrom_cons hr
      have hs := h.step (Line.isRead_of_readAt hl₀) ho.1 hr₀
      have hm : (s.step l).modes = s.modes.read l := Survey.modes_step s l
      rw [step_modes, ← hm] at hrs
      have hn := ih hs hls (hm ▸ ho.2) hrs
      rw [hm] at hn
      simpa only [List.take_succ_cons, List.foldl_cons, placed, Bool.or_assoc] using hn

/-- The lines written for a copy run the tool as the lines do, moved by the shift. -/
theorem survey_rewrites {i : Nat} {ts : List Text} {ls : List (Line ℝ)}
    (hl : Line.readFrom i ts = .ok ls) (ho : o.ReadsBackAll {} ls) :
    ∃ rs, Line.readFrom i ((o.rewrites {} ls).map Copy.text) = .ok rs ∧
      rs.length = ls.length ∧
      ∀ n, ∀ s s' : Survey ℝ, s = Survey.run (ls.take n) → s' = Survey.run (rs.take n) →
        s'.modes = s.modes ∧ s'.position.z = s.position.z ∧
        s'.cuttingMoves = s.cuttingMoves ∧ s'.arcMoves = s.arcMoves ∧
        (s'.position.x = if placed .x {} (ls.take n) then s.position.x + o.x
          else s.position.x) ∧
        (s'.position.y = if placed .y {} (ls.take n) then s.position.y + o.y
          else s.position.y) := by
  obtain ⟨rs, hr⟩ := Line.exists_readFrom i ((o.rewrites {} ls).map Copy.text)
  refine ⟨rs, hr, ?_, ?_⟩
  · have hlen := (Line.forall₂_readFrom hr).length_eq
    rw [List.length_map, ← List.length_map Copy.line, map_line_rewrites] at hlen
    exact hlen.symm
  · rintro n s s' rfl rfl
    have h : Survey.Translated o (fun a ↦ placed a {} (ls.take n)) (Survey.run (ls.take n))
        (Survey.run (rs.take n)) :=
      translated_foldl (Survey.Translated.start o) hl ho hr n
    have haxis (a : Axis) : (Survey.run (rs.take n)).position.on a =
        if placed a {} (ls.take n) then (Survey.run (ls.take n)).position.on a + o.on a
        else (Survey.run (ls.take n)).position.on a := by
      rw [h.position]
      split
      · rfl
      · exact add_zero _
    have hz := h.position .z
    rw [on, ite_self, add_zero] at hz
    exact ⟨h.modes, hz, h.cuttingMoves, h.arcMoves, haxis .x, haxis .y⟩

noncomputable section

def mixedLines : List (Line ℝ) :=
  [⟨0, "G1 X1".toList, .code, [⟨'G', whole 1, 0, 2⟩, ⟨'X', whole 1, 3, 5⟩], none⟩,
    ⟨1, "G91 X2 Y3".toList, .code,
      [⟨'G', whole 91, 0, 3⟩, ⟨'X', whole 2, 4, 6⟩, ⟨'Y', whole 3, 7, 9⟩], none⟩,
    ⟨2, "G90 Y4".toList, .code, [⟨'G', whole 90, 0, 3⟩, ⟨'Y', whole 4, 4, 6⟩], none⟩]

theorem readFrom_mixedLines :
    Line.readFrom 0 (mixedLines.map Line.text) = .ok mixedLines := by rfl

theorem readsBackAll_of_whole {m : Modes} {ls : List (Line ℝ)} (hx : ∃ m, o.x = whole m)
    (hy : ∃ m, o.y = whole m) (hl : ∀ l ∈ ls, ∀ k ∈ l.keys, ∃ n, k.2 = whole n) :
    o.ReadsBackAll m ls := by
  induction ls generalizing m with
  | nil => trivial
  | cons l ls ih =>
    exact ⟨fun _ ↦ readsBack_of_whole hx hy (hl l (by simp)), ih fun k hk ↦ hl k (by simp [hk])⟩

theorem survey_rewrites_mixedLines :
    ∃ rs, Line.readFrom 0 (((⟨whole 10, whole 20⟩ : Offset ℝ).rewrites {} mixedLines).map
        Copy.text) = .ok rs ∧
      (Survey.run rs).position.x = (Survey.run mixedLines).position.x + whole 10 ∧
      (Survey.run (rs.take 2)).position.y = (Survey.run (mixedLines.take 2)).position.y ∧
      (Survey.run rs).position.y = (Survey.run mixedLines).position.y + whole 20 := by
  have hw : ∀ l ∈ mixedLines, ∀ k ∈ l.keys, ∃ n, k.2 = whole n := by
    simp [mixedLines, Line.keys, Word.key]
  obtain ⟨rs, hr, hlen, h⟩ := survey_rewrites readFrom_mixedLines
    (readsBackAll_of_whole (o := ⟨whole 10, whole 20⟩) ⟨10, rfl⟩ ⟨20, rfl⟩ hw)
  have hn : rs.take 3 = rs := List.take_of_length_le hlen.le
  obtain ⟨-, -, -, -, -, hy₂⟩ := h 2 _ _ rfl rfl
  obtain ⟨-, -, -, -, hx, hy⟩ := h 3 _ _ rfl rfl
  rw [hn] at hx hy
  refine ⟨rs, hr, hx.trans (if_pos ?_), hy₂.trans (if_neg ?_), hy.trans (if_pos ?_)⟩ <;>
    simp [mixedLines, placed, Line.places, Line.isCode, Line.isMachineMove, Line.has,
      Word.isCode_whole, Modes.read, Modes.after, Line.distance?, Line.axis?, Line.value?,
      Axis.letter]

end

end Offset

end StepAndRepeat
