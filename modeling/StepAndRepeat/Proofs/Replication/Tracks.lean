import StepAndRepeat.Proofs.Extent.Track
import StepAndRepeat.Proofs.Number.Exact
import StepAndRepeat.Proofs.Replication.Modal

namespace StepAndRepeat

namespace Line

variable {α : Type} [Coordinate α]

omit [Coordinate α] in
theorem axis?_eq (l : Line α) (a : Axis) :
    l.axis? a = (l.keys.find? (·.1 = a.letter)).map (·.2) := l.value?_eq a.letter

theorem act_of_alike {l r : Line α} (h : l.Alike r) (a : Axis) : r.act a = l.act a := by
  have hg := values_of_keys h.keys 'G'
  have hmove : r.isMachineMove = l.isMachineMove := has_of_values hg 53
  rw [act, act, setByCodes_newDistance.of_alike h, setByCodes_newMotion.of_alike h, h.kind, hmove,
    axis?_eq, axis?_eq, h.keys]

theorem isIdle_act {l : Line α} (h : ∀ k ∈ l.keys, k.1 ∉ ['G', 'X', 'Y', 'Z']) (a : Axis) :
    (l.act a).isIdle = true := by
  have hg : l.values 'G' = [] := values_eq_nil.2 fun k hk he ↦ h k hk (by simp [he])
  have ha : l.axis? a = none := by
    rw [axis?_eq, Option.map_eq_none_iff, List.find?_eq_none]
    intro k hk he
    refine h k hk ?_
    rw [of_decide_eq_true he]
    cases a <;> decide
  simp [act, Act.isIdle, setByCodes_newDistance.unset hg, setByCodes_newMotion.unset hg, ha]

theorem isIdle_act_of_not_isCode {l : Line α} (h : l.isCode = false) (a : Axis) :
    (l.act a).isIdle = true := by
  have hk : l.kind ≠ .code := fun hk ↦ by simp [isCode, hk] at h
  simp [act, Act.isIdle, setByCodes_newDistance.ofCode hk, setByCodes_newMotion.ofCode hk, hk]

def actOf (a : Axis) (t : Text) : Act α :=
  match readAt 0 t with
  | .ok l => l.act a
  | .error _ => {}

theorem actOf_eq {i : Nat} {t : Text} {l : Line α} (h : readAt i t = .ok l) (a : Axis) :
    actOf a t = l.act a := by
  rw [actOf, readAt_zero h]
  rfl

theorem map_act_readFrom {i : Nat} {ts : List Text} {ls : List (Line α)}
    (h : readFrom i ts = .ok ls) (a : Axis) : ls.map (act a) = ts.map (actOf a) :=
  map_readFrom (fun hl ↦ (actOf_eq hl a).symm) h

end Line

namespace Offset

def on (o : Offset ℝ) : Axis → ℝ
  | .x => o.x
  | .y => o.y
  | .z => 0

def ReadsBack (o : Offset ℝ) (l : Line ℝ) : Prop :=
  ∀ k ∈ l.keys, ∀ d, o.of? k.1 = some d →
    Coordinate.ofNumeral (.ofText (Coordinate.fixed 3 (k.2 + d))) = k.2 + d

variable {o : Offset ℝ}

theorem readsBack_of_whole {l : Line ℝ} (hx : ∃ m, o.x = whole m) (hy : ∃ m, o.y = whole m)
    (hl : ∀ k ∈ l.keys, ∃ n, k.2 = whole n) : o.ReadsBack l := by
  intro k hk d hd
  obtain ⟨n, hn⟩ := hl k hk
  obtain ⟨m, hm⟩ : ∃ m, d = whole m := by
    unfold of? at hd
    split at hd
    · exact Option.some_inj.1 hd ▸ hx
    · split at hd
      · exact Option.some_inj.1 hd ▸ hy
      · cases hd
  rw [hn, hm]
  exact ofNumeral_fixed_whole n m

theorem writesDecimals (l : Line ℝ) : o.WritesDecimals l := fun k _ d _ ↦
  decimal_fixed_real (k.2 + d)

theorem shiftKey_snd {l : Line ℝ} (ho : o.ReadsBack l) {k : Char × ℝ} (hk : k ∈ l.keys)
    {a : Axis} (ha : k.1 = a.letter) : (o.shiftKey k).2 = k.2 + o.on a := by
  cases a with
  | x =>
    have hd : o.of? k.1 = some o.x := by rw [ha]; rfl
    rw [shiftKey, hd]
    exact ho k hk o.x hd
  | y =>
    have hd : o.of? k.1 = some o.y := by rw [ha]; rfl
    rw [shiftKey, hd]
    exact ho k hk o.y hd
  | z =>
    have hd : o.of? k.1 = none := by rw [ha]; rfl
    rw [shiftKey, hd]
    exact (add_zero k.2).symm

theorem axis?_of_shifted {l r : Line ℝ} (h : r.keys = l.keys.map o.shiftKey) (ho : o.ReadsBack l)
    (a : Axis) : r.axis? a = (l.axis? a).map (· + o.on a) := by
  rw [Line.axis?_eq, Line.axis?_eq, h, List.find?_map]
  have hf : (fun k ↦ decide (k.1 = a.letter)) ∘ o.shiftKey =
      fun k : Char × ℝ ↦ decide (k.1 = a.letter) := by
    funext k
    rw [Function.comp_apply, shiftKey_fst]
  rw [hf]
  cases hk : l.keys.find? fun k ↦ decide (k.1 = a.letter) with
  | none => rfl
  | some k =>
    have hd := List.find?_some hk
    have ha : k.1 = a.letter := of_decide_eq_true hd
    rw [Option.map_some, Option.map_some, Option.map_some, Option.map_some,
      shiftKey_snd ho (List.mem_of_find?_eq_some hk) ha]

theorem shift_act_of_not_applies {m : Modes} (hm : m.distance = .absolute) {l : Line ℝ}
    (h : applies m l = false) (a : Axis) : (l.act a).shift (o.on a) = l.act a := by
  have hv : (l.act a).value.map (· + o.on a) = (l.act a).value := by
    by_cases hk : l.kind = .code ∧ l.isMachineMove = false
    · have hxy : l.hasXY = false := by
        simpa [applies, hm, hk.1, hk.2] using h
      simp only [Line.hasXY, Bool.or_eq_false_iff, Option.isSome_eq_false_iff,
        Option.isNone_iff_eq_none] at hxy
      have ha : (l.act a).value = l.axis? a := if_pos hk
      rw [ha]
      cases a with
      | x => exact congrArg _ hxy.1 |>.trans hxy.1.symm
      | y => exact congrArg _ hxy.2 |>.trans hxy.2.symm
      | z =>
        have hz : (fun v : ℝ ↦ v + o.on .z) = id := funext add_zero
        rw [hz, Option.map_id_fun, id]
    · have ha : (l.act a).value = none := if_neg hk
      rw [ha, Option.map_none]
  rw [Act.shift, hv]

theorem not_isMachineMove_of_applies {α : Type} [Coordinate α] {m : Modes} {l : Line α}
    (h : applies m l = true) : l.isMachineMove = false := by
  simp only [applies, Bool.and_eq_true, Bool.not_eq_true'] at h
  exact h.1.2

/-- A copied line read again does what its line does, moved by the shift. -/
theorem act_copyText {m : Modes} (hm : m.distance = .absolute) {l : Line ℝ} (hl : l.IsRead)
    (ho : applies m l = true → o.ReadsBack l) {i : Nat} {r : Line ℝ}
    (hr : Line.readAt i (o.copyText m l) = .ok r) (a : Axis) :
    r.act a = (l.act a).shift (o.on a) := by
  rcases o.copyText_cases m l with ⟨ha, ht⟩ | ⟨ha, -, -⟩
  · rw [shift_act_of_not_applies hm ha]
    exact Line.act_of_alike (hl.alike (ht ▸ hr)) a
  · obtain ⟨hkind, hkeys⟩ := read_copyText hl (writesDecimals l) hr
    rw [if_pos ha] at hkeys
    have hg : r.values 'G' = l.values 'G' := values_of_shifted hkeys (by decide) (by decide)
    have hmove : r.isMachineMove = l.isMachineMove := Line.has_of_values hg 53
    rw [Line.act, Line.act, Act.shift, setByCodes_newDistance.same hkind hg,
      setByCodes_newMotion.same hkind hg, hkind, hmove, axis?_of_shifted hkeys (ho ha)]
    congr 1
    dsimp only
    split <;> rfl

end Offset

section Stretches

noncomputable def Stretch.acts (a : Axis) : Stretch ℝ → List (Act ℝ)
  | note _ => []
  | verbatim ls => ls.map (Line.act a)
  | block b => (b.lines.map (Line.act a)).map (Act.shift (b.cell.offset.on a))

/-- The lines of a block can be read again, are all absolute, and lose nothing with their spindle
stops. -/
structure Block.IsTame (b : Block ℝ) : Prop where
  isSound : ∀ l ∈ b.lines, l.IsSound
  absolute : ∀ l ∈ b.read, l.newDistance? ≠ some .incremental
  stops : ∀ l ∈ b.lines, l.isSpindleStop = true → ∀ a, (l.act a).isIdle = true
  readsBack : ∀ l ∈ b.lines, l.isMachineMove = false → b.cell.offset.ReadsBack l

variable {b : Block ℝ}

theorem Modes.through_absolute_of {m : Modes} (hm : m.distance = .absolute) {ls : List (Line ℝ)}
    (h : ∀ l ∈ ls, l.newDistance? ≠ some .incremental) : (m.through ls).distance = .absolute := by
  induction ls generalizing m with
  | nil => exact hm
  | cons l ls ih =>
    refine ih ?_ fun k hk ↦ h k (by simp [hk])
    rw [Modes.read_distance, hm]
    cases hd : l.newDistance? with
    | none => rfl
    | some d =>
      cases d with
      | absolute => rfl
      | incremental => exact absurd hd (h l (by simp))

theorem Block.IsTame.actOf_text (hb : b.IsTame) {c : Copy ℝ} (hc : c ∈ b.copies) (a : Axis) :
    Line.actOf a c.text = (c.line.act a).shift (b.cell.offset.on a) := by
  obtain ⟨hl, ps, ks, hps, ht⟩ := Block.mem_copies hc
  obtain ⟨r, hr⟩ := Line.exists_readAt 0 c.text
  have hm : (Modes.through {} (b.before ++ ps ++ [c.line])).distance = .absolute := by
    refine Modes.through_absolute_of rfl fun l hl ↦ hb.absolute l ?_
    rw [Block.read, hps]
    simp only [List.mem_append, List.mem_cons, List.not_mem_nil, or_false] at hl ⊢
    tauto
  rw [Line.actOf_eq hr]
  exact Offset.act_copyText hm (hb.isSound _ hl).1
    (fun h ↦ hb.readsBack _ hl (Offset.not_isMachineMove_of_applies h)) (ht ▸ hr) a

theorem filter_map_filter {β γ : Type} {p : β → Bool} {q : γ → Bool} {f : β → γ} {bs : List β}
    (h : ∀ b ∈ bs, p b = false → q (f b) = false) :
    ((bs.filter p).map f).filter q = (bs.map f).filter q := by
  rw [List.filter_map, List.filter_map, List.filter_filter]
  congr 1
  apply List.filter_congr
  intro b hb
  cases hp : p b with
  | true => rw [Bool.and_true]
  | false => rw [Function.comp_apply, h b hb hp, Bool.false_and]

theorem Act.isIdle_shift (d : ℝ) (a : Act ℝ) : (a.shift d).isIdle = a.isIdle := by
  rw [isIdle, shift, Option.isNone_map]
  rfl

theorem Block.IsTame.filter_copies (hb : b.IsTame) (a : Axis) :
    (b.copies.map fun c ↦ Line.actOf a c.text).filter (fun a ↦ !a.isIdle) =
      ((Stretch.block b).acts a).filter fun a ↦ !a.isIdle := by
  have htext : (b.copies.map fun c ↦ Line.actOf a c.text) =
      b.copies.map fun c ↦ (c.line.act a).shift (b.cell.offset.on a) :=
    List.map_congr_left fun c hc ↦ hb.actOf_text hc a
  have hacts : (Stretch.block b).acts a =
      (b.cell.offset.rewrites (Modes.through {} b.before) b.lines).map
        fun c ↦ (c.line.act a).shift (b.cell.offset.on a) := by
    conv_lhs => rw [Stretch.acts, ← b.cell.offset.map_line_rewrites (Modes.through {} b.before)
      b.lines, List.map_map, List.map_map]
    rfl
  rw [htext, hacts, ← filter_map_filter (p := fun c ↦ c.line.isCode), Block.copies,
    Replay.code_lines, filter_map_filter]
  · intro c hc hp
    rw [Act.isIdle_shift, Bool.not_eq_false']
    cases hcode : c.line.isCode with
    | false => exact Line.isIdle_act_of_not_isCode hcode a
    | true =>
      rw [hcode, Bool.true_and, Bool.not_eq_false', Bool.and_eq_true] at hp
      exact hb.stops c.line (b.cell.offset.line_mem hc) hp.2 a
  · intro c _ hp
    rw [Act.isIdle_shift, Line.isIdle_act_of_not_isCode hp a]
    rfl

end Stretches

end StepAndRepeat
