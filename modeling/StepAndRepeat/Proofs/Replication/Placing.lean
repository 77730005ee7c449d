import StepAndRepeat.Proofs.Replication.Incremental
import StepAndRepeat.Proofs.Replication.Tracks

namespace StepAndRepeat

open Assembly

def Line.IsCut {α : Type} [Coordinate α] (ls : List (Line α)) (l : Line α) : Prop :=
  l.kind = .code ∧ l.isMachineMove = false ∧ (sourceModes ls l).motion.isCutting = true

instance {α : Type} [Coordinate α] (ls : List (Line α)) (l : Line α) : Decidable (l.IsCut ls) :=
  inferInstanceAs (Decidable (_ ∧ _ ∧ _))

/-- A program, as lines and as segments, that places the tool itself. -/
structure SelfPlacing {α : Type} [Coordinate α] (ls : List (Line α)) (ss : List (Segment α)) :
    Prop where
  tooled_ne_nil : Segment.tooled ss ≠ []
  noSteps : ∀ l ∈ ls, l.has 'G' 91 = false
  noArcs : ∀ l ∈ ls, l.has 'G' 2 = false ∧ l.has 'G' 3 = false
  header : ∀ s ∈ ss, s.isHeader = true → ∀ l ∈ s.lines, l.IsCut ls → l.x? = none ∧ l.y? = none
  placed : ∀ s ∈ ss, s.isHeader = false → ∀ l,
    s.lines.find? (fun l ↦ l.hasXY && !l.isMachineMove) = some l →
      l.x?.isSome = true ∧ l.y?.isSome = true ∧ l.has 'G' 0 = true ∧ l.has 'G' 1 = false
  bare : ∀ l ∈ ls, l.isSpindleStop = true ∨ l.isToolChange = true →
    ∀ w ∈ l.words, w.letter ∉ ['G', 'X', 'Y', 'Z']
  ends : ∀ l ∈ ls, l.isProgramEnd = true → ∀ w ∈ l.words, w.letter = 'N' ∨ w.isProgramEnd = true

namespace Segment

variable {α : Type}

theorem mem_split_of_mem_header {ls : List (Line α)} {l : Line α} (h : l ∈ (cut ls).1) :
    (⟨none, (cut ls).1⟩ : Segment α) ∈ split ls := by
  have hne : (cut ls).1 ≠ [] := List.ne_nil_of_mem h
  rw [split, List.flatMap_cons]
  exact List.mem_append_left _ (mem_close.2 ⟨rfl, hne⟩)

theorem mem_split_of_mem_tools {ls : List (Line α)} {t : Int × Segment α} (h : t ∈ tools ls) :
    t.2 ∈ split ls ∧ t.2.isHeader = false := by
  rw [tools, tooled, List.mem_filterMap] at h
  obtain ⟨s, hs, h⟩ := h
  obtain ⟨n, hn, rfl⟩ := Option.map_eq_some_iff.1 h
  refine ⟨?_, by simp [isHeader, hn]⟩
  rw [split, List.flatMap_cons]
  exact List.mem_append_right _ hs

end Segment

namespace SelfPlacing

section Acts

variable {α : Type} [Coordinate α] {ls : List (Line α)} {ss : List (Segment α)}

theorem isStraight_act (hp : SelfPlacing ls ss) {l : Line α} (hl : l ∈ ls) (a : Axis) :
    (l.act a).IsStraight := by
  obtain ⟨h₂, h₃⟩ := hp.noArcs l hl
  refine ⟨?_, fun m hm ↦ ?_⟩
  · simp only [Line.act, Line.newDistance?, Line.distance?, hp.noSteps l hl, Bool.false_eq_true,
      ↓reduceIte]
    split
    · split <;> simp
    · simp
  · simp only [Line.act, Line.newMotion?, Line.motion?, h₂, h₃, Bool.false_eq_true,
      ↓reduceIte] at hm
    split at hm
    · split at hm
      · rw [← Option.some_inj.1 hm]
        rfl
      · split at hm
        · rw [← Option.some_inj.1 hm]
          rfl
        · cases hm
    · cases hm

theorem isIdle_act_of_letters {l : Line α} (h : ∀ w ∈ l.words, w.letter ∉ ['G', 'X', 'Y', 'Z'])
    (a : Axis) : (l.act a).isIdle = true := by
  refine Line.isIdle_act (fun k hk ↦ ?_) a
  obtain ⟨w, hw, rfl⟩ := List.mem_map.1 hk
  exact h w hw

theorem isIdle_act_of_isProgramEnd (hp : SelfPlacing ls ss) {l : Line α} (hl : l ∈ ls)
    (he : l.isProgramEnd = true) (a : Axis) : (l.act a).isIdle = true := by
  refine isIdle_act_of_letters (fun w hw ↦ ?_) a
  rcases hp.ends l hl he w hw with h | h
  · rw [h]
    decide
  · rw [Word.letter_of_isProgramEnd h]
    decide

def working (ls : List (Line α)) : List (Line α) := ls.filter fun l ↦ !l.isProgramEnd

theorem working_subset : working ls ⊆ ls := List.filter_sublist.subset

theorem filter_acts (hp : SelfPlacing ls ss) (a : Axis) :
    (ls.map (Line.act a)).filter (fun a ↦ !a.isIdle) =
      (((Segment.cut (working ls)).1 ++ (Segment.tools (working ls)).flatMap (·.2.lines)).map
        (Line.act a)).filter fun a ↦ !a.isIdle := by
  rw [← Segment.filter_not_isToolChange, filter_map_filter, working, filter_map_filter]
  · intro l hl he
    rw [hp.isIdle_act_of_isProgramEnd hl (by simpa using he) a]
    rfl
  · intro l hl ht
    have hb := hp.bare l (working_subset hl) (.inr (by simpa using ht))
    rw [isIdle_act_of_letters hb a]
    rfl

theorem steady (hp : SelfPlacing ls (Segment.split (working ls))) (hs : ∀ l ∈ ls, l.IsSound)
    {t : Int × Segment α} (ht : t ∈ Segment.tools (working ls)) {a : Axis} (ha : a ≠ .z) :
    Act.Steady (t.2.lines.map (Line.act a)) := by
  obtain ⟨hm, hh⟩ := Segment.mem_split_of_mem_tools ht
  have hsub : t.2.lines ⊆ ls := fun l hl ↦
    working_subset ((Segment.lines_infix ht).subset hl)
  have hnone {l : Line α} (h : (l.hasXY && !l.isMachineMove) = false) :
      (l.act a).value = none := by
    apply ite_eq_right_iff.2
    intro hk
    rw [hk.2, Bool.not_false, Bool.and_true] at h
    simp only [Line.hasXY, Bool.or_eq_false_iff, Option.isSome_eq_false_iff,
      Option.isNone_iff_eq_none] at h
    cases a with
    | x => exact h.1
    | y => exact h.2
    | z => exact absurd rfl ha
  cases hf : t.2.lines.find? fun l ↦ l.hasXY && !l.isMachineMove with
  | none =>
    apply Act.steady_of_unnamed
    intro b hb
    obtain ⟨l, hl, rfl⟩ := List.mem_map.1 hb
    exact hnone (by simpa using List.find?_eq_none.1 hf l hl)
  | some l =>
    obtain ⟨hx, hy, h₀, h₁⟩ := hp.placed t.2 hm hh l hf
    obtain ⟨hxy, ps, ks, hps, hbefore⟩ := List.find?_eq_some_iff_append.1 hf
    have hl : l ∈ ls := hsub (by simp [hps])
    obtain ⟨h₂, h₃⟩ := hp.noArcs l hl
    have hcode : l.kind = .code := by
      by_contra hk
      have hw := (Line.readAt_fields (hs l hl).1).2.2.2
      rw [← (hs l hl).1.kind_eq, if_neg hk] at hw
      simp [Line.x?, Line.value?, hw] at hx
    have hnot : l.isMachineMove = false := by
      rw [Bool.and_eq_true, Bool.not_eq_true'] at hxy
      exact hxy.2
    rw [hps, List.map_append, List.map_cons]
    refine Act.steady_of_placed (fun b hb ↦ ?_) ?_ ?_
    · obtain ⟨k, hk, rfl⟩ := List.mem_map.1 hb
      exact hnone (by simpa only [Bool.not_eq_true'] using hbefore k hk)
    · simp [Line.act, Line.newMotion?, hcode, Line.motion?, h₀, h₁, h₂, h₃]
    · have hv : (l.act a).value = l.axis? a := if_pos ⟨hcode, hnot⟩
      rw [hv]
      cases a with
      | x => exact hx
      | y => exact hy
      | z => exact absurd rfl ha

theorem carry_motion (m : Motion) (a : Axis) (ks : List (Line α)) :
    carry Act.motion m (ks.map (Line.act a)) = carry Line.newMotion? m ks := carry_map _ _ _

theorem value_eq_some {l : Line α} {a : Axis} (h : (l.act a).value.isSome = true) :
    l.kind = .code ∧ l.isMachineMove = false ∧ (l.axis? a).isSome = true := by
  by_cases hk : l.kind = .code ∧ l.isMachineMove = false
  · have hv : (l.act a).value = l.axis? a := if_pos hk
    exact ⟨hk.1, hk.2, hv ▸ h⟩
  · have hv : (l.act a).value = none := if_neg hk
    rw [hv] at h
    cases h

theorem trace_header (hp : SelfPlacing ls (Segment.split (working ls)))
    (hn : ls.map Line.index = List.range ls.length) {a : Axis} (ha : a ≠ .z) (p : α) :
    Act.trace .rapid p ((Segment.cut (working ls)).1.map (Line.act a)) = [] := by
  refine Act.trace_eq_nil_of_rapid (fun bs b cs hbs hv ↦ ?_) p
  obtain ⟨ps, qs, hhead, rfl, hqs⟩ := List.map_eq_append_iff.1 hbs
  obtain ⟨l, rest, rfl, rfl, rfl⟩ := List.map_eq_cons_iff.1 hqs
  obtain ⟨more, hmore⟩ := Segment.cut_isPrefix (working ls)
  rw [hhead, List.append_assoc, List.cons_append] at hmore
  have hmem : l ∈ (Segment.cut (working ls)).1 := by simp [hhead]
  -- Up to the line the program has the lines of the header, and program ends between them.
  obtain ⟨xs, ys, hls, hxs, hys⟩ := List.filter_eq_append_iff.1 hmore.symm
  obtain ⟨zs, ws, rfl, hzs, -, -⟩ := List.filter_eq_cons_iff.1 hys
  have hfilter : (xs ++ zs).filter (fun l ↦ !l.isProgramEnd) = ps := by
    rw [List.filter_append, hxs, List.filter_eq_nil_iff.2 hzs, List.append_nil]
  have hcarry : carry Line.newMotion? .rapid ps = carry Line.newMotion? .rapid (xs ++ zs) := by
    rw [← hfilter]
    refine carry_filter (fun k hk he ↦ ?_) _
    have hkl : k ∈ ls := by
      rw [hls, ← List.append_assoc]
      exact List.mem_append_left _ hk
    have hi := hp.isIdle_act_of_isProgramEnd hkl (by simpa using he) a
    simp only [Act.isIdle, Bool.and_eq_true, Option.isNone_iff_eq_none] at hi
    exact hi.1.2
  have htake : ls.take (l.index + 1) = (xs ++ zs) ++ [l] := by
    rw [hls, ← List.append_assoc] at hn ⊢
    exact Line.take_index_succ hn
  have hmodes : (sourceModes ls l).motion = carry Line.newMotion? .rapid (ps ++ [l]) := by
    rw [sourceModes, Modes.through_motion, htake, carry_append _ _ (xs ++ zs), ← hcarry,
      carry_append]
  rw [← List.map_singleton, ← List.map_append, carry_motion, ← hmodes]
  by_contra hcut
  rw [Bool.not_eq_false] at hcut
  obtain ⟨hcode, hnot, hs⟩ := value_eq_some hv
  obtain ⟨hx, hy⟩ := hp.header _ (Segment.mem_split_of_mem_header hmem) rfl l hmem
    ⟨hcode, hnot, hcut⟩
  cases a with
  | x => exact absurd hs (by rw [show l.axis? .x = l.x? from rfl, hx]; simp)
  | y => exact absurd hs (by rw [show l.axis? .y = l.y? from rfl, hy]; simp)
  | z => exact absurd rfl ha

/-- A cut that names an axis gathers something along it. -/
theorem trace_ne_nil_of_isCut (hn : ls.map Line.index = List.range ls.length) {l : Line α}
    (hl : l ∈ ls) (hc : l.IsCut ls) {a : Axis} (ha : (l.axis? a).isSome = true) (p : α) :
    Act.trace .rapid p (ls.map (Line.act a)) ≠ [] := by
  obtain ⟨ps, ks, rfl⟩ := List.append_of_mem hl
  obtain ⟨hcode, hnot, hcut⟩ := hc
  have hv : (l.act a).value = l.axis? a := if_pos ⟨hcode, hnot⟩
  rw [sourceModes, Modes.through_motion, Line.take_index_succ hn, ← carry_motion _ a,
    List.map_append, List.map_singleton] at hcut
  rw [List.map_append, List.map_cons]
  exact Act.trace_ne_nil rfl (hv ▸ ha) hcut p

theorem trace_eq (hp : SelfPlacing ls (Segment.split (working ls)))
    (hn : ls.map Line.index = List.range ls.length) (hs : ∀ l ∈ ls, l.IsSound) {a : Axis}
    (ha : a ≠ .z) (p : α) :
    Act.trace .rapid p (ls.map (Line.act a)) =
      (Segment.tools (working ls)).flatMap
        fun t ↦ Act.trace .rapid p (t.2.lines.map (Line.act a)) := by
  have hsteady : ∀ as ∈ (Segment.tools (working ls)).map fun t ↦ t.2.lines.map (Line.act a),
      Act.Steady as := by
    intro as has
    obtain ⟨t, ht, rfl⟩ := List.mem_map.1 has
    exact hp.steady hs ht ha
  have hflat : ((Segment.tools (working ls)).flatMap (·.2.lines)).map (Line.act a) =
      ((Segment.tools (working ls)).map fun t ↦ t.2.lines.map (Line.act a)).flatten := by
    rw [List.map_flatMap, List.flatMap_def]
  rw [Act.trace_eq_of_filter (hp.filter_acts a), List.map_append, Act.trace_append,
    hp.trace_header hn ha, List.nil_append, hflat, Act.trace_flatten hsteady, List.flatMap_map]
  apply List.flatMap_congr
  intro t ht
  exact hp.steady hs ht ha _ _ _ _

end Acts

end SelfPlacing

end StepAndRepeat
