import StepAndRepeat.Proofs.Machine.Carry
import StepAndRepeat.Proofs.Program.Grouping
import StepAndRepeat.Proofs.Program.Reading

namespace StepAndRepeat

variable {α : Type} [Coordinate α]

namespace Ending

/-- A line is what another becomes when its end words are taken out, however often. -/
inductive Cleans : Line α → Line α → Prop
  | refl (l : Line α) : Cleans l l
  | again {l r s : Line α} : Cleans l r → clean r = .ok [s] → Cleans l s

/-- Lines are what others become when end words are taken out and lines of no other words are
dropped. -/
inductive CleansAll : List (Line α) → List (Line α) → Prop
  | nil : CleansAll [] []
  | dropped {l r : Line α} {ls rs : List (Line α)} :
      Cleans l r → clean r = .ok [] → CleansAll ls rs → CleansAll (l :: ls) rs
  | kept {l r : Line α} {ls rs : List (Line α)} :
      Cleans l r → CleansAll ls rs → CleansAll (l :: ls) (r :: rs)

theorem clean_cases {l : Line α} {rs : List (Line α)} (h : clean l = .ok rs) :
    (l.isProgramEnd = false ∧ rs = [l]) ∨ (l.isProgramEnd = true ∧ strip l = none ∧ rs = []) ∨
      ∃ t r, l.isProgramEnd = true ∧ strip l = some t ∧ Line.readAt l.index t = .ok r ∧
        rs = [r] := by
  unfold clean at h
  split at h
  next he =>
    right
    cases hs : strip l with
    | none =>
      rw [hs] at h
      exact .inl ⟨he, rfl, (Except.ok.inj h).symm⟩
    | some t =>
      rw [hs] at h
      cases hr : (Line.readAt l.index t : Except LineFault (Line α)) with
      | error e => simp [hr, Except.map] at h
      | ok r =>
        simp only [hr, Except.map, Except.ok.injEq] at h
        exact .inr ⟨t, r, he, rfl, hr, h.symm⟩
  next he => exact .inl ⟨by simpa using he, (Except.ok.inj h).symm⟩

theorem index_of_mem_clean {l r : Line α} {rs : List (Line α)} (h : clean l = .ok rs)
    (hr : r ∈ rs) : r.index = l.index := by
  rcases clean_cases h with ⟨-, rfl⟩ | ⟨-, -, rfl⟩ | ⟨t, s, -, -, hs, rfl⟩
  · rw [List.mem_singleton.1 hr]
  · simp at hr
  · rw [List.mem_singleton.1 hr, (Line.readAt_fields hs).1]

theorem Cleans.index_eq {l r : Line α} (h : Cleans l r) : r.index = l.index := by
  induction h with
  | refl => rfl
  | again _ hs ih => rw [index_of_mem_clean hs (List.mem_singleton_self _), ih]

theorem Cleans.trans {l r s : Line α} (h : Cleans l r) (hs : Cleans r s) : Cleans l s := by
  induction hs with
  | refl => exact h
  | again _ hc ih => exact ih.again hc

theorem Cleans.trans_clean {l r : Line α} (h : Cleans l r) {rs : List (Line α)}
    (hr : clean r = .ok rs) :
    (clean r = .ok [] ∧ rs = []) ∨ ∃ s, rs = [s] ∧ Cleans l s := by
  rcases clean_cases hr with ⟨-, rfl⟩ | ⟨-, -, rfl⟩ | ⟨_, s, -, -, -, rfl⟩
  · exact .inr ⟨r, rfl, h⟩
  · exact .inl ⟨hr, rfl⟩
  · exact .inr ⟨s, rfl, h.again hr⟩

theorem subset_dropEndWhile (p : Char → Bool) (t : Text) : Text.dropEndWhile p t ⊆ t := by
  induction t with
  | nil => simp [Text.dropEndWhile]
  | cons c t ih =>
    intro d hd
    rw [Text.dropEndWhile] at hd
    split at hd
    · split at hd
      · simp at hd
      · simp [List.mem_singleton.1 hd]
    next e u he =>
      rcases List.mem_cons.1 hd with rfl | hd
      · simp
      · exact List.mem_cons_of_mem c (ih (he ▸ hd))

theorem subset_withoutEnds (ps : List LinePart) :
    withoutEnds α ps ⊆ ps.flatMap LinePart.text := by
  induction ps with
  | nil => simp [withoutEnds]
  | cons p ps ih =>
    intro c hc
    rw [withoutEnds] at hc
    rw [List.flatMap_cons, List.mem_append]
    split at hc
    · exact .inr (ih ((List.dropWhile_sublist _).subset hc))
    · exact (List.mem_append.1 hc).imp_right fun h ↦ ih h

theorem subset_of_strip {l : Line α} {t : Text} (h : strip l = some t) : t ⊆ l.text := by
  unfold strip at h
  split at h
  · rw [← Option.some_inj.1 h]
    intro c hc
    have hw := subset_withoutEnds _ (subset_dropEndWhile _ _ hc)
    rwa [LinePart.flatMap_text_ofLine] at hw
  · cases h

theorem Cleans.isSound {l r : Line α} (h : Cleans l r) (hl : l.IsSound) : r.IsSound := by
  induction h with
  | refl => exact hl
  | again _ hs ih =>
    rcases clean_cases hs with ⟨-, h⟩ | ⟨-, -, h⟩ | ⟨t, s, -, ht, hr, h⟩
    · rw [List.singleton_inj.1 h]
      exact ih
    · simp at h
    · rw [List.singleton_inj.1 h]
      exact Line.isSound_of_readAt (ih.2.mono (subset_of_strip ht)) hr

def Keeps {β : Type} (set? : Line α → Option β) (ls : List (Line α)) : Prop :=
  ∀ l ∈ ls, ∀ r, Cleans l r → set? r = set? l

/-- A line that is no program end, or has no other words, stays as it is or goes. -/
theorem Cleans.eq_of_plain {l r : Line α} (h : Cleans l r)
    (hl : l.isProgramEnd = false ∨ strip l = none) : r = l := by
  induction h with
  | refl => rfl
  | again _ hs ih =>
    rw [ih] at hs
    rcases clean_cases hs with ⟨-, h⟩ | ⟨-, -, h⟩ | ⟨t, s, he, ht, -, h⟩
    · exact List.singleton_inj.1 h
    · simp at h
    · simp [he, ht] at hl

theorem keeps_of_plain {β : Type} (set? : Line α → Option β) {ls : List (Line α)}
    (h : ∀ l ∈ ls, l.isProgramEnd = false ∨ strip l = none) : Keeps set? ls :=
  fun l hl _ hr ↦ congrArg set? (hr.eq_of_plain (h l hl))

theorem cleanAll_cons {l : Line α} {ls rs : List (Line α)} (h : cleanAll (l :: ls) = .ok rs) :
    ∃ ks rs', clean l = .ok ks ∧ cleanAll ls = .ok rs' ∧ rs = ks ++ rs' := by
  simp only [cleanAll, List.mapM_cons] at h ⊢
  cases hl : clean l with
  | error e => simp [hl, bind, Except.bind, Except.map] at h
  | ok ks =>
    cases hls : ls.mapM clean with
    | error e => simp [hl, hls, bind, Except.bind, Except.map] at h
    | ok kss =>
      simp only [hl, hls, bind, Except.bind, pure, Except.pure, Except.map, Except.ok.injEq,
        List.flatten_cons] at h
      exact ⟨ks, kss.flatten, rfl, rfl, h.symm⟩

theorem exists_of_mem_cleanAll {ls rs : List (Line α)} (h : cleanAll ls = .ok rs) {r : Line α}
    (hr : r ∈ rs) : ∃ l ∈ ls, ∃ ks, clean l = .ok ks ∧ r ∈ ks := by
  induction ls generalizing rs with
  | nil =>
    rw [← Except.ok.inj h] at hr
    simp at hr
  | cons l ls ih =>
    obtain ⟨ks, js, hl, hls, rfl⟩ := cleanAll_cons h
    rcases List.mem_append.1 hr with hr | hr
    · exact ⟨l, List.mem_cons_self, ks, hl, hr⟩
    · obtain ⟨k, hk, hks⟩ := ih hls hr
      exact ⟨k, List.mem_cons_of_mem l hk, hks⟩

/-- Program ends without other words go, and other lines stay. -/
theorem cleanAll_eq_filter {ls : List (Line α)}
    (h : ∀ l ∈ ls, l.isProgramEnd = true → ∀ w ∈ l.words, w.letter = 'N' ∨ w.isProgramEnd = true) :
    cleanAll ls = .ok (ls.filter fun l ↦ !l.isProgramEnd) := by
  induction ls with
  | nil => rfl
  | cons l ls ih =>
    have ih' := ih fun k hk ↦ h k (by simp [hk])
    have hclean : clean l = .ok ([l].filter fun l ↦ !l.isProgramEnd) := by
      cases he : l.isProgramEnd with
      | false => simp [clean, he]
      | true =>
        have hs : strip l = none := by
          rw [strip, if_neg]
          rw [Bool.not_eq_true, List.any_eq_false]
          intro w hw
          rcases h l (by simp) he w hw with hw | hw <;> simp [hw]
        simp [clean, he, hs]
    simp only [cleanAll] at ih'
    rw [cleanAll, List.mapM_cons, hclean]
    cases hls : ls.mapM clean with
    | error e => simp [hls, Except.map] at ih'
    | ok kss =>
      rw [hls] at ih'
      have hk : kss.flatten = ls.filter fun l ↦ !l.isProgramEnd := Except.ok.inj ih'
      have hcons : (l :: ls).filter (fun l ↦ !l.isProgramEnd) =
          [l].filter (fun l ↦ !l.isProgramEnd) ++ ls.filter fun l ↦ !l.isProgramEnd := by
        rw [← List.filter_append]
        rfl
      rw [hcons, ← hk]
      rfl

theorem cleanAll_of_open {ls : List (Line α)} (h : ∀ l ∈ ls, l.isProgramEnd = false) :
    cleanAll ls = .ok ls := by
  rw [cleanAll_eq_filter fun l hl he ↦ (by simp [h l hl] at he),
    List.filter_eq_self.2 fun l hl ↦ by rw [h l hl]; rfl]

theorem CleansAll.refl (ls : List (Line α)) : CleansAll ls ls := by
  induction ls with
  | nil => exact .nil
  | cons l ls ih => exact .kept (.refl l) ih

theorem CleansAll.trans_cleanAll {ls ks rs : List (Line α)} (h : CleansAll ls ks)
    (hr : cleanAll ks = .ok rs) : CleansAll ls rs := by
  induction h generalizing rs with
  | nil =>
    rw [← Except.ok.inj hr]
    exact .nil
  | dropped hl hn _ ih => exact .dropped hl hn (ih hr)
  | kept hl _ ih =>
    obtain ⟨ms, rs', hc, hrs, rfl⟩ := cleanAll_cons hr
    rcases hl.trans_clean hc with ⟨hn, rfl⟩ | ⟨s, rfl, hs⟩
    · exact .dropped hl hn (ih hrs)
    · exact .kept hs (ih hrs)

theorem cleansAll_of_cleanAll {ls rs : List (Line α)} (h : cleanAll ls = .ok rs) :
    CleansAll ls rs := (CleansAll.refl ls).trans_cleanAll h

theorem CleansAll.split {ls rs ks : List (Line α)} (h : CleansAll ls (rs ++ ks)) :
    ∃ ls₁ ls₂, ls = ls₁ ++ ls₂ ∧ CleansAll ls₁ rs ∧ CleansAll ls₂ ks := by
  generalize he : rs ++ ks = all at h
  induction h generalizing rs with
  | nil =>
    obtain ⟨rfl, rfl⟩ := List.append_eq_nil_iff.1 he
    exact ⟨[], [], rfl, .nil, .nil⟩
  | dropped hl hn _ ih =>
    obtain ⟨ls₁, ls₂, rfl, h₁, h₂⟩ := ih he
    exact ⟨_ :: ls₁, ls₂, rfl, .dropped hl hn h₁, h₂⟩
  | @kept l r ls' rs' hl hrest ih =>
    cases rs with
    | nil =>
      rw [List.nil_append] at he
      exact ⟨[], l :: ls', rfl, .nil, he ▸ .kept hl hrest⟩
    | cons r' rs =>
      rw [List.cons_append, List.cons.injEq] at he
      obtain ⟨rfl, he⟩ := he
      obtain ⟨ls₁, ls₂, rfl, h₁, h₂⟩ := ih he
      exact ⟨l :: ls₁, ls₂, rfl, .kept hl h₁, h₂⟩

theorem CleansAll.mem {ls rs : List (Line α)} (h : CleansAll ls rs) {r : Line α} (hr : r ∈ rs) :
    ∃ l ∈ ls, Cleans l r := by
  induction h with
  | nil => simp at hr
  | dropped _ _ _ ih =>
    obtain ⟨l, hl, hc⟩ := ih hr
    exact ⟨l, List.mem_cons_of_mem _ hl, hc⟩
  | kept hl _ ih =>
    rcases List.mem_cons.1 hr with rfl | hr
    · exact ⟨_, List.mem_cons_self, hl⟩
    · obtain ⟨l, hl, hc⟩ := ih hr
      exact ⟨l, List.mem_cons_of_mem _ hl, hc⟩

theorem CleansAll.isSound {ls rs : List (Line α)} (h : CleansAll ls rs)
    (hl : ∀ l ∈ ls, l.IsSound) {r : Line α} (hr : r ∈ rs) : r.IsSound := by
  obtain ⟨l, hm, hc⟩ := h.mem hr
  exact hc.isSound (hl l hm)

theorem CleansAll.pairwise_index {ls rs : List (Line α)} (h : CleansAll ls rs)
    (hp : ls.Pairwise (·.index < ·.index)) : rs.Pairwise (·.index < ·.index) := by
  induction h with
  | nil => exact hp
  | dropped _ _ _ ih => exact ih (List.pairwise_cons.1 hp).2
  | kept hl hrest ih =>
    obtain ⟨h₁, h₂⟩ := List.pairwise_cons.1 hp
    refine List.pairwise_cons.2 ⟨fun r hr ↦ ?_, ih h₂⟩
    obtain ⟨k, hk, hc⟩ := hrest.mem hr
    rw [hl.index_eq, hc.index_eq]
    exact h₁ k hk

end Ending

theorem Segment.exists_of_ofProgram {p : Text} {ss : List (Segment α)} (h : ofProgram p = .ok ss) :
    ∃ ls rs, Line.readAll p = .ok ls ∧ Ending.cleanAll ls = .ok rs ∧ ss = split rs := by
  unfold ofProgram at h
  cases hls : (Line.readAll p : Except LineFault (List (Line α))) with
  | error _ => simp [hls, bind, Except.bind] at h
  | ok ls =>
    cases hrs : Ending.cleanAll ls with
    | error _ => simp [hls, hrs, bind, Except.bind] at h
    | ok rs =>
      simp only [hls, hrs, bind, Except.bind, pure, Except.pure, Except.ok.injEq] at h
      exact ⟨ls, rs, rfl, hrs, h.symm⟩

theorem Phases.exists_of_ofLines {ls : List (Line α)} {p : Phases α} (h : ofLines ls = .ok p) :
    ∃ rs, Ending.cleanAll ls = .ok rs ∧ p = split rs := by
  cases hc : Ending.cleanAll ls with
  | error e => simp [ofLines, hc, Except.map] at h
  | ok rs =>
    rw [ofLines, hc] at h
    exact ⟨rs, rfl, (Except.ok.inj h).symm⟩

end StepAndRepeat
