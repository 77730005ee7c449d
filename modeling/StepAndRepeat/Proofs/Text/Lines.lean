import StepAndRepeat.Text.Blank

namespace StepAndRepeat.Text

def Unbroken (t : Text) : Prop := ∀ c ∈ t, isBreak c = false

instance (t : Text) : Decidable (Unbroken t) := List.decidableBAll (fun c ↦ isBreak c = false) t

theorem Unbroken.mono {t u : Text} (h : Unbroken t) (hu : u ⊆ t) : Unbroken u :=
  fun c hc ↦ h c (hu hc)

theorem unbroken_append {t u : Text} : Unbroken (t ++ u) ↔ Unbroken t ∧ Unbroken u := by
  simp only [Unbroken, List.mem_append]
  exact ⟨fun h ↦ ⟨fun c hc ↦ h c (.inl hc), fun c hc ↦ h c (.inr hc)⟩,
    fun h c hc ↦ hc.elim (h.1 c) (h.2 c)⟩

theorem unbroken_cons {c : Char} {t : Text} :
    Unbroken (c :: t) ↔ isBreak c = false ∧ Unbroken t := by
  simp [Unbroken]

theorem lines_cons {c : Char} (h : isBreak c = false) (t : Text) :
    lines (c :: t) = consFirst c (lines t) := by
  have hr : c ≠ '\r' := by
    rintro rfl
    exact absurd h (by decide)
  rw [lines.eq_3 c t fun u hc ↦ absurd hc hr, h]
  rfl

theorem lines_append_feed {t : Text} (h : Unbroken t) (u : Text) :
    lines (t ++ '\n' :: u) = t :: lines u := by
  induction t with
  | nil =>
    rw [List.nil_append, lines.eq_3 '\n' u fun _ hc ↦ absurd hc (by decide)]
    rfl
  | cons c t ih =>
    obtain ⟨hc, ht⟩ := unbroken_cons.1 h
    rw [List.cons_append, lines_cons hc, ih ht, consFirst]

theorem lines_of_unbroken {t : Text} (h : Unbroken t) (hn : t ≠ []) : lines t = [t] := by
  induction t with
  | nil => exact absurd rfl hn
  | cons c t ih =>
    obtain ⟨hc, ht⟩ := unbroken_cons.1 h
    rw [lines_cons hc]
    cases t with
    | nil => rfl
    | cons d t => rw [ih ht (by simp), consFirst]

theorem unbroken_join {sep : Text} (hs : Unbroken sep) {ts : List Text}
    (h : ∀ t ∈ ts, Unbroken t) : Unbroken (join sep ts) := by
  induction ts with
  | nil => simp [join, Unbroken]
  | cons t ts ih =>
    cases ts with
    | nil => exact h t (by simp)
    | cons u ts =>
      have hj : join sep (t :: u :: ts) = t ++ sep ++ join sep (u :: ts) := rfl
      rw [hj, unbroken_append, unbroken_append]
      exact ⟨⟨h t (by simp), hs⟩, ih fun s hs ↦ h s (by simp [hs])⟩

/-- The lines of joined texts are the texts, unless an empty one comes last. -/
theorem lines_join {ts : List Text} (h : ∀ t ∈ ts, Unbroken t) (hl : ts.getLast? ≠ some []) :
    lines (join ['\n'] ts) = ts := by
  induction ts with
  | nil => rfl
  | cons t ts ih =>
    cases ts with
    | nil =>
      have hn : t ≠ [] := fun ht ↦ hl (by simp [ht])
      exact lines_of_unbroken (h t (by simp)) hn
    | cons u ts =>
      rw [join, List.append_assoc, List.singleton_append, lines_append_feed (h t (by simp))]
      · rw [ih (fun s hs ↦ h s (by simp [hs])) (by simpa using hl)]
      · simp

theorem consFirst_append (c : Char) {ts : List Text} (h : ts ≠ []) (us : List Text) :
    consFirst c (ts ++ us) = consFirst c ts ++ us := by
  cases ts with
  | nil => exact absurd rfl h
  | cons t ts => rfl

theorem lines_cons_break {c : Char} (h : isBreak c = true) {t : Text}
    (hr : c = '\r' → t.head? ≠ some '\n') : lines (c :: t) = [] :: lines t := by
  rw [lines.eq_3 c t fun u hc ht ↦ hr hc (by rw [ht, List.head?_cons]), if_pos h]

theorem lines_ne_nil {t : Text} (h : t ≠ []) : lines t ≠ [] := by
  fun_cases lines t with
  | case1 => exact absurd rfl h
  | case2 => simp
  | case3 => simp
  | case4 c t _ _ => cases lines t <;> simp [consFirst]

/-- A line feed behind a text ends its last line, or an empty one if its last line has ended and the
line feed does not complete that end. -/
theorem lines_append_feed_cases (t u : Text) :
    lines (t ++ '\n' :: u) = lines t ++ lines u ∨
      lines (t ++ '\n' :: u) = lines t ++ [] :: lines u := by
  fun_induction lines t with
  | case1 => exact .inr (lines_append_feed (by simp [Unbroken]) u)
  | case2 t ih => exact ih.imp (congrArg ([] :: ·)) (congrArg ([] :: ·))
  | case3 c t hr hb ih =>
    rw [List.cons_append]
    by_cases hc : c = '\r' ∧ t = []
    · obtain ⟨rfl, rfl⟩ := hc
      exact .inl rfl
    · rw [lines_cons_break hb fun hcr hh ↦ ?_]
      · exact ih.imp (congrArg ([] :: ·)) (congrArg ([] :: ·))
      · cases t with
        | nil => exact hc ⟨hcr, rfl⟩
        | cons d t =>
          rw [List.cons_append, List.head?_cons, Option.some_inj] at hh
          exact hr t hcr (by rw [hh])
  | case4 c t _ hb ih =>
    have hc : isBreak c = false := by simpa using hb
    rw [List.cons_append, lines_cons hc]
    cases t with
    | nil =>
      have hf : lines ('\n' :: u) = [] :: lines u :=
        lines_append_feed (t := []) (by simp [Unbroken]) u
      exact .inl (by rw [List.nil_append, hf]; rfl)
    | cons d t =>
      have hne := lines_ne_nil (List.cons_ne_nil d t)
      rcases ih with h | h
      · exact .inl (by rw [h, consFirst_append c hne])
      · exact .inr (by rw [h, consFirst_append c hne])

/-- The lines of texts joined before another one are, but for empty ones, lines of those texts. -/
theorem exists_lines_join_append (bs : List Text) {ts : List Text} (h : ts ≠ []) :
    ∃ vs, lines (join ['\n'] (bs ++ ts)) = vs ++ lines (join ['\n'] ts) ∧
      ∀ v ∈ vs, v = [] ∨ ∃ b ∈ bs, v ∈ lines b := by
  induction bs with
  | nil => exact ⟨[], rfl, by simp⟩
  | cons b bs ih =>
    obtain ⟨vs, hvs, hv⟩ := ih
    have hj : join ['\n'] (b :: bs ++ ts) = b ++ '\n' :: join ['\n'] (bs ++ ts) := by
      rw [List.cons_append]
      cases hbt : bs ++ ts with
      | nil => exact absurd (List.append_eq_nil_iff.1 hbt).2 h
      | cons u us => rw [join, List.append_assoc, List.singleton_append]; simp
    have hmem : ∀ v ∈ vs, v = [] ∨ ∃ b' ∈ b :: bs, v ∈ lines b' := fun v hm ↦
      (hv v hm).imp_right (Exists.imp fun _ h ↦ ⟨List.mem_cons_of_mem b h.1, h.2⟩)
    have hfirst : ∀ v ∈ lines b, v = [] ∨ ∃ b' ∈ b :: bs, v ∈ lines b' := fun v hm ↦
      .inr ⟨b, List.mem_cons_self, hm⟩
    rcases lines_append_feed_cases b (join ['\n'] (bs ++ ts)) with hl | hl
    · refine ⟨lines b ++ vs, by rw [hj, hl, hvs, List.append_assoc], fun v hm ↦ ?_⟩
      exact (List.mem_append.1 hm).elim (hfirst v) (hmem v)
    · refine ⟨lines b ++ [] :: vs, by rw [hj, hl, hvs, List.append_assoc, List.cons_append], ?_⟩
      intro v hm
      rcases List.mem_append.1 hm with hm | hm
      · exact hfirst v hm
      · exact (List.mem_cons.1 hm).elim .inl (hmem v)

theorem mem_consFirst {c : Char} {ts : List Text} {u : Text} (h : u ∈ consFirst c ts) :
    u ∈ ts ∨ u = [c] ∨ ∃ t ∈ ts, u = c :: t := by
  cases ts with
  | nil => exact .inr (.inl (by simpa [consFirst] using h))
  | cons t ts =>
    rcases List.mem_cons.1 h with rfl | h
    · exact .inr (.inr ⟨t, by simp, rfl⟩)
    · exact .inl (by simp [h])

theorem unbroken_of_mem_lines {t u : Text} (h : u ∈ lines t) : Unbroken u := by
  fun_induction lines t generalizing u with
  | case1 => simp at h
  | case2 t ih =>
    rcases List.mem_cons.1 h with rfl | h
    · simp [Unbroken]
    · exact ih h
  | case3 c t _ hb ih =>
    rcases List.mem_cons.1 h with rfl | h
    · simp [Unbroken]
    · exact ih h
  | case4 c t _ hb ih =>
    have hc : isBreak c = false := by simpa using hb
    rcases mem_consFirst h with h | rfl | ⟨s, hs, rfl⟩
    · exact ih h
    · simpa [Unbroken] using hc
    · exact unbroken_cons.2 ⟨hc, ih hs⟩

end StepAndRepeat.Text
