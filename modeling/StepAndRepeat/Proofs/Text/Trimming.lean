import Mathlib.Data.List.DropRight
import StepAndRepeat.Text.Blank

namespace StepAndRepeat.Text

theorem dropEndWhile_eq (p : Char → Bool) (t : Text) : dropEndWhile p t = t.rdropWhile p := by
  induction t with
  | nil => rfl
  | cons c t ih =>
    have hstep : (c :: t).rdropWhile p =
        if t.rdropWhile p = [] then [c].rdropWhile p else c :: t.rdropWhile p := by
      simp only [List.rdropWhile, List.reverse_cons, List.dropWhile_append, List.isEmpty_iff,
        List.reverse_eq_nil_iff]
      split
      · simp
      · simp
    rw [hstep, dropEndWhile, ih, List.rdropWhile_singleton]
    cases h : t.rdropWhile p with
    | nil => simp
    | cons d u => simp

variable {s t u : Text}

theorem trimEnd_append_blanks (hs : ∀ c ∈ s, isBlank c = true) :
    trimEnd (t ++ s) = trimEnd t := by
  have hrev : ∀ c ∈ s.reverse, isBlank c = true := fun c hc ↦ hs c (List.mem_reverse.1 hc)
  simp only [trimEnd, dropEndWhile_eq, List.rdropWhile, List.reverse_append]
  rw [List.dropWhile_append_of_pos hrev]

theorem trimEnd_append (h : trimEnd t ≠ []) (u : Text) : trimEnd (u ++ t) = u ++ trimEnd t := by
  simp only [trimEnd, dropEndWhile_eq, List.rdropWhile, ne_eq, List.reverse_eq_nil_iff] at h ⊢
  rw [List.reverse_append, List.dropWhile_append, if_neg (by simpa using h), List.reverse_append,
    List.reverse_reverse]

theorem trimEnd_eq_nil_iff : trimEnd t = [] ↔ ∀ c ∈ t, isBlank c = true := by
  rw [trimEnd, dropEndWhile_eq, List.rdropWhile_eq_nil_iff]

structure Trimmed (t : Text) : Prop where
  head : ∀ c ∈ t.head?, isBlank c = false
  last : ∀ c ∈ t.getLast?, isBlank c = false

theorem Trimmed.trimEnd_eq (h : Trimmed t) : trimEnd t = t := by
  rw [trimEnd, dropEndWhile_eq, List.rdropWhile_eq_self_iff]
  intro hne
  simp [h.last _ (List.getLast?_eq_some_getLast hne)]

theorem trimmed_trim (t : Text) : Trimmed (trim t) := by
  have htrim : trim t = (t.dropWhile isBlank).rdropWhile isBlank := by
    rw [trim, trimEnd, dropEndWhile_eq, trimStart]
  rw [htrim]
  constructor
  · intro c hc
    obtain ⟨u, hu⟩ := List.rdropWhile_prefix isBlank (t.dropWhile isBlank)
    have hhead : c ∈ (t.dropWhile isBlank).head? := by
      rw [← hu, List.head?_append, Option.mem_def.1 hc]
      rfl
    have := List.head?_dropWhile_not isBlank t
    rw [Option.mem_def.1 hhead] at this
    simpa using this
  · intro c hc
    obtain ⟨hne, rfl⟩ := List.mem_getLast?_eq_getLast hc
    simpa using List.rdropWhile_last_not (p := isBlank) (t.dropWhile isBlank) hne

theorem trim_append (hs : ∀ c ∈ s, isBlank c = true) (hu : ∀ c ∈ u, isBlank c = true)
    (ht : Trimmed t) : trim (s ++ (t ++ u)) = t := by
  rw [trim, trimStart, List.dropWhile_append_of_pos hs]
  cases t with
  | nil =>
    rw [List.nil_append, List.dropWhile_eq_nil_iff.2 hu]
    rfl
  | cons c t =>
    have hc : isBlank c = false := ht.head c rfl
    rw [List.cons_append, List.dropWhile_cons_of_neg (by simp [hc]), ← List.cons_append,
      trimEnd_append_blanks hu, ht.trimEnd_eq]

theorem Trimmed.trim_eq (h : Trimmed t) : trim t = t := by
  have := trim_append (s := []) (u := []) (by simp) (by simp) h
  rwa [List.nil_append, List.append_nil] at this

theorem trim_cons_blank {c : Char} (h : isBlank c = true) (t : Text) : trim (c :: t) = trim t := by
  rw [trim, trim, trimStart, trimStart, List.dropWhile_cons_of_pos h]

theorem exists_trim_append (t : Text) :
    ∃ s u, (∀ c ∈ s, isBlank c = true) ∧ (∀ c ∈ u, isBlank c = true) ∧
      t = s ++ (trim t ++ u) := by
  refine ⟨t.takeWhile isBlank, (t.dropWhile isBlank).rtakeWhile isBlank, ?_, ?_, ?_⟩
  · exact fun c hc ↦ List.mem_takeWhile_imp hc
  · exact fun c hc ↦ List.mem_rtakeWhile_imp hc
  · rw [trim, trimEnd, dropEndWhile_eq, trimStart, List.rdropWhile_append_rtakeWhile,
      List.takeWhile_append_dropWhile]

section Cut

variable {sep : Char}

theorem cut_of_not_mem (h : sep ∉ t) : cut sep t = [t] := by
  induction t with
  | nil => rfl
  | cons c t ih =>
    rw [List.mem_cons, not_or] at h
    rw [cut, if_neg (Ne.symm h.1), ih h.2]
    rfl

theorem cut_append (h : sep ∉ t) (u : Text) : cut sep (t ++ sep :: u) = t :: cut sep u := by
  induction t with
  | nil => exact if_pos rfl
  | cons c t ih =>
    rw [List.mem_cons, not_or] at h
    rw [List.cons_append, cut, if_neg (Ne.symm h.1), ih h.2]
    rfl

theorem cut_join {ts : List Text} (h : ∀ t ∈ ts, sep ∉ t) (hne : ts ≠ []) :
    cut sep (join [sep] ts) = ts := by
  induction ts with
  | nil => exact absurd rfl hne
  | cons t ts ih =>
    have ht := h t List.mem_cons_self
    cases ts with
    | nil => exact cut_of_not_mem ht
    | cons u us =>
      rw [join, List.append_assoc, List.singleton_append, cut_append ht,
        ih (fun v hv ↦ h v (List.mem_cons_of_mem _ hv)) (List.cons_ne_nil u us)]
      exact List.cons_ne_nil u us

/-- Trimmed pieces with a blank behind each separator are found again once they are trimmed. -/
theorem map_trim_cut_join {blank : Char} (hblank : isBlank blank = true) (hne : blank ≠ sep)
    {ts : List Text} (h : ∀ t ∈ ts, sep ∉ t ∧ Trimmed t) (hts : ts ≠ []) :
    (cut sep (join [sep, blank] ts)).map trim = ts := by
  induction ts with
  | nil => exact absurd rfl hts
  | cons t ts ih =>
    obtain ⟨hsep, htrim⟩ := h t List.mem_cons_self
    cases ts with
    | nil => rw [join, cut_of_not_mem hsep, List.map_singleton, htrim.trim_eq]
    | cons u us =>
      have hrest := ih (fun v hv ↦ h v (List.mem_cons_of_mem t hv)) (List.cons_ne_nil u us)
      have hjoin : join [sep, blank] (t :: u :: us) =
          t ++ sep :: blank :: join [sep, blank] (u :: us) := by simp [join]
      rw [hjoin, cut_append hsep, List.map_cons, htrim.trim_eq, cut, if_neg hne]
      -- the blank behind the separator goes to the next piece, and is trimmed off it
      cases hcut : cut sep (join [sep, blank] (u :: us)) with
      | nil => exact absurd hcut (cut_ne_nil _ _)
      | cons v vs =>
        rw [hcut, List.map_cons] at hrest
        rw [consFirst, List.map_cons, trim_cons_blank hblank, hrest]

theorem not_mem_of_mem_cut (h : u ∈ cut sep t) : sep ∉ u := by
  induction t generalizing u with
  | nil =>
    rw [cut, List.mem_singleton] at h
    simp [h]
  | cons c t ih =>
    rw [cut] at h
    split at h
    next =>
      rcases List.mem_cons.1 h with rfl | h
      · simp
      · exact ih h
    next hc =>
      cases hcut : cut sep t with
      | nil => exact absurd hcut (cut_ne_nil sep t)
      | cons v vs =>
        rw [hcut, consFirst] at h
        rcases List.mem_cons.1 h with rfl | h
        · have hv : sep ∉ v := ih (by simp [hcut])
          simp [hv, Ne.symm hc]
        · exact ih (by simp [hcut, h])

end Cut

end StepAndRepeat.Text
