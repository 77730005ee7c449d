import StepAndRepeat.Files.Path
import StepAndRepeat.Proofs.Text.Trimming

namespace StepAndRepeat.Path

open Text

variable {p : Path}

/-- A part of a path: a name or two dots. -/
structure IsPart (t : Text) : Prop where
  ne_nil : t ≠ []
  ne_dot : t ≠ ['.']
  noSlash : '/' ∉ t

/-- Paths as the reading of a text gives them. -/
structure Proper (p : Path) : Prop where
  root : p.root = [] ∨ p.root = ['/'] ∨ p.root = ['/', '/']
  parts : ∀ t ∈ p.parts, IsPart t

theorem proper_ofText (t : Text) : (ofText t).Proper := by
  constructor
  · unfold ofText rootOf
    dsimp only
    split <;> simp
  · intro u hu
    obtain ⟨hmem, hkept⟩ := List.mem_filter.1 hu
    simp only [Bool.and_eq_true, Bool.not_eq_true', List.isEmpty_eq_false_iff,
      decide_eq_true_eq] at hkept
    exact ⟨hkept.1, hkept.2, not_mem_of_mem_cut hmem⟩

theorem Proper.parent (h : p.Proper) : p.parent.Proper :=
  ⟨h.root, fun t ht ↦ h.parts t (List.dropLast_subset _ ht)⟩

theorem filter_parts {ts : List Text} (h : ∀ t ∈ ts, IsPart t) :
    (cut '/' (join ['/'] ts)).filter (fun t ↦ !t.isEmpty && t ≠ ['.']) = ts := by
  cases ts with
  | nil => rfl
  | cons t ts =>
    rw [cut_join (fun u hu ↦ (h u hu).noSlash) (List.cons_ne_nil t ts), List.filter_eq_self]
    intro u hu
    have hpart := h u hu
    simp [hpart.ne_nil, hpart.ne_dot]

theorem exists_join {ts : List Text} (h : ∀ t ∈ ts, IsPart t) (hne : ts ≠ []) :
    ∃ c u, join ['/'] ts = c :: u ∧ c ≠ '/' := by
  obtain ⟨t, ts, rfl⟩ := List.exists_cons_of_ne_nil hne
  have ht := h t List.mem_cons_self
  obtain ⟨c, u, rfl⟩ := List.exists_cons_of_ne_nil ht.ne_nil
  have hc : c ≠ '/' := fun hc ↦ ht.noSlash (hc ▸ List.mem_cons_self)
  cases ts with
  | nil => exact ⟨c, u, rfl, hc⟩
  | cons v vs => exact ⟨c, _, rfl, hc⟩

theorem rootOf_append {root : Text} (hroot : root = [] ∨ root = ['/'] ∨ root = ['/', '/'])
    {c : Char} (hc : c ≠ '/') (u : Text) : rootOf (root ++ c :: u) = root := by
  rcases hroot with rfl | rfl | rfl
  · simp [rootOf, hc]
  · simp [rootOf, hc]
  · simp [rootOf, hc]

theorem filter_append {root : Text} (hroot : root = [] ∨ root = ['/'] ∨ root = ['/', '/'])
    (t : Text) : (cut '/' (root ++ t)).filter (fun u ↦ !u.isEmpty && u ≠ ['.']) =
      (cut '/' t).filter fun u ↦ !u.isEmpty && u ≠ ['.'] := by
  rcases hroot with rfl | rfl | rfl
  · rfl
  · simp [cut]
  · simp [cut]

theorem ofText_text (h : p.Proper) : ofText p.text = p := by
  obtain ⟨root, parts⟩ := p
  have hroot := h.root
  by_cases hparts : parts = []
  · subst hparts
    rcases hroot with rfl | rfl | rfl <;> rfl
  obtain ⟨c, u, hjoin, hc⟩ := exists_join h.parts hparts
  have htext : text ⟨root, parts⟩ = root ++ c :: u := by
    rw [text, hjoin]
    rcases hroot with rfl | rfl | rfl <;> rfl
  have hfilter := filter_parts h.parts
  rw [hjoin] at hfilter
  rw [htext, ofText, rootOf_append hroot hc, filter_append hroot, hfilter]

end StepAndRepeat.Path
