import Mathlib.Data.List.Forall2

namespace StepAndRepeat

variable {ε δ β γ : Type} {x : Except ε β} {c : γ}

theorem map_eq_ok {f : β → γ} : x.map f = .ok c ↔ ∃ b, x = .ok b ∧ f b = c := by
  cases x <;> simp [Except.map]

theorem exists_map_error {f : β → γ} : (∃ e, x.map f = .error e) ↔ ∃ e, x = .error e := by
  cases x <;> simp [Except.map]

theorem mapError_eq_ok {f : ε → δ} {b : β} : x.mapError f = .ok b ↔ x = .ok b := by
  cases x <;> simp [Except.mapError]

theorem bind_eq_ok {f : β → Except ε γ} : (x >>= f) = .ok c ↔ ∃ b, x = .ok b ∧ f b = .ok c := by
  cases x <;> simp [bind, Except.bind]

theorem eq_ok_of_toOption {b : β} (h : x.toOption = some b) : x = .ok b := by
  cases x with
  | error e => cases h
  | ok b => exact congrArg Except.ok (Option.some_inj.1 h)

variable {f : β → Except ε γ}

theorem mapM_eq_ok {bs : List β} {cs : List γ} :
    bs.mapM f = .ok cs ↔ List.Forall₂ (fun b c ↦ f b = .ok c) bs cs := by
  induction bs generalizing cs with
  | nil => cases cs <;> simp [pure, Except.pure]
  | cons b bs ih =>
    rw [List.mapM_cons]
    cases hb : f b with
    | error e => simp [bind, Except.bind, List.forall₂_cons_left_iff, hb]
    | ok c =>
      cases hbs : bs.mapM f with
      | error e =>
        have hnone : ∀ ds, ¬ List.Forall₂ (fun b c ↦ f b = .ok c) bs ds := by
          simp [← ih, hbs]
        simp [bind, Except.bind, List.forall₂_cons_left_iff, hb, hnone]
      | ok ds =>
        have hall := ih.1 hbs
        constructor
        · rintro ⟨⟩
          exact .cons hb hall
        · intro h
          cases h with
          | cons hc h =>
            rw [hb] at hc
            rw [hbs] at ih
            cases hc
            cases ih.2 h
            rfl

theorem exists_mapM_error {bs : List β} :
    (∃ e, bs.mapM f = .error e) ↔ ∃ b ∈ bs, ∃ e, f b = .error e := by
  induction bs with
  | nil => simp [pure, Except.pure]
  | cons b bs ih =>
    rw [List.mapM_cons]
    cases hb : f b with
    | error e => simp [bind, Except.bind, hb]
    | ok c =>
      simp only [List.exists_mem_cons_iff, hb, reduceCtorEq, exists_false, false_or, ← ih]
      cases bs.mapM f <;> simp [bind, Except.bind, pure, Except.pure]

end StepAndRepeat
