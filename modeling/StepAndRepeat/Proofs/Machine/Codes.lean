import StepAndRepeat.Proofs.Machine.Carry
import StepAndRepeat.Proofs.Program.Reading

namespace StepAndRepeat

variable {α : Type} [Coordinate α]

namespace Line

omit [Coordinate α] in
theorem values_eq (l : Line α) (c : Char) :
    l.values c = (l.keys.filter (·.1 = c)).map (·.2) := by
  rw [values, keys, List.filter_map, List.map_map]
  rfl

omit [Coordinate α] in
theorem value?_eq (l : Line α) (c : Char) :
    l.value? c = (l.keys.find? (·.1 = c)).map (·.2) := by
  rw [value?, keys, List.find?_map, Option.map_map]
  rfl

theorem has_eq (l : Line α) (c : Char) (n : Nat) :
    l.has c n = (l.values c).any (Coordinate.isNat n) := by
  rw [has, values, List.any_map, List.any_filter]
  rfl

omit [Coordinate α] in
theorem values_eq_nil {l : Line α} {c : Char} : l.values c = [] ↔ ∀ k ∈ l.keys, k.1 ≠ c := by
  rw [values_eq, List.map_eq_nil_iff, List.filter_eq_nil_iff]
  simp

omit [Coordinate α] in
theorem values_of_keys {l r : Line α} (h : r.keys = l.keys) (c : Char) :
    r.values c = l.values c := by
  rw [values_eq, values_eq, h]

theorem has_of_values {l r : Line α} {c : Char} (h : r.values c = l.values c) (n : Nat) :
    r.has c n = l.has c n := by
  rw [has_eq, has_eq, h]

theorem has_of_values_eq_nil {l : Line α} {c : Char} (h : l.values c = []) (n : Nat) :
    l.has c n = false := by
  rw [has_eq, h, List.any_nil]

theorem hasFraction_eq (l : Line α) (n : Numeral) :
    l.hasFraction n = (l.values 'G').any (Coordinate.isNumeral n) := by
  rw [hasFraction, values, List.any_map, List.any_filter]
  rfl

theorem distance?_of_values {l r : Line α} (h : r.values 'G' = l.values 'G') :
    r.distance? = l.distance? := by
  simp only [distance?, has_of_values h]

theorem motion?_of_values {l r : Line α} (h : r.values 'G' = l.values 'G') :
    r.motion? = l.motion? := by
  simp only [motion?, has_of_values h]

theorem arcDistance?_of_values {l r : Line α} (h : r.values 'G' = l.values 'G') :
    r.arcDistance? = l.arcDistance? := by
  simp only [arcDistance?, hasFraction_eq, h]

end Line

namespace Modes

theorem after_of_values {l r : Line α} (h : r.values 'G' = l.values 'G') (m : Modes) :
    m.after r = m.after l := by
  rw [after, after, Line.distance?_of_values h, Line.motion?_of_values h,
    Line.arcDistance?_of_values h]

theorem read_of_values {l r : Line α} (hk : r.kind = l.kind) (hg : r.values 'G' = l.values 'G')
    (m : Modes) : m.read r = m.read l := by
  rw [read, read, hk, after_of_values hg]

end Modes

/-- What a line sets is named by its G words, if it is code. -/
structure SetByCodes {β : Type} (set? : Line α → Option β) : Prop where
  same {l r : Line α} : r.kind = l.kind → r.values 'G' = l.values 'G' → set? r = set? l
  unset {l : Line α} : l.values 'G' = [] → set? l = none
  ofCode {l : Line α} : l.kind ≠ .code → set? l = none

theorem setByCodes_newDistance : SetByCodes (Line.newDistance? (α := α)) where
  same hk hv := by rw [Line.newDistance?, Line.newDistance?, hk, Line.distance?_of_values hv]
  unset hv := by simp [Line.newDistance?, Line.distance?, Line.has_of_values_eq_nil hv]
  ofCode hk := by rw [Line.newDistance?, if_neg hk]

theorem setByCodes_newMotion : SetByCodes (Line.newMotion? (α := α)) where
  same hk hv := by rw [Line.newMotion?, Line.newMotion?, hk, Line.motion?_of_values hv]
  unset hv := by simp [Line.newMotion?, Line.motion?, Line.has_of_values_eq_nil hv]
  ofCode hk := by rw [Line.newMotion?, if_neg hk]

omit [Coordinate α] in
theorem SetByCodes.of_alike {β : Type} {set? : Line α → Option β} (hs : SetByCodes set?)
    {l r : Line α} (h : l.Alike r) : set? r = set? l :=
  hs.same h.kind (Line.values_of_keys h.keys 'G')

section Carry

variable {β : Type} {set? : Line α → Option β}

theorem carry_filter {γ : Type} {set? : γ → Option β} {p : γ → Bool} {ls : List γ}
    (h : ∀ l ∈ ls, p l = false → set? l = none) (b : β) :
    carry set? b (ls.filter p) = carry set? b ls := by
  induction ls generalizing b with
  | nil => rfl
  | cons l ls ih =>
    have ih' := ih fun k hk ↦ h k (by simp [hk])
    cases hp : p l with
    | true => rw [List.filter_cons_of_pos hp, carry_cons, carry_cons, ih']
    | false =>
      rw [List.filter_cons_of_neg (by simp [hp]), carry_cons, h l (by simp) hp, ih']
      rfl

theorem carry_map {γ δ : Type} {set? : δ → Option β} (f : γ → δ) (b : β) (ls : List γ) :
    carry set? b (ls.map f) = carry (fun l ↦ set? (f l)) b ls := by
  induction ls generalizing b with
  | nil => rfl
  | cons l ls ih => rw [List.map_cons, carry_cons, carry_cons, ih]

theorem carry_forall₂ {γ δ : Type} {set? : γ → Option β} {sets? : δ → Option β}
    {R : δ → γ → Prop} {ds : List δ} {ls : List γ} (h : List.Forall₂ R ds ls)
    (hR : ∀ d ∈ ds, ∀ l, R d l → set? l = sets? d) (b : β) :
    carry set? b ls = carry sets? b ds := by
  induction h generalizing b with
  | nil => rfl
  | @cons d l ds ls hd _ ih =>
    rw [carry_cons, carry_cons, hR d (by simp) l hd]
    exact ih (fun d' hd' ↦ hR d' (by simp [hd'])) _

end Carry

end StepAndRepeat
