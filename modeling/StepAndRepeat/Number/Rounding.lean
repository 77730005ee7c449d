namespace StepAndRepeat

/-- `num / den` to the nearest whole number, ties to even. -/
def roundDiv (num den : Nat) : Nat :=
  let q := num / den
  let r := num % den
  if 2 * r < den then q
  else if den < 2 * r then q + 1
  else if q % 2 = 0 then q else q + 1

theorem roundDiv_near (num den : Nat) (h : 0 < den) :
    2 * num ≤ 2 * den * roundDiv num den + den ∧ 2 * den * roundDiv num den ≤ 2 * num + den := by
  have hd := Nat.div_add_mod num den
  have hr := Nat.mod_lt num h
  unfold roundDiv
  generalize hq : num / den = q at *
  generalize num % den = r at *
  have e : 2 * den * (q + 1) = 2 * den * q + 2 * den := by rw [Nat.mul_add, Nat.mul_one]
  have f : 2 * den * q = 2 * (den * q) := Nat.mul_assoc 2 den q
  dsimp only
  by_cases h1 : 2 * r < den
  · rw [if_pos h1]; omega
  · rw [if_neg h1]
    by_cases h2 : den < 2 * r
    · rw [if_pos h2]; omega
    · rw [if_neg h2]; split <;> omega

end StepAndRepeat
