import Mathlib.Algebra.Order.Group.Nat
import StepAndRepeat.Number.Digits
import StepAndRepeat.Proofs.Attempts
import StepAndRepeat.Proofs.Number.Decimals

namespace StepAndRepeat

namespace Text

variable {n : Int} {t : Text}

def Short (n : Int) : Prop := n.natAbs < 10 ^ digitLimit

instance : Decidable (Short n) := inferInstanceAs (Decidable (n.natAbs < 10 ^ digitLimit))

theorem length_ofNat_le_iff {n k : Nat} (hk : 0 < k) : (ofNat n).length ≤ k ↔ n < 10 ^ k :=
  Nat.length_toDigits_le_iff (by decide) hk

theorem writeInt_eq_ok : writeInt n = .ok t ↔ Short n ∧ ofInt n = t := by
  rw [writeInt, Short, ← length_ofNat_le_iff (by decide)]
  split <;> simp <;> omega

theorem writeInt_of_short (h : Short n) : writeInt n = .ok (ofInt n) := writeInt_eq_ok.2 ⟨h, rfl⟩

theorem exists_writeInt_error : (∃ e, writeInt n = .error e) ↔ ¬ Short n := by
  rw [writeInt, Short, ← length_ofNat_le_iff (by decide)]
  split <;> simp <;> omega

theorem lt_ten_of_digitValue? {c : Char} {d : Nat} (h : digitValue? c = some d) : d < 10 := by
  obtain ⟨z, hz, rfl⟩ := Option.map_eq_some_iff.1 h
  have hrange := List.find?_some hz
  simp only [Bool.and_eq_true, decide_eq_true_eq] at hrange
  omega

theorem digitsFrom_lt (n : Nat) (t : Text) : digitsFrom n t < (n + 1) * 10 ^ t.length := by
  induction t generalizing n with
  | nil => simp [digitsFrom]
  | cons c t ih =>
    rw [digitsFrom, List.length_cons, Nat.pow_succ', ← Nat.mul_assoc]
    refine (ih _).trans_le (Nat.mul_le_mul_right _ ?_)
    cases hd : digitValue? c with
    | none =>
      dsimp only
      omega
    | some d =>
      have := lt_ten_of_digitValue? hd
      dsimp only
      omega

theorem short_of_digits (h : t.length ≤ digitLimit) : Short (digitsToNat t) := by
  have hlt := digitsFrom_lt 0 t
  rw [Nat.zero_add, Nat.one_mul] at hlt
  exact hlt.trans_le (Nat.pow_le_pow_right (by decide) h)

theorem Short.of_le {m : Int} (h : Short n) (hm : 0 ≤ m) (hle : m ≤ n) : Short m := by
  refine lt_of_le_of_lt ?_ h
  omega

end Text

end StepAndRepeat
