import StepAndRepeat.Proofs.Number.Places
import StepAndRepeat.Proofs.Number.Truncation

namespace StepAndRepeat.Binary

open Float.Model Float.Model.UnpackedFloat

section Parts

variable {x y : Float}

def side (x : Float) : Sign := if isNegative x then .negative else .positive

def together (s : Sign) : Magnitude → UnpackedFloat
  | .nan => .notANumber
  | .infinite => .infinity s
  | .finite m q => if hm : 0 < m then .finite s m q hm else .zero s

theorem ofBitVec_unpackSign (x : Float) : Sign.ofBitVec (unpackSign (word x)) = side x := by
  have hs := (toNat_fields (word x)).1
  have hx : (word x).toNat < 2 ^ 64 := (word x).isLt
  have hdef : side x = if 2 ^ 63 ≤ (word x).toNat then .negative else .positive := by
    unfold side isNegative
    simp only [decide_eq_true_eq]
    rfl
  rw [hdef]
  split
  next h =>
    have hone : unpackSign (word x) = 1#1 := BitVec.eq_of_toNat_eq (by
      rw [hs]
      change (word x).toNat / 2 ^ 63 % 2 = 1
      omega)
    rw [hone]
    rfl
  next h =>
    have hzero : unpackSign (word x) = 0#1 := BitVec.eq_of_toNat_eq (by
      rw [hs]
      change (word x).toNat / 2 ^ 63 % 2 = 0
      omega)
    rw [hzero]
    rfl

theorem parts_eq_together (x : Float) : parts x = together (side x) (magnitude x) := by
  obtain ⟨-, he, hm⟩ := toNat_fields (word x)
  have hmag : magnitude x =
      if (unpackExponent (word x)).toNat = 2047 then
        if (unpackMantissa (word x)).toNat = 0 then .infinite else .nan
      else if (unpackExponent (word x)).toNat = 0 then
        .finite (unpackMantissa (word x)).toNat (-1074)
      else .finite (2 ^ 52 + (unpackMantissa (word x)).toNat)
        ((unpackExponent (word x)).toNat - 1075) := by
    rw [he, hm]
    rfl
  have hbias : ((Format.binary64.exponentBias : Int) +
      Format.binary64.mantissaBitsWithoutImplicit) = 1075 := rfl
  have hones : unpackExponent (word x) = -1#11 ↔ (unpackExponent (word x)).toNat = 2047 := by
    rw [← BitVec.toNat_inj]
    rfl
  rw [hmag]
  change UnpackedFloat.unpack Format.binary64 (word x) = _
  unfold UnpackedFloat.unpack
  dsimp only
  rw [hbias, ofBitVec_unpackSign]
  split
  next hexp =>
    rw [if_pos (hones.1 hexp)]
    split
    next hmant => rw [if_pos ((toNat_eq_zero_iff _).2 hmant), together]
    next hmant => rw [if_neg fun h ↦ hmant ((toNat_eq_zero_iff _).1 h), together]
  next hexp =>
    rw [if_neg fun h ↦ hexp (hones.2 h)]
    split
    next hzero =>
      have hzero' := (toNat_eq_zero_iff _).2 hzero
      rw [if_pos hzero']
      split
      next hmant =>
        have hmant' := (toNat_eq_zero_iff _).2 hmant
        rw [hmant', together, dif_neg (Nat.lt_irrefl 0)]
      next hmant =>
        have hpos : 0 < (unpackMantissa (word x)).toNat :=
          Nat.pos_of_ne_zero fun h ↦ hmant ((toNat_eq_zero_iff _).1 h)
        rw [together, dif_pos hpos]
        congr 1
        omega
    next hzero =>
      have hmant : (1#1 ++ unpackMantissa (word x)).toNat =
          2 ^ 52 + (unpackMantissa (word x)).toNat := by
        rw [toNat_append]
        rfl
      rw [if_neg fun h ↦ hzero ((toNat_eq_zero_iff _).1 h), together, dif_pos (by omega)]
      congr 1

theorem parts_of_magnitude {m : ℕ} {q : ℤ} (hm : 0 < m) (h : magnitude x = .finite m q) :
    parts x = .finite (side x) m q hm := by
  rw [parts_eq_together, h, together, dif_pos hm]

theorem value_of_magnitude {m : ℕ} {q : ℤ} (h : magnitude x = .finite m q) :
    value x = onSide (side x) (m * 2 ^ q) := by
  rcases Nat.eq_zero_or_pos m with rfl | hm
  · rw [value, parts_eq_together, h, together, dif_neg (Nat.lt_irrefl 0), amount_zero,
      Nat.cast_zero, zero_mul, onSide_zero]
  · rw [value, parts_of_magnitude hm h, amount_finite]

theorem rank_eq_of_extended (hx : IsNumber x) (hy : IsNumber y) (h : extended x = extended y) :
    rank (parts x) = rank (parts y) := by
  rcases lt_trichotomy (rank (parts x)) (rank (parts y)) with hlt | heq | hgt
  · exact absurd h (extended_lt_of_rank hx hy hlt).ne
  · exact heq
  · exact absurd h (extended_lt_of_rank hy hx hgt).ne'

theorem eq_of_rank {f g : UnpackedFloat} (hf : f ≠ .notANumber) (hg : g ≠ .notANumber)
    (h : rank f = rank g) (hne : place f ≠ 0) : f = g := by
  have hzero (s : Sign) : place (.zero s) = 0 := rfl
  cases f with
  | notANumber => exact absurd rfl hf
  | zero s => exact absurd (hzero s) hne
  | infinity s =>
    cases g with
    | notANumber => exact absurd rfl hg
    | zero t => cases s <;> simp [rank] at h
    | finite t n e hn => cases s <;> cases t <;> simp [rank] at h
    | infinity t => cases s <;> cases t <;> simp [rank] at h <;> rfl
  | finite s m d hm =>
    rw [rank_finite] at h
    cases g with
    | notANumber => exact absurd rfl hg
    | zero t => cases s <;> simp [rank, Sign.apply] at h
    | infinity t => cases s <;> cases t <;> simp [rank, Sign.apply] at h
    | finite t n e hn =>
      rw [rank_finite] at h
      cases s <;> cases t <;> simp_all [Sign.apply]

/-- Numbers at the same place are the same, unless that is zero. -/
theorem eq_of_extended (hx : IsNumber x) (hy : IsNumber y) (h : extended x = extended y)
    (hne : extended x ≠ 0) : x = y := by
  rw [← ofParts_parts x, ← ofParts_parts y,
    eq_of_rank hx hy (rank_eq_of_extended hx hy h) hne]

theorem Stores.eq {r : ℝ} (hx : Stores x r) (hy : Stores y r) (hne : stored r ≠ 0) : x = y :=
  eq_of_extended hx.isNumber hy.isNumber (hx.extended_eq.trans hy.extended_eq.symm)
    (hx.extended_eq ▸ hne)

end Parts

end StepAndRepeat.Binary
