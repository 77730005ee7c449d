import StepAndRepeat.Proofs.Number.Storing

namespace StepAndRepeat.Binary

open Float.Model Float.Model.UnpackedFloat

noncomputable section

section Operations

variable {x y : Float}

theorem apply_eq (s : Sign) (m : ℕ) : ((s.apply m : ℤ) : ℝ) = onSide s m := by
  cases s <;> simp [onSide, Sign.apply]

theorem onSide_mul (s t : Sign) (v w : ℝ) : onSide (s * t) (v * w) = onSide s v * onSide t w := by
  cases s <;> cases t
  · exact (neg_mul_neg v w).symm
  · exact (neg_mul v w).symm
  · exact (mul_neg v w).symm
  · rfl

theorem onSide_div (s t : Sign) (v w : ℝ) : onSide (s / t) (v / w) = onSide s v / onSide t w := by
  cases s <;> cases t
  · exact (neg_div_neg_eq v w).symm
  · exact (neg_div w v).symm
  · exact (div_neg v).symm
  · rfl

theorem finite_cases (h : IsFinite x) :
    (∃ s, parts x = .zero s) ∨ ∃ s m e hm, parts x = .finite s m e hm := by
  obtain ⟨hnum, hinf⟩ := parts_ne h
  cases hp : parts x with
  | infinity s => exact absurd hp (hinf s)
  | notANumber => exact absurd hp hnum
  | zero s => exact .inl ⟨s, rfl⟩
  | finite s m e hm => exact .inr ⟨s, m, e, hm, rfl⟩

theorem positive_parts (h : IsFinite x) (hpos : 0 < value x) :
    ∃ m e hm, parts x = .finite .positive m e hm := by
  rw [value] at hpos
  rcases finite_cases h with ⟨s, hp⟩ | ⟨s, m, e, hm, hp⟩
  · rw [hp, amount_zero] at hpos
    exact absurd hpos (lt_irrefl 0)
  · rw [hp] at hpos ⊢
    cases s with
    | positive => exact ⟨m, e, hm, rfl⟩
    | negative =>
      have hv : (0 : ℝ) ≤ m * 2 ^ e := by positivity
      exact absurd hpos (by simpa [amount, onSide] using hv)

theorem stores_zero (s : Sign) : Stores (Float.ofModel (.pack (.zero s))) 0 :=
  stores_pack (f := .zero s) trivial (by rw [amount_zero, rounding_of_nonneg le_rfl, rounded_zero])

theorem parts_mul (x y : Float) : x * y =
    Float.ofModel (.pack (UnpackedFloat.mul Format.binary64 (parts x) (parts y))) := rfl

theorem parts_sub (x y : Float) : x - y =
    Float.ofModel (.pack (UnpackedFloat.sub Format.binary64 (parts x) (parts y))) := rfl

theorem parts_div (x y : Float) : x / y =
    Float.ofModel (.pack (UnpackedFloat.div Format.binary64 (parts x) (parts y))) := rfl

theorem stores_mul (hx : IsFinite x) (hy : IsFinite y) : Stores (x * y) (value x * value y) := by
  rw [parts_mul, value, value]
  rcases finite_cases hx with ⟨s, hp⟩ | ⟨s, m, d, hm, hp⟩
  · rw [hp, amount_zero, zero_mul]
    rcases finite_cases hy with ⟨t, hq⟩ | ⟨t, n, e, hn, hq⟩ <;> rw [hq] <;> exact stores_zero _
  · rcases finite_cases hy with ⟨t, hq⟩ | ⟨t, n, e, hn, hq⟩
    · rw [hp, hq, amount_zero, mul_zero]
      exact stores_zero _
    · have hc : 52 ≤ (m * n).log2 ∨ d + e ≤ -1074 := by
        rw [Nat.le_log2 (Nat.mul_pos hm hn).ne']
        rcases (canonical_of_parts hp).1.full with hfull | hd
        · exact .inl (hfull.trans (Nat.le_mul_of_pos_right m hn))
        rcases (canonical_of_parts hq).1.full with hfull | he
        · exact .inl (hfull.trans (Nat.le_mul_of_pos_left n hm))
        · right
          omega
      have hpos : (0 : ℝ) < ((m * n : ℕ) : ℝ) := by exact_mod_cast Nat.mul_pos hm hn
      obtain ⟨hset, hamount⟩ := roundWithAccuracy_settled (s * t) (describes_exact (m * n)) hpos hc
      rw [onSide_rounded _ (by positivity)] at hamount
      have hvalue : onSide (s * t) (((m * n : ℕ) : ℝ) * 2 ^ (d + e)) =
          amount (.finite s m d hm) * amount (.finite t n e hn) := by
        rw [amount_finite, amount_finite, ← onSide_mul, Nat.cast_mul, zpow_add₀ two_ne_zero]
        congr 1
        ring
      rw [hp, hq, ← hvalue]
      exact stores_pack hset hamount

theorem aligned (m : ℕ) {e t : ℤ} (h : t ≤ e) :
    (((decreaseExponent m e t).1 : ℕ) : ℝ) * 2 ^ t = m * 2 ^ e := by
  obtain ⟨k, rfl⟩ := Int.le.dest h
  have hk : (t + k - t).toNat = k := by omega
  have hmant := amount_decreaseExponent m k (t + k)
  rw [Int.add_sub_cancel] at hmant
  rw [decreaseExponent, hk, Nat.shiftLeft_eq, hmant]

theorem onSide_aligned (s : Sign) (m : ℕ) {e t : ℤ} (h : t ≤ e) :
    ((s.apply ((decreaseExponent m e t).1 : ℕ) : ℤ) : ℝ) * 2 ^ t = onSide s (m * 2 ^ e) := by
  rw [apply_eq, ← aligned m h]
  cases s <;> simp [onSide]

theorem stores_add (hx : IsFinite x) (hy : IsFinite y) : Stores (x + y) (value x + value y) := by
  rcases finite_cases hx with ⟨s, hp⟩ | ⟨s, m, d, hm, hp⟩
  · have hzero : value x = 0 := by rw [value, hp, amount_zero]
    rw [hzero, zero_add, parts_add, hp]
    rcases finite_cases hy with ⟨t, hq⟩ | ⟨t, n, e, hn, hq⟩
    · rw [value, hq, amount_zero]
      cases s <;> cases t <;> exact stores_zero _
    · have hsum : UnpackedFloat.add Format.binary64 (.zero s) (parts y) = parts y := by
        rw [hq]
        rfl
      rw [hsum, ofParts_parts]
      exact stores_value hy
  · rcases finite_cases hy with ⟨t, hq⟩ | ⟨t, n, e, hn, hq⟩
    · have hzero : value y = 0 := by rw [value, hq, amount_zero]
      have hsum : UnpackedFloat.add Format.binary64 (parts x) (.zero t) = parts x := by
        rw [hp]
        rfl
      rw [hzero, add_comm (value x), zero_add, parts_add, hq, hsum, ofParts_parts]
      exact stores_value hx
    · have hnorm := normalize_settled (s.apply ((decreaseExponent m d (min d e)).1 : ℕ) +
        t.apply ((decreaseExponent n e (min d e)).1 : ℕ)) (min d e) .positive
      rw [Int.cast_add, add_mul, onSide_aligned s m (min_le_left d e),
        onSide_aligned t n (min_le_right d e)] at hnorm
      rw [parts_add, value, value, hp, hq]
      exact stores_pack hnorm.1 hnorm.2

theorem sub_parts (f g : UnpackedFloat) :
    UnpackedFloat.sub Format.binary64 f g = UnpackedFloat.add Format.binary64 f g.neg := by
  cases f with
  | finite s m d hm =>
    cases g with
    | finite t n e hn =>
      have happly (k : ℤ) : (-t).apply k = -t.apply k := by
        cases t with
        | negative => exact (Int.neg_neg k).symm
        | positive => rfl
      simp only [UnpackedFloat.sub, UnpackedFloat.neg, UnpackedFloat.add, happly,
        Int.sub_eq_add_neg]
    | _ => rfl
  | _ => cases g <;> rfl

theorem sub_eq (h : IsNumber y) : x - y = x + -y := by
  rw [parts_sub, sub_parts, parts_add, parts_neg h]

theorem stores_sub (hx : IsFinite x) (hy : IsFinite y) : Stores (x - y) (value x - value y) := by
  obtain ⟨hneg, hvalue⟩ := value_neg hy
  rw [sub_eq (parts_ne hy).1, sub_eq_add_neg, ← hvalue]
  exact stores_add hx hneg

section Infinities

theorem parts_of_bot (h : extended x = ⊥) : parts x = .infinity .negative := by
  unfold extended at h
  cases hp : parts x with
  | infinity s =>
    rw [hp] at h
    cases s with
    | positive => exact absurd h top_ne_bot
    | negative => rfl
  | _ =>
    rw [hp] at h
    exact absurd h (EReal.coe_ne_bot _)

theorem parts_of_top (h : extended x = ⊤) : parts x = .infinity .positive := by
  unfold extended at h
  cases hp : parts x with
  | infinity s =>
    rw [hp] at h
    cases s with
    | positive => rfl
    | negative => exact absurd h bot_ne_top
  | _ =>
    rw [hp] at h
    exact absurd h (EReal.coe_ne_top _)

theorem parts_infinity (s : Sign) :
    parts (Float.ofModel (.pack (.infinity s))) = .infinity s := unpack_infinity s

theorem parts_notANumber : parts (Float.ofModel (.pack .notANumber)) = .notANumber := rfl

theorem add_notANumber (f : UnpackedFloat) :
    UnpackedFloat.add Format.binary64 .notANumber f = .notANumber ∧
      UnpackedFloat.add Format.binary64 f .notANumber = .notANumber := by
  cases f <;> exact ⟨rfl, rfl⟩

theorem mul_notANumber (f : UnpackedFloat) :
    UnpackedFloat.mul Format.binary64 .notANumber f = .notANumber ∧
      UnpackedFloat.mul Format.binary64 f .notANumber = .notANumber := by
  cases f <;> exact ⟨rfl, rfl⟩

theorem isNumber_of_add (h : IsNumber (x + y)) : IsNumber x ∧ IsNumber y := by
  rw [IsNumber, parts_add] at h
  refine ⟨fun hx ↦ h ?_, fun hy ↦ h ?_⟩
  · rw [hx, (add_notANumber _).1, parts_notANumber]
  · rw [hy, (add_notANumber _).2, parts_notANumber]

theorem isNumber_of_mul (h : IsNumber (x * y)) : IsNumber x ∧ IsNumber y := by
  rw [IsNumber, parts_mul] at h
  refine ⟨fun hx ↦ h ?_, fun hy ↦ h ?_⟩
  · rw [hx, (mul_notANumber _).1, parts_notANumber]
  · rw [hy, (mul_notANumber _).2, parts_notANumber]

theorem add_infinity (s : Sign) (f : UnpackedFloat) :
    (UnpackedFloat.add Format.binary64 (.infinity s) f = .infinity s ∨
      UnpackedFloat.add Format.binary64 (.infinity s) f = .notANumber) ∧
    (UnpackedFloat.add Format.binary64 f (.infinity s) = .infinity s ∨
      UnpackedFloat.add Format.binary64 f (.infinity s) = .notANumber) := by
  cases f with
  | infinity t =>
    cases s <;> cases t <;> first | exact ⟨.inl rfl, .inl rfl⟩ | exact ⟨.inr rfl, .inr rfl⟩
  | notANumber => exact ⟨.inr rfl, .inr rfl⟩
  | _ => exact ⟨.inl rfl, .inl rfl⟩

theorem parts_add_infinity {s : Sign} (h : IsNumber (x + y))
    (hs : parts x = .infinity s ∨ parts y = .infinity s) : parts (x + y) = .infinity s := by
  rw [IsNumber, parts_add] at h
  rw [parts_add]
  rcases hs with hs | hs <;> rw [hs] at h ⊢
  · rcases (add_infinity s (parts y)).1 with he | he <;> rw [he] at h ⊢
    · exact parts_infinity s
    · exact absurd parts_notANumber h
  · rcases (add_infinity s (parts x)).2 with he | he <;> rw [he] at h ⊢
    · exact parts_infinity s
    · exact absurd parts_notANumber h

theorem parts_add_of_isFinite {s : Sign} (hx : IsFinite x) (hy : parts y = .infinity s) :
    parts (x + y) = .infinity s := by
  have hadd : UnpackedFloat.add Format.binary64 (parts x) (.infinity s) = .infinity s := by
    rcases finite_cases hx with ⟨t, hp⟩ | ⟨t, m, e, hm, hp⟩ <;> rw [hp] <;> rfl
  rw [parts_add, hy, hadd, parts_infinity]

theorem parts_mul_infinity {s : Sign} (hx : IsFinite x) (hpos : 0 < value x)
    (hy : parts y = .infinity s) : parts (x * y) = .infinity s := by
  obtain ⟨m, e, hm, hp⟩ := positive_parts hx hpos
  have hmul : UnpackedFloat.mul Format.binary64 (.finite .positive m e hm) (.infinity s) =
      .infinity s := by cases s <;> rfl
  rw [parts_mul, hy, hp, hmul, parts_infinity]

/-- Only zero times an infinity is no number. -/
theorem isNumber_mul (hx : IsFinite x) (hne : value x ≠ 0) (hy : IsNumber y) :
    IsNumber (x * y) ∧ IsNumber (y * x) := by
  by_cases hfin : IsFinite y
  · exact ⟨(stores_mul hx hfin).isNumber, (stores_mul hfin hx).isNumber⟩
  rcases parts_of_not_isFinite hfin with hp | ⟨s, hp⟩
  · exact absurd hp hy
  rcases finite_cases hx with ⟨t, hq⟩ | ⟨t, m, e, hm, hq⟩
  · exact absurd (by rw [value, hq, amount_zero]) hne
  have hmul : ∃ r, UnpackedFloat.mul Format.binary64 (.finite t m e hm) (.infinity s) =
      .infinity r ∧ UnpackedFloat.mul Format.binary64 (.infinity s) (.finite t m e hm) =
      .infinity r := by cases s <;> cases t <;> exact ⟨_, rfl, rfl⟩
  obtain ⟨r, hleft, hright⟩ := hmul
  rw [IsNumber, IsNumber, parts_mul, parts_mul, hp, hq, hleft, hright, parts_infinity]
  simp

end Infinities

section Division

variable {m n : ℕ} {d e : ℤ}

theorem divCore_eq (hm : 0 < m) (hn : 0 < n) (d e : ℤ) :
    ∃ k : ℕ, divCore Format.binary64 m d n e =
        (m * 2 ^ k / n, d - e - k, accuracyOfFraction (m * 2 ^ k % n) n) ∧
      (52 ≤ (m * 2 ^ k / n).log2 ∨ d - e - k ≤ -1074) := by
  have htarget : Format.binary64.targetExponent (totalExponent m d - totalExponent n e) =
      max (m.log2 + d - (n.log2 + e) - 53) (-1074) := by
    simp only [Format.targetExponent, totalExponent, Format.mantissaBits, Format.minExponent]
    omega
  generalize ht : min (d - e) (max ((m.log2 : ℤ) + d - (n.log2 + e) - 53) (-1074)) = t
  obtain ⟨k, hk⟩ := Int.le.dest (show t ≤ d - e by omega)
  have hshift : (d - e - t).toNat = k := by omega
  refine ⟨k, ?_, ?_⟩
  · rw [divCore, htarget, ht]
    simp only [hshift, Nat.shiftLeft_eq]
    rw [show d - e - (k : ℤ) = t by omega]
  · rw [or_iff_not_imp_right]
    intro hlarge
    have hbits : n.log2 + 53 ≤ m.log2 + k := by omega
    have hle : 2 ^ 52 * n ≤ m * 2 ^ k :=
      calc 2 ^ 52 * n ≤ 2 ^ 52 * 2 ^ (n.log2 + 1) :=
            Nat.mul_le_mul_left _ Nat.lt_log2_self.le
        _ = 2 ^ (n.log2 + 53) := by rw [← Nat.pow_add]; congr 1; omega
        _ ≤ 2 ^ (m.log2 + k) := Nat.pow_le_pow_right (by decide) hbits
        _ = 2 ^ m.log2 * 2 ^ k := Nat.pow_add _ _ _
        _ ≤ m * 2 ^ k := Nat.mul_le_mul_right _ (Nat.log2_self_le hm.ne')
    have hq := (Nat.le_div_iff_mul_le hn).2 hle
    exact (Nat.le_log2 (by omega)).2 hq

theorem stores_div_parts (s t : Sign) (hm : 0 < m) (hn : 0 < n) (d e : ℤ) :
    Stores (Float.ofModel (.pack (UnpackedFloat.div Format.binary64 (.finite s m d hm)
      (.finite t n e hn)))) (onSide s (m * 2 ^ d) / onSide t (n * 2 ^ e)) := by
  obtain ⟨k, hk, hc⟩ := divCore_eq hm hn d e
  have hm' : (0 : ℝ) < m := by exact_mod_cast hm
  have hn' : (0 : ℝ) < n := by exact_mod_cast hn
  have hquotient : ((m * 2 ^ k : ℕ) : ℝ) / n * 2 ^ (d - e - k) = m * 2 ^ d / (n * 2 ^ e) := by
    rw [div_mul_eq_mul_div, amount_decreaseExponent, zpow_sub₀ two_ne_zero]
    field_simp
  have hpos : (0 : ℝ) < ((m * 2 ^ k : ℕ) : ℝ) / n := by positivity
  obtain ⟨hset, hamount⟩ :=
    roundWithAccuracy_settled (s / t) (describes_quotient (m * 2 ^ k) hn) hpos hc
  rw [hquotient, onSide_rounded _ (by positivity), onSide_div] at hamount
  have hdiv : UnpackedFloat.div Format.binary64 (.finite s m d hm) (.finite t n e hn) =
      roundWithAccuracy Format.binary64 (s / t) (m * 2 ^ k / n) (d - e - k)
        (accuracyOfFraction (m * 2 ^ k % n) n) := by
    rw [UnpackedFloat.div, hk]
  rw [hdiv]
  exact stores_pack hset hamount

/-- The quotient of finite numbers, but by zero, is stored as the exact one. -/
theorem stores_div (hx : IsFinite x) (hy : IsFinite y) (hne : value y ≠ 0) :
    Stores (x / y) (value x / value y) := by
  rw [value] at hne
  rw [parts_div, value, value]
  rcases finite_cases hy with ⟨t, hq⟩ | ⟨t, n, e, hn, hq⟩
  · exact absurd (by rw [hq, amount_zero]) hne
  rcases finite_cases hx with ⟨s, hp⟩ | ⟨s, m, d, hm, hp⟩
  · rw [hp, hq, amount_zero, zero_div]
    exact stores_zero _
  · rw [hp, hq, amount_finite, amount_finite]
    exact stores_div_parts s t hm hn d e

end Division

end Operations

section Decimals

variable {m e : ℕ}

theorem value_toFloat (hlt : m < 2 ^ 53) :
    IsFinite m.toUInt64.toFloat ∧ value m.toUInt64.toFloat = m := by
  have hword : m.toUInt64.toNat = m := by
    change m % 2 ^ 64 = m
    omega
  have hnorm := normalize_settled (m : ℤ) 0 .positive
  rw [zpow_zero, mul_one, Int.cast_natCast] at hnorm
  have hparts : m.toUInt64.toFloat =
      Float.ofModel (.pack (UnpackedFloat.normalize Format.binary64 (m : ℤ) 0 .positive)) := by
    change Float.ofModel (.pack (UnpackedFloat.normalize Format.binary64
      (m.toUInt64.toNat : ℤ) 0 .positive)) = _
    rw [hword]
  have hm : (0 : ℝ) ≤ m := Nat.cast_nonneg m
  rw [hparts]
  refine (stores_pack hnorm.1 hnorm.2).value_eq (stored_of_dyadic ?_ ?_)
  · rw [abs_of_nonneg hm]
    exact ⟨m, 0, hlt, by decide, by rw [zpow_zero, mul_one]⟩
  · rw [abs_of_nonneg hm]
    refine lt_of_lt_of_le ?_ (two_zpow_mono (show (53 : ℤ) ≤ 1024 by decide))
    exact_mod_cast hlt

def isPowerOfTen (e : ℕ) : UnpackedFloat → Bool
  | .finite .positive k d _ => k * 2 ^ d.toNat == 10 ^ e * 2 ^ (-d).toNat
  | _ => false

theorem value_of_isPowerOfTen {x : Float} (h : isPowerOfTen e (parts x) = true) :
    IsFinite x ∧ value x = 10 ^ e := by
  cases hp : parts x with
  | finite s k d hk =>
    rw [hp] at h
    cases s with
    | negative => cases h
    | positive =>
      refine ⟨isFinite_of_parts hp, ?_⟩
      have hnat : (k : ℝ) * 2 ^ d.toNat = 10 ^ e * 2 ^ (-d).toNat := by
        exact_mod_cast beq_iff_eq.1 h
      have hd : (2 : ℝ) ^ d = 2 ^ d.toNat / 2 ^ (-d).toNat := by
        rw [eq_div_iff (by positivity), ← zpow_natCast, ← zpow_natCast, ← zpow_add₀ two_ne_zero]
        congr 1
        omega
      rw [value, hp, amount_finite, onSide, hd, mul_div_assoc', hnat,
        mul_div_cancel_right₀ _ (by positivity)]
  | _ =>
    rw [hp] at h
    cases h

theorem isPowerOfTen_table : ∀ e : Fin 23,
    isPowerOfTen e (parts (Float.exactlyRepresentablePowersOfTen[(e : ℕ)])) = true := by
  decide +kernel

theorem rounding_tiny (h : m.log2 + 400 < e) : rounding (m / 10 ^ e) = 0 := by
  have hm : (m : ℝ) < 2 ^ (m.log2 + 1) := by exact_mod_cast Nat.lt_log2_self (n := m)
  have hten : (2 : ℝ) ^ (3 * e) ≤ 10 ^ e := by
    rw [pow_mul]
    exact pow_le_pow_left₀ (by norm_num) (by norm_num) e
  rw [rounding_of_nonneg (by positivity)]
  refine rounded_tiny (by positivity) ((div_lt_iff₀ (by positivity)).2 ?_)
  calc (m : ℝ) < 2 ^ (m.log2 + 1) := hm
    _ = 2 ^ ((m.log2 + 1 : ℕ) : ℤ) := (zpow_natCast _ _).symm
    _ ≤ 2 ^ (-1075 + ((3 * e : ℕ) : ℤ)) := two_zpow_mono (by omega)
    _ = 2 ^ (-1075 : ℤ) * 2 ^ (3 * e) := by rw [zpow_add₀ two_ne_zero, zpow_natCast]
    _ ≤ 2 ^ (-1075 : ℤ) * 10 ^ e := mul_le_mul_of_nonneg_left hten (two_zpow_pos _).le

/-- With few digits and places both parts of the quotient are numbers of 53 bits. -/
theorem stores_ofScientific_fast (hlt : m < 2 ^ 53) (he : e ≤ 22) :
    Stores (Float.ofScientific m (decide (0 < e)) e) (m / 10 ^ e) := by
  obtain ⟨hfin, hvalue⟩ := value_toFloat hlt
  obtain ⟨hpow, hten⟩ := value_of_isPowerOfTen (isPowerOfTen_table ⟨e, by omega⟩)
  rw [Float.ofScientific, dif_pos ⟨hlt, he⟩]
  rcases Nat.eq_zero_or_pos e with rfl | hpos
  · have hmul := stores_mul hfin hpow
    rw [hvalue, hten, pow_zero, mul_one] at hmul
    rw [pow_zero, div_one]
    exact hmul
  · have hdiv := stores_div hfin hpow (by rw [hten]; positivity)
    rw [hvalue, hten] at hdiv
    rw [decide_eq_true hpos]
    exact hdiv

theorem stores_power_parts (hm : 0 < m) (he : e ≤ 2048) :
    Stores (Float.ofModel (.pack (UnpackedFloat.ofScientific Format.binary64 m e)))
      (m * 10 ^ e) := by
  have hne : m * 10 ^ e ≠ 0 := (Nat.mul_pos hm (by positivity)).ne'
  have hlog : 52 ≤ (m * 10 ^ e * 2 ^ 53).log2 ∨ (-53 : ℤ) ≤ -1074 := by
    rw [log2_mul_two_pow hne]
    omega
  have hpos : (0 : ℝ) < ((m * 10 ^ e * 2 ^ 53 : ℕ) : ℝ) := by
    exact_mod_cast Nat.mul_pos (Nat.pos_of_ne_zero hne) (by decide)
  obtain ⟨hset, hamount⟩ := roundWithAccuracy_settled .positive (describes_exact _) hpos hlog
  have hvalue : ((m * 10 ^ e * 2 ^ 53 : ℕ) : ℝ) * 2 ^ (-53 : ℤ) = m * 10 ^ e := by
    have h := amount_decreaseExponent (m * 10 ^ e) 53 0
    rw [zpow_zero, mul_one] at h
    push_cast at h ⊢
    exact h
  rw [hvalue, onSide_rounded _ (by positivity)] at hamount
  have hparts : UnpackedFloat.ofScientific Format.binary64 m e =
      roundWithAccuracy Format.binary64 .positive (m * 10 ^ e * 2 ^ 53) (-53) .exact := by
    have hmul : m * 10 ^ e * 2 ^ 53 = (m <<< 53) * 10 ^ (e : ℤ).toNat := by
      rw [Int.toNat_natCast, Nat.shiftLeft_eq, Nat.mul_right_comm]
    rw [UnpackedFloat.ofScientific, dif_neg hm.ne', if_neg (by
      change ¬ (2 ^ 11 : ℤ) < e
      omega), if_neg (by
      change ¬ (e : ℤ) < -((2 ^ 11 : ℤ) + (m.log2 : ℤ))
      omega), if_pos (by omega), hmul]
    rfl
  rw [hparts]
  exact stores_pack hset hamount

theorem stores_fraction_parts (hm : 0 < m) (he : 0 < e) :
    Stores (Float.ofModel (.pack (UnpackedFloat.ofScientific Format.binary64 m (-(e : ℤ)))))
      (m / 10 ^ e) := by
  rw [UnpackedFloat.ofScientific, dif_neg hm.ne', if_neg (by
    change ¬ (2 ^ 11 : ℤ) < -(e : ℤ)
    omega)]
  split
  next h =>
    have htiny : m.log2 + 400 < e := by
      change -(e : ℤ) < -((2 ^ 11 : ℤ) + (m.log2 : ℤ)) at h
      omega
    exact stores_pack (f := .zero .positive) trivial (rounding_tiny htiny ▸ amount_zero _)
  next =>
    have hdiv := stores_div_parts .positive .positive hm (Nat.pow_pos (by decide) : 0 < 10 ^ (- -(e : ℤ)).toNat) 0 0
    rw [if_neg (by omega)]
    rw [zpow_zero, mul_one, mul_one] at hdiv
    have hcast : ((10 ^ (- -(e : ℤ)).toNat : ℕ) : ℝ) = 10 ^ e := by
      rw [neg_neg, Int.toNat_natCast, Nat.cast_pow, Nat.cast_ofNat]
    rwa [hcast] at hdiv

theorem stores_ofScientific_slow (hm : 0 < m) (h : ¬ (m < 2 ^ 53 ∧ e ≤ 22)) :
    Stores (Float.ofScientific m (decide (0 < e)) e) (m / 10 ^ e) := by
  rw [Float.ofScientific, dif_neg h]
  rcases Nat.eq_zero_or_pos e with rfl | hpos
  · have hwhole := stores_power_parts hm (Nat.zero_le 2048)
    rwa [pow_zero, mul_one, ← div_one (m : ℝ), ← pow_zero (10 : ℝ)] at hwhole
  · have hneg : Int.negOfNat e = -(e : ℤ) := Int.negOfNat_eq
    rw [decide_eq_true hpos, if_pos rfl, hneg]
    exact stores_fraction_parts hm hpos

theorem stores_ofDecimal (m e : ℕ) : Stores (ofDecimal m (-(e : ℤ))) (m / 10 ^ e) := by
  rw [ofDecimal]
  split
  next h =>
    rw [h, Nat.cast_zero, zero_div]
    exact stores_zero .positive
  next h =>
    rw [if_neg (by omega)]
    split
    next htiny =>
      have hzero := rounding_tiny (m := m) (e := e) (by omega)
      exact stores_pack (f := .zero .positive) trivial (hzero ▸ amount_zero _)
    next =>
      have hm := Nat.pos_of_ne_zero h
      rw [show decide (-(e : ℤ) < 0) = decide (0 < e) by simp, Int.natAbs_neg, Int.natAbs_natCast]
      by_cases hfast : m < 2 ^ 53 ∧ e ≤ 22
      · exact stores_ofScientific_fast hfast.1 hfast.2
      · exact stores_ofScientific_slow hm hfast

/-- With a power of ten that is not too great there is one product to be rounded. -/
theorem stores_ofScientific_power (hm : 0 < m) (he : e ≤ 2048) :
    Stores (Float.ofScientific m false e) (m * 10 ^ e) := by
  rw [Float.ofScientific]
  split
  next h =>
    obtain ⟨hfin, hvalue⟩ := value_toFloat h.1
    obtain ⟨hpow, hten⟩ := value_of_isPowerOfTen (isPowerOfTen_table ⟨e, by omega⟩)
    have hmul := stores_mul hfin hpow
    rwa [hvalue, hten] at hmul
  next => exact stores_power_parts hm he

theorem stores_infinity {r : ℝ} (h : threshold ≤ r) : Stores infinity r := by
  have hparts : parts infinity = .infinity .positive := rfl
  refine ⟨by simp [IsNumber, hparts], ?_⟩
  rw [stored_eq_top_iff.2 h, extended, hparts]
  rfl

theorem threshold_le_power (hm : 0 < m) (he : 310 < e) : threshold ≤ m * 10 ^ e := by
  have hbound : bound = ((2 ^ 1024 : ℕ) : ℝ) := by
    rw [Nat.cast_pow, Nat.cast_ofNat]
    exact zpow_natCast (2 : ℝ) 1024
  have hnat : 2 ^ 1024 ≤ m * 10 ^ e :=
    calc 2 ^ 1024 ≤ 10 ^ 311 := by decide +kernel
      _ ≤ 10 ^ e := Nat.pow_le_pow_right (by decide) he
      _ ≤ m * 10 ^ e := Nat.le_mul_of_pos_left _ hm
  calc threshold ≤ bound := sub_le_self bound (two_zpow_pos 970).le
    _ = ((2 ^ 1024 : ℕ) : ℝ) := hbound
    _ ≤ ((m * 10 ^ e : ℕ) : ℝ) := Nat.cast_le.2 hnat
    _ = m * 10 ^ e := by push_cast; rfl

theorem stores_ofDecimal_power (m e : ℕ) : Stores (ofDecimal m e) (m * 10 ^ e) := by
  rw [ofDecimal]
  split
  next h =>
    rw [h, Nat.cast_zero, zero_mul]
    exact stores_zero .positive
  next h =>
    have hm := Nat.pos_of_ne_zero h
    split
    next hlarge => exact stores_infinity (threshold_le_power hm (by omega))
    next =>
      rw [if_neg (by omega), decide_eq_false (by omega), Int.natAbs_natCast]
      exact stores_ofScientific_power hm (by omega)

/-- A decimal number is read as what it is stored as, whatever its exponent. -/
theorem stores_ofDecimal_zpow (m : ℕ) (e : ℤ) : Stores (ofDecimal m e) (m * 10 ^ e) := by
  obtain ⟨k, rfl | rfl⟩ := Int.eq_nat_or_neg e
  · rw [zpow_natCast]
    exact stores_ofDecimal_power m k
  · rw [zpow_neg, zpow_natCast, ← div_eq_mul_inv]
    exact stores_ofDecimal m k

theorem stores_ofNumeral (n : Numeral) :
    Stores (Coordinate.ofNumeral n) (Coordinate.ofNumeral n : ℝ) := by
  have hread := stores_ofDecimal n.digits n.places
  change Stores (if n.negative = true then -(ofDecimal n.digits (-(n.places : ℤ)))
    else ofDecimal n.digits (-(n.places : ℤ)))
      ((if n.negative then -1 else 1) * n.digits / 10 ^ n.places)
  cases n.negative with
  | true => simpa [neg_div] using hread.neg
  | false => simpa using hread

theorem stores_ofInt (n : ℤ) : Stores (ofInt n) n := by
  have hread := stores_ofDecimal n.natAbs 0
  rw [Nat.cast_zero, neg_zero, pow_zero, div_one] at hread
  rw [ofInt]
  split
  next h =>
    have hneg := hread.neg
    rwa [Nat.cast_natAbs, abs_of_neg h, Int.cast_neg, neg_neg] at hneg
  next h =>
    rwa [Nat.cast_natAbs, abs_of_nonneg (not_lt.1 h)] at hread

end Decimals

end

end StepAndRepeat.Binary
