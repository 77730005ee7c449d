import StepAndRepeat.Proofs.Number.Nearest
import StepAndRepeat.Proofs.Number.Order

namespace StepAndRepeat.Binary

open Float.Model Float.Model.UnpackedFloat

noncomputable section

section Residue

/-- A mantissa and its residual bits tell a number from the whole numbers around it and from the
middle between them. -/
def Describes : ExtendedMantissa → ℝ → Prop
  | ⟨m, false, false⟩, x => x = m
  | ⟨m, false, true⟩, x => m < x ∧ x - m < m + 1 - x
  | ⟨m, true, false⟩, x => x - m = m + 1 - x
  | ⟨m, true, true⟩, x => m + 1 - x < x - m ∧ x < m + 1

variable {em : ExtendedMantissa} {x : ℝ}

theorem Describes.shiftRightOne (h : Describes em x) : Describes em.shiftRightOne (x / 2) := by
  obtain ⟨m, r, s⟩ := em
  rcases m.even_or_odd' with ⟨k, rfl | rfl⟩
  · have hk : 2 * k / 2 = k := by omega
    have hr : (2 * k % 2 != 0) = false := by simp
    cases r <;> cases s <;> simp only [Describes, ExtendedMantissa.shiftRightOne, hk, hr,
      Bool.or_false, Bool.or_true] at h ⊢ <;> push_cast at h <;>
      first | linarith | (constructor <;> linarith)
  · have hk : (2 * k + 1) / 2 = k := by omega
    have hr : ((2 * k + 1) % 2 != 0) = true := by simp
    cases r <;> cases s <;> simp only [Describes, ExtendedMantissa.shiftRightOne, hk, hr,
      Bool.or_false, Bool.or_true] at h ⊢ <;> push_cast at h <;>
      first | linarith | (constructor <;> linarith)

theorem Describes.shiftRight (h : Describes em x) (n : ℕ) : Describes (em >>> n) (x / 2 ^ n) := by
  induction n with
  | zero =>
    rw [pow_zero, div_one]
    exact h
  | succ n ih =>
    rw [pow_succ, ← div_div]
    exact ih.shiftRightOne

theorem Describes.floor_eq (h : Describes em x) : ⌊x⌋₊ = em.mantissa := by
  obtain ⟨m, r, s⟩ := em
  have hm : (0 : ℝ) ≤ m := Nat.cast_nonneg m
  have hx : (m : ℝ) ≤ x ∧ x < m + 1 := by
    cases r <;> cases s <;> simp only [Describes] at h <;> constructor <;> linarith
  exact (Nat.floor_eq_iff (hm.trans hx.1)).2 hx

theorem Describes.roundedMantissa_eq (h : Describes em x) : em.roundedMantissa = nearest x := by
  have hf := h.floor_eq
  obtain ⟨m, r, s⟩ := em
  dsimp only at hf
  unfold nearest
  rw [hf]
  cases r <;> cases s <;> simp only [Describes] at h <;>
    simp only [ExtendedMantissa.roundedMantissa, ExtendedMantissa.accuracy,
      Accuracy.roundToNearestEven] <;>
    split_ifs <;> first | rfl | omega | (exfalso; linarith)

theorem describes_exact (m : ℕ) :
    Describes (ExtendedMantissa.ofMantissaAndAccuracy m .exact) m := rfl

/-- The remainder of a division tells where the quotient lies. -/
theorem describes_quotient (num : ℕ) {den : ℕ} (hden : 0 < den) :
    Describes (ExtendedMantissa.ofMantissaAndAccuracy (num / den)
      (accuracyOfFraction (num % den) den)) (num / den) := by
  have hd : (0 : ℝ) < den := by exact_mod_cast hden
  have hmod : ((num % den : ℕ) : ℝ) < den := by exact_mod_cast Nat.mod_lt num hden
  have hnum : (num : ℝ) / den = (num / den : ℕ) + (num % den : ℕ) / den := by
    rw [eq_comm, ← mul_right_inj' hd.ne', mul_add, mul_div_cancel₀ _ hd.ne',
      mul_div_cancel₀ _ hd.ne']
    exact_mod_cast Nat.div_add_mod num den
  rw [hnum]
  generalize num / den = q
  generalize num % den = r at hmod
  unfold accuracyOfFraction
  split
  next h => simp [h, ExtendedMantissa.ofMantissaAndAccuracy, Describes]
  next h =>
    have hr : (0 : ℝ) < r := by exact_mod_cast Nat.pos_of_ne_zero h
    have hone : (r : ℝ) / den < 1 := (div_lt_one hd).2 hmod
    rcases lt_trichotomy (2 * r) den with hlt | heq | hgt
    · have hc : (2 * r : ℝ) < den := by exact_mod_cast hlt
      have hhalf : (r : ℝ) / den < 1 / 2 := (div_lt_iff₀ hd).2 (by linarith)
      rw [Nat.compare_eq_lt.2 hlt]
      constructor <;> linarith [div_pos hr hd]
    · have hc : (2 * r : ℝ) = den := by exact_mod_cast heq
      have hhalf : (r : ℝ) / den = 1 / 2 := (div_eq_iff hd.ne').2 (by linarith)
      rw [Nat.compare_eq_eq.2 heq]
      exact (by linarith : (q : ℝ) + r / den - q = q + 1 - (q + r / den))
    · have hc : (den : ℝ) < 2 * r := by exact_mod_cast hgt
      have hhalf : 1 / 2 < (r : ℝ) / den := (lt_div_iff₀ hd).2 (by linarith)
      rw [Nat.compare_eq_gt.2 hgt]
      constructor <;> linarith

end Residue

section Rounding

/-- A number on one side of zero. -/
def onSide : Sign → ℝ → ℝ
  | .negative, v => -v
  | .positive, v => v

theorem onSide_zero (s : Sign) : onSide s 0 = 0 := by cases s <;> simp [onSide]

def amount : UnpackedFloat → ℝ
  | .finite s m e _ => onSide s (m * (2 : ℕ) ^ e)
  | _ => 0

theorem amount_finite (s : Sign) (m : ℕ) (e : ℤ) (hm : 0 < m) :
    amount (.finite s m e hm) = onSide s (m * 2 ^ e) := rfl

theorem amount_zero (s : Sign) : amount (.zero s) = 0 := rfl

/-- The digits and the exponent that a number has when it is packed, but for an exponent that is too
large. -/
structure Canonical (m : ℕ) (e : ℤ) : Prop where
  lt : m < 2 ^ 53
  least : -1074 ≤ e
  full : 2 ^ 52 ≤ m ∨ e = -1074

/-- A zero, or a number in the form in which it is packed. -/
def Settled : UnpackedFloat → Prop
  | .zero _ => True
  | .finite _ m e _ => Canonical m e
  | _ => False

variable {m : ℕ} {e t : ℤ} {acc : Accuracy} {x : ℝ}

theorem targetExponent_eq (m : ℕ) (e : ℤ) :
    Format.binary64.targetExponent (totalExponent m e) = max (m.log2 + e - 52) (-1074) := by
  simp only [Format.targetExponent, totalExponent, Format.mantissaBits, Format.minExponent]
  omega

theorem Describes.le_of_exact_bits
    (hx : Describes (ExtendedMantissa.ofMantissaAndAccuracy m acc) x) (hpos : 0 < x) :
    (m : ℝ) ≤ x ∧ x < m + 1 := by
  have hm : (ExtendedMantissa.ofMantissaAndAccuracy m acc).mantissa = m := by
    rcases acc with _ | (_ | _ | _) <;> rfl
  have hf := hx.floor_eq
  rw [hm] at hf
  exact (Nat.floor_eq_iff hpos.le).1 hf

theorem lastBit_eq (hx : Describes (ExtendedMantissa.ofMantissaAndAccuracy m acc) x) (hpos : 0 < x)
    (hc : 52 ≤ m.log2 ∨ e ≤ -1074) :
    lastBit (x * 2 ^ e) = Format.binary64.targetExponent (totalExponent m e) := by
  obtain ⟨hlow, hhigh⟩ := hx.le_of_exact_bits hpos
  have hr : 0 < x * 2 ^ e := mul_pos hpos (two_zpow_pos e)
  have hlt : x * 2 ^ e < (2 : ℕ) ^ (e + (m.log2 + 1 : ℕ)) := by
    have hm : (m : ℝ) + 1 ≤ ((2 ^ (m.log2 + 1) : ℕ) : ℝ) := by
      exact_mod_cast Nat.lt_log2_self (n := m)
    rw [Nat.cast_ofNat, two_zpow_add]
    exact mul_lt_mul_of_pos_right (hhigh.trans_le hm) (two_zpow_pos e)
  have hlog := (Int.lt_zpow_iff_log_lt (by decide) hr).1 hlt
  rw [targetExponent_eq, lastBit]
  rcases Nat.eq_zero_or_pos m with rfl | hm
  · rw [Nat.log2_zero] at hlog hc ⊢
    omega
  · have hle : ((2 : ℕ) : ℝ) ^ (e + (m.log2 : ℕ)) ≤ x * 2 ^ e := by
      have hm' : ((2 ^ m.log2 : ℕ) : ℝ) ≤ m := by exact_mod_cast Nat.log2_self_le hm.ne'
      rw [Nat.cast_ofNat, two_zpow_add]
      exact mul_le_mul_of_nonneg_right (hm'.trans hlow) (two_zpow_pos e).le
    have hlog' := (Int.zpow_le_iff_le_log (by decide) hr).1 hle
    omega

theorem shift_small (hm : m < 2 ^ 53) (ht : -1074 ≤ t) :
    shiftToTargetExponent Format.binary64 m t .exact =
      (ExtendedMantissa.ofMantissaAndAccuracy m .exact, t) := by
  have hlog : m.log2 ≤ 52 := by
    by_cases h : m = 0
    · rw [h]
      decide
    · exact Nat.le_of_lt_succ ((Nat.log2_lt h).2 hm)
  have hzero : (Format.binary64.targetExponent (totalExponent m t) - t).toNat = 0 := by
    rw [targetExponent_eq]
    omega
  rw [shiftToTargetExponent, shiftToExponent, hzero, Int.natCast_zero, Int.add_zero]
  rfl

theorem shift_carry (ht : -1074 ≤ t) :
    shiftToTargetExponent Format.binary64 (2 ^ 53) t .exact =
      (ExtendedMantissa.ofMantissaAndAccuracy (2 ^ 52) .exact, t + 1) := by
  have hone : (Format.binary64.targetExponent (totalExponent (2 ^ 53) t) - t).toNat = 1 := by
    rw [targetExponent_eq, Nat.log2_two_pow]
    omega
  rw [shiftToTargetExponent, shiftToExponent, hone]
  rfl

/-- The first shift leaves the digits that are kept, before they are rounded. -/
theorem shift_eq (hx : Describes (ExtendedMantissa.ofMantissaAndAccuracy m acc) x) (hpos : 0 < x)
    (hc : 52 ≤ m.log2 ∨ e ≤ -1074) :
    ∃ em, shiftToTargetExponent Format.binary64 m e acc = (em, lastBit (x * 2 ^ e)) ∧
      em.roundedMantissa = digits (x * 2 ^ e) := by
  have ht := lastBit_eq hx hpos hc
  have hle : e ≤ lastBit (x * 2 ^ e) := by
    rw [ht, targetExponent_eq]
    omega
  obtain ⟨d, hd⟩ := Int.le.dest hle
  have hshift : (lastBit (x * 2 ^ e) - e).toNat = d := by omega
  refine ⟨ExtendedMantissa.ofMantissaAndAccuracy m acc >>> d, ?_, ?_⟩
  · rw [shiftToTargetExponent, ← ht, shiftToExponent, hshift, hd]
  · rw [(hx.shiftRight d).roundedMantissa_eq, digits_def, ← hd, two_zpow_add, Nat.cast_pow,
      Nat.cast_ofNat, mul_div_mul_right _ _ (two_zpow_pos e).ne']

/-- Rounding yields the nearest number on the same side, in the form in which it is packed. -/
theorem roundWithAccuracy_settled (s : Sign)
    (hx : Describes (ExtendedMantissa.ofMantissaAndAccuracy m acc) x) (hpos : 0 < x)
    (hc : 52 ≤ m.log2 ∨ e ≤ -1074) :
    Settled (roundWithAccuracy Format.binary64 s m e acc) ∧
      amount (roundWithAccuracy Format.binary64 s m e acc) = onSide s (rounded (x * 2 ^ e)) := by
  obtain ⟨em, hem, hdigits⟩ := shift_eq hx hpos hc
  have hr : 0 < x * 2 ^ e := mul_pos hpos (two_zpow_pos e)
  have hleast := least_le_lastBit (x * 2 ^ e)
  have hfull : 2 ^ 52 ≤ digits (x * 2 ^ e) ∨ lastBit (x * 2 ^ e) = -1074 :=
    hleast.lt_or_eq.imp (two_pow_le_digits hr) Eq.symm
  rw [roundWithAccuracy, hem, rounded_def]
  dsimp only
  rw [hdigits]
  rcases (digits_le_two_pow (x * 2 ^ e)).lt_or_eq with hlt | heq
  · rw [shift_small hlt hleast]
    split
    next h =>
      rw [show digits (x * 2 ^ e) = 0 from h, Nat.cast_zero, zero_mul]
      exact ⟨trivial, (onSide_zero s).symm⟩
    next h => exact ⟨⟨hlt, hleast, hfull⟩, rfl⟩
  · rw [heq, shift_carry hleast]
    refine ⟨⟨(by decide : 2 ^ 52 < 2 ^ 53), by dsimp only; omega, .inl le_rfl⟩, ?_⟩
    have hstep := two_zpow_add (lastBit (x * 2 ^ e)) 1
    change onSide s (((2 ^ 52 : ℕ) : ℝ) * 2 ^ (lastBit (x * 2 ^ e) + (1 : ℕ))) = _
    rw [hstep, ← mul_assoc, ← Nat.cast_mul, ← pow_add]

theorem amount_decreaseExponent (m k : ℕ) (e : ℤ) :
    ((m * 2 ^ k : ℕ) : ℝ) * 2 ^ (e - k) = m * 2 ^ e := by
  rw [Nat.cast_mul, mul_assoc, ← two_zpow_add, Int.sub_add_cancel]

/-- A number in any form is rounded to the nearest. -/
theorem round_settled (s : Sign) (hm : 0 < m) (e : ℤ) :
    Settled (round Format.binary64 s m e) ∧
      amount (round Format.binary64 s m e) = onSide s (rounded (m * 2 ^ e)) := by
  generalize hk : (e - Format.binary64.targetExponent (totalExponent m e)).toNat = k
  have hround : round Format.binary64 s m e =
      roundWithAccuracy Format.binary64 s (m * 2 ^ k) (e - k) .exact := by
    simp only [UnpackedFloat.round, decreaseExponent, hk, Nat.shiftLeft_eq]
  have hc : 52 ≤ (m * 2 ^ k).log2 ∨ e - k ≤ -1074 := by
    rw [targetExponent_eq] at hk
    rw [log2_mul_two_pow hm.ne']
    omega
  have hpos : (0 : ℝ) < ((m * 2 ^ k : ℕ) : ℝ) := by
    exact_mod_cast Nat.mul_pos hm (Nat.two_pow_pos k)
  rw [hround, ← amount_decreaseExponent m k e]
  exact roundWithAccuracy_settled s (describes_exact _) hpos hc

theorem onSide_rounded (s : Sign) {v : ℝ} (h : 0 ≤ v) :
    onSide s (rounded v) = rounding (onSide s v) := by
  cases s with
  | positive => exact (rounding_of_nonneg h).symm
  | negative => rw [onSide, onSide, rounding_neg, rounding_of_nonneg h]

theorem normalize_settled (n e : ℤ) (s : Sign) :
    Settled (UnpackedFloat.normalize Format.binary64 n e s) ∧
      amount (UnpackedFloat.normalize Format.binary64 n e s) = rounding (n * 2 ^ e) := by
  rcases lt_trichotomy n 0 with hn | rfl | hn
  · have hcast : (((-n).toNat : ℕ) : ℝ) = -(n : ℝ) := by
      exact_mod_cast Int.toNat_of_nonneg (by omega : 0 ≤ -n)
    have hround := round_settled .negative (m := (-n).toNat) (by omega) e
    rw [onSide_rounded _ (by positivity), hcast] at hround
    rw [UnpackedFloat.normalize, Int.compare_eq_lt.2 hn]
    simpa [onSide] using hround
  · rw [UnpackedFloat.normalize, Int.compare_eq_eq.2 rfl, Int.cast_zero, zero_mul,
      rounding_of_nonneg le_rfl, rounded_zero]
    exact ⟨trivial, rfl⟩
  · have hcast : ((n.toNat : ℕ) : ℝ) = n := by exact_mod_cast Int.toNat_of_nonneg hn.le
    have hround := round_settled .positive (m := n.toNat) (by omega) e
    rw [onSide_rounded _ (by positivity), hcast] at hround
    rw [UnpackedFloat.normalize, Int.compare_eq_gt.2 hn]
    exact hround

end Rounding

section Packing

variable {f : UnpackedFloat} {m : ℕ} {e : ℤ}

theorem unpack_pack_subnormal (s : Sign) (hm : 0 < m) (hi : m < 2 ^ 52) :
    (Float.Model.pack (.finite s m (-1074) hm)).unpack = .finite s m (-1074) hm := by
  change UnpackedFloat.unpack Format.binary64 (UnpackedFloat.pack Format.binary64 _) = _
  have hmant : (BitVec.ofNat 52 m).toNat = m := by
    rw [BitVec.toNat_ofNat]
    omega
  have hne : BitVec.ofNat 52 m ≠ 0#52 := fun h ↦ by
    rw [h] at hmant
    exact hm.ne hmant
  rw [pack_subnormal s hm hi, UnpackedFloat.unpack]
  simp only [unpackMantissa_packComponents, unpackExponent_packComponents,
    unpackSign_packComponents, Sign.ofBitVec_toBitVec]
  rw [if_neg (by decide), if_pos (show (0 : BitVec 11) = 0#11 from rfl), dif_neg hne]
  congr 1

theorem unpack_infinity (s : Sign) : (Float.Model.pack (.infinity s)).unpack = .infinity s := by
  cases s <;> rfl

theorem Canonical.unpack_pack (h : Canonical m e) (s : Sign) (hm : 0 < m) :
    (Float.Model.pack (.finite s m e hm)).unpack =
      if e ≤ 971 then .finite s m e hm else .infinity s := by
  split
  next he =>
    rcases lt_or_ge m (2 ^ 52) with hlt | hge
    · obtain rfl : e = -1074 := h.full.resolve_left hlt.not_ge
      exact unpack_pack_subnormal s hm hlt
    · exact Binary.unpack_pack s hge h.lt h.least he hm
  next he =>
    rw [← unpack_infinity s]
    change UnpackedFloat.unpack Format.binary64 (UnpackedFloat.pack Format.binary64 _) =
      UnpackedFloat.unpack Format.binary64 (UnpackedFloat.pack Format.binary64 _)
    congr 1
    refine if_pos ?_
    change 2048 ≤ (e + 1023 + 52).toNat + 1
    omega

theorem canonical_of_parts {x : Float} {s : Sign} {hm : 0 < m} (h : parts x = .finite s m e hm) :
    Canonical m e ∧ e ≤ 971 := by
  change UnpackedFloat.unpack Format.binary64 (word x) = _ at h
  have hbias : ((Format.binary64.exponentBias : Int) +
      Format.binary64.mantissaBitsWithoutImplicit) = 1075 := rfl
  have hmlt : (unpackMantissa (word x)).toNat < 2 ^ 52 := (unpackMantissa (word x)).isLt
  have helt : (unpackExponent (word x)).toNat < 2 ^ 11 := (unpackExponent (word x)).isLt
  unfold UnpackedFloat.unpack at h
  dsimp only at h
  rw [hbias] at h
  split at h
  next => split at h <;> cases h
  next hones =>
    have hones' : (unpackExponent (word x)).toNat ≠ 2047 := fun h ↦
      hones (BitVec.eq_of_toNat_eq (h.trans rfl))
    split at h
    next hexp =>
      have he : (unpackExponent (word x)).toNat = 0 := (toNat_eq_zero_iff _).2 hexp
      split at h
      next => cases h
      next =>
        cases h
        rw [he]
        exact ⟨⟨by omega, by omega, .inr rfl⟩, by omega⟩
    next hexp =>
      have he : (unpackExponent (word x)).toNat ≠ 0 := fun h ↦ hexp ((toNat_eq_zero_iff _).1 h)
      have hnat : (1#1 ++ unpackMantissa (word x)).toNat =
          2 ^ 52 + (unpackMantissa (word x)).toNat := by
        rw [toNat_append]
        rfl
      cases h
      rw [hnat]
      exact ⟨⟨by omega, by omega, .inl (by omega)⟩, by omega⟩

end Packing

section Stores

variable {x y : Float} {r q : ℝ} {f : UnpackedFloat}

/-- The value of a number that is finite. -/
def value (x : Float) : ℝ := amount (parts x)

def place : UnpackedFloat → EReal
  | .infinity .negative => ⊥
  | .infinity .positive => ⊤
  | f => amount f

def extended (x : Float) : EReal := place (parts x)

theorem place_of_settled (h : Settled f) : place f = amount f := by
  cases f with
  | infinity s => exact h.elim
  | _ => rfl

/-- The number is what a real number is stored as. -/
structure Stores (x : Float) (r : ℝ) : Prop where
  isNumber : IsNumber x
  extended_eq : extended x = stored r

theorem Canonical.abs_lt {m : ℕ} {e : ℤ} (h : Canonical m e) (he : e ≤ 971) :
    (m : ℝ) * 2 ^ e < bound :=
  calc (m : ℝ) * 2 ^ e < ((2 ^ 53 : ℕ) : ℝ) * 2 ^ e :=
        mul_lt_mul_of_pos_right (by exact_mod_cast h.lt) (two_zpow_pos e)
    _ ≤ ((2 ^ 53 : ℕ) : ℝ) * 2 ^ (971 : ℤ) :=
        mul_le_mul_of_nonneg_left (two_zpow_mono he) (Nat.cast_nonneg _)
    _ = bound := (two_zpow_add 971 53).symm

theorem Canonical.bound_le {m : ℕ} {e : ℤ} (h : Canonical m e) (he : 971 < e) :
    bound ≤ (m : ℝ) * 2 ^ e :=
  calc bound = ((2 ^ 52 : ℕ) : ℝ) * 2 ^ (972 : ℤ) := two_zpow_add 972 52
    _ ≤ ((2 ^ 52 : ℕ) : ℝ) * 2 ^ e :=
        mul_le_mul_of_nonneg_left (two_zpow_mono he) (Nat.cast_nonneg _)
    _ ≤ m * 2 ^ e := by
        have hfull := h.full.resolve_right (by omega)
        exact mul_le_mul_of_nonneg_right (by exact_mod_cast hfull) (two_zpow_pos e).le

theorem abs_onSide (s : Sign) (v : ℝ) : |onSide s v| = |v| := by cases s <;> simp [onSide]

theorem overflow_onSide (s : Sign) {v : ℝ} (h : bound ≤ v) :
    overflow (onSide s v) = place (.infinity s) := by
  cases s with
  | positive => exact overflow_of_le h
  | negative => exact overflow_of_le_neg (neg_le_neg h)

/-- What is packed is a number, put at an infinity if it is too large. -/
theorem unpack_settled (h : Settled f) :
    (Float.Model.pack f).unpack ≠ .notANumber ∧
      place (Float.Model.pack f).unpack = overflow (amount f) := by
  cases f with
  | infinity s => exact h.elim
  | notANumber => exact h.elim
  | zero s =>
    have hz : (Float.Model.pack (.zero s)).unpack = .zero s := by cases s <;> rfl
    rw [hz]
    refine ⟨by simp, ?_⟩
    rw [amount_zero, overflow_of_abs_lt (by rw [abs_zero]; exact bound_pos)]
    rfl
  | finite s m e hm =>
    have hv : (0 : ℝ) ≤ m * 2 ^ e := by positivity
    rw [Canonical.unpack_pack h s hm, amount_finite]
    split
    next he =>
      refine ⟨by simp, ?_⟩
      rw [overflow_of_abs_lt]
      · rfl
      · rw [abs_onSide, abs_of_nonneg hv]
        exact Canonical.abs_lt h he
    next he =>
      refine ⟨by simp, ?_⟩
      rw [overflow_onSide s (Canonical.bound_le h (not_le.1 he))]

theorem stores_pack (h : Settled f) (ha : amount f = rounding r) :
    Stores (Float.ofModel (.pack f)) r := by
  obtain ⟨hnum, hplace⟩ := unpack_settled h
  exact ⟨hnum, hplace.trans (by rw [ha, stored])⟩

theorem settled_parts (h : IsFinite x) : Settled (parts x) := by
  obtain ⟨hnum, hinf⟩ := parts_ne h
  cases hp : parts x with
  | infinity s => exact absurd hp (hinf s)
  | notANumber => exact absurd hp hnum
  | zero s => exact trivial
  | finite s m e hm => exact (canonical_of_parts hp).1

theorem extended_of_isFinite (h : IsFinite x) : extended x = value x :=
  place_of_settled (settled_parts h)

theorem dyadic_value (x : Float) : Dyadic |value x| ∧ |value x| < bound := by
  unfold value
  cases hp : parts x with
  | finite s m e hm =>
    obtain ⟨hc, he⟩ := canonical_of_parts hp
    rw [amount_finite, abs_onSide, abs_of_nonneg (by positivity)]
    exact ⟨⟨m, e, hc.lt, hc.least, rfl⟩, hc.abs_lt he⟩
  | _ =>
    rw [amount, abs_zero]
    · exact ⟨dyadic_zero, bound_pos⟩
    · simp

theorem stored_value (x : Float) : stored (value x) = value x :=
  stored_of_dyadic (dyadic_value x).1 (dyadic_value x).2

theorem stores_value (h : IsFinite x) : Stores x (value x) :=
  ⟨(parts_ne h).1, by rw [extended_of_isFinite h, stored_value]⟩

theorem parts_of_not_isFinite (h : ¬ IsFinite x) :
    parts x = .notANumber ∨ ∃ s, parts x = .infinity s := by
  have hones : unpackExponent (word x) = -1#11 := by
    by_contra hne
    have hexp : x.toBits.toNat / Nat.pow 2 52 % Nat.pow 2 11 ≠ 2047 := fun he ↦
      hne (BitVec.eq_of_toNat_eq (((toNat_fields (word x)).2.1.trans he).trans rfl))
    apply h
    unfold IsFinite magnitude
    dsimp only
    rw [if_neg hexp]
    split <;> exact ⟨_, _, rfl⟩
  change UnpackedFloat.unpack Format.binary64 (word x) = _ ∨
    ∃ s, UnpackedFloat.unpack Format.binary64 (word x) = _
  unfold UnpackedFloat.unpack
  dsimp only
  rw [if_pos hones]
  split
  next => exact .inr ⟨_, rfl⟩
  next => exact .inl rfl

theorem isFinite_of_parts {s : Sign} {m : ℕ} {e : ℤ} {hm : 0 < m} (h : parts x = .finite s m e hm) :
    IsFinite x := by
  by_contra hfin
  rcases parts_of_not_isFinite hfin with hp | ⟨t, hp⟩ <;> rw [h] at hp <;> cases hp

theorem isFinite_of_extended (h : IsNumber x) (htop : extended x ≠ ⊤) (hbot : extended x ≠ ⊥) :
    IsFinite x := by
  by_contra hfin
  rcases parts_of_not_isFinite hfin with hp | ⟨s, hp⟩
  · exact h hp
  · unfold extended at htop hbot
    rw [hp] at htop hbot
    cases s with
    | positive => exact htop rfl
    | negative => exact hbot rfl

theorem Stores.value_eq (h : Stores x r) (hq : stored r = (q : EReal)) :
    IsFinite x ∧ value x = q := by
  have he := h.extended_eq.trans hq
  have hfin : IsFinite x := isFinite_of_extended h.isNumber
    (by rw [he]; exact EReal.coe_ne_top q) (by rw [he]; exact EReal.coe_ne_bot q)
  rw [extended_of_isFinite hfin] at he
  exact ⟨hfin, EReal.coe_injective he⟩

theorem Stores.isFinite (h : Stores x r) (hr : 0 ≤ r) (hq : r ≤ q) (htop : stored q ≠ ⊤) :
    IsFinite x := by
  refine isFinite_of_extended h.isNumber ?_ ?_ <;> rw [h.extended_eq]
  · exact ((stored_mono hq).trans_lt (lt_top_iff_ne_top.2 htop)).ne
  · exact bot_lt_iff_ne_bot.1 (EReal.bot_lt_zero.trans_le (stored_nonneg hr))

theorem Stores.finite_nonneg (h : Stores x r) (hr : 0 ≤ r) (htop : extended x ≠ ⊤) :
    IsFinite x ∧ 0 ≤ value x := by
  have hfin : IsFinite x := h.isFinite hr le_rfl (by rwa [← h.extended_eq])
  have hle := stored_nonneg hr
  rw [← h.extended_eq, extended_of_isFinite hfin] at hle
  exact ⟨hfin, by exact_mod_cast hle⟩

theorem Stores.lt_two_zpow (h : Stores x r) {e : ℤ} (hlow : -1074 ≤ e) (hhigh : e < 1024)
    (hlt : extended x < (2 ^ e : ℝ)) : r < 2 ^ e := by
  by_contra hle
  have hmono := stored_mono (not_lt.1 hle)
  rw [stored_two_zpow hlow hhigh, ← h.extended_eq] at hmono
  exact hmono.not_gt hlt

theorem stored_double (x : Float) (h : |value x| < 2 ^ (1022 : ℤ)) :
    stored (2 * value x) = (2 * value x : ℝ) := by
  obtain ⟨⟨m, e, hm, he, hx⟩, -⟩ := dyadic_value x
  apply stored_of_dyadic <;> rw [abs_mul, abs_of_pos (by norm_num : (0 : ℝ) < 2)]
  · refine ⟨m, e + (1 : ℕ), hm, by omega, ?_⟩
    rw [hx, Nat.cast_ofNat, two_zpow_add]
    push_cast
    ring
  · have htop := two_zpow_lt_bound (e := 1023) (by decide)
    rw [show (1023 : ℤ) = 1022 + (1 : ℕ) by norm_num, two_zpow_add] at htop
    push_cast at htop
    linarith

theorem parts_ofModel_pack (f : UnpackedFloat) :
    parts (Float.ofModel (.pack f)) = (Float.Model.pack f).unpack := rfl

theorem parts_neg_eq (x : Float) : -x = Float.ofModel (.pack (UnpackedFloat.neg (parts x))) := rfl

theorem parts_neg (h : IsNumber x) : parts (-x) = UnpackedFloat.neg (parts x) := by
  rw [parts_neg_eq, parts_ofModel_pack]
  cases hx : parts x with
  | notANumber => exact absurd hx h
  | infinity s => exact unpack_infinity (-s)
  | zero s => cases s <;> rfl
  | finite s m e hm =>
    obtain ⟨hc, he⟩ := canonical_of_parts hx
    rw [UnpackedFloat.neg, hc.unpack_pack (-s) hm, if_pos he]

theorem IsNumber.neg (h : IsNumber x) : IsNumber (-x) := by
  rw [IsNumber, parts_neg h]
  cases hx : parts x with
  | notANumber => exact absurd hx h
  | _ => simp [UnpackedFloat.neg]

theorem extended_neg (h : IsNumber x) : extended (-x) = -extended x := by
  unfold extended
  rw [parts_neg h]
  cases hx : parts x with
  | notANumber => exact absurd hx h
  | infinity s => cases s <;> simp [UnpackedFloat.neg, place]
  | zero s => simp [UnpackedFloat.neg, place, amount]
  | finite s m e hm => cases s <;> simp [UnpackedFloat.neg, place, amount, onSide]

theorem Stores.neg (h : Stores x r) : Stores (-x) (-r) :=
  ⟨h.isNumber.neg, by rw [extended_neg h.isNumber, h.extended_eq, stored_neg]⟩

theorem value_neg (h : IsFinite x) : IsFinite (-x) ∧ value (-x) = -value x := by
  refine (stores_value h).neg.value_eq ?_
  rw [stored_neg, stored_value, EReal.coe_neg]

end Stores

end

end StepAndRepeat.Binary
