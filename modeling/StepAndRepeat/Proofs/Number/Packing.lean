import StepAndRepeat.Proofs.Number.Whole

namespace StepAndRepeat.Binary

open Float.Model Float.Model.UnpackedFloat

section Packing

variable (b : BitVec Format.binary64.numBits)

theorem toNat_fields : (unpackSign b).toNat = b.toNat / 2 ^ 63 % 2 ∧
    (unpackExponent b).toNat = b.toNat / 2 ^ 52 % 2 ^ 11 ∧
    (unpackMantissa b).toNat = b.toNat % 2 ^ 52 := by
  refine ⟨?_, ?_, ?_⟩ <;>
    simp [unpackSign, unpackExponent, unpackMantissa, BitVec.extractLsb_toNat,
      Nat.shiftRight_eq_div_pow]

theorem toBitVec_ofBitVec : ∀ v : BitVec 1, (Sign.ofBitVec v).toBitVec = v := by decide

theorem packComponents_fields :
    packComponents Format.binary64 (Sign.ofBitVec (unpackSign b)) (unpackExponent b)
      (unpackMantissa b) = b := by
  obtain ⟨hs, he, hm⟩ := toNat_fields b
  have hb : b.toNat < 2 ^ 64 := b.isLt
  apply BitVec.eq_of_toNat_eq
  rw [packComponents, toNat_append, toNat_append, toBitVec_ofBitVec, hs, he, hm]
  change (b.toNat / 2 ^ 63 % 2 * 2 ^ 11 + b.toNat / 2 ^ 52 % 2 ^ 11) * 2 ^ 52 + b.toNat % 2 ^ 52 =
    b.toNat
  omega

variable {b}

theorem pack_of_fields {s : BitVec 1} {e : BitVec 11} {m : BitVec 52} (hs : unpackSign b = s)
    (he : unpackExponent b = e) (hm : unpackMantissa b = m) :
    packComponents Format.binary64 (Sign.ofBitVec s) e m = b := by
  subst hs he hm
  exact packComponents_fields b

theorem pack_subnormal (s : Sign) {m : Nat} (hm : 0 < m) (hi : m < 2 ^ 52) :
    UnpackedFloat.pack Format.binary64 (.finite s m (-1074) hm) =
      packComponents Format.binary64 s 0 (BitVec.ofNat 52 m) := by
  have hlog : m.log2 + 1 ≠ Format.binary64.mantissaBits := by
    have := (Nat.log2_lt (Nat.ne_of_gt hm)).2 hi
    change m.log2 + 1 ≠ 53
    omega
  have hb : ((-1074 : Int) + Format.binary64.exponentBias +
      Format.binary64.mantissaBitsWithoutImplicit).toNat = 1 := rfl
  have hn : ¬ 2 ^ Format.binary64.exponentBits ≤ 1 + 1 := by decide
  simp only [UnpackedFloat.pack, hb, if_neg hn, if_neg hlog]
  rfl

theorem toNat_eq_zero_iff {w : Nat} (v : BitVec w) : v.toNat = 0 ↔ v = 0#w := by
  rw [← BitVec.toNat_inj, BitVec.toNat_zero]

theorem pack_unpack (hv : Format.binary64.Valid b) :
    UnpackedFloat.pack Format.binary64 (UnpackedFloat.unpack Format.binary64 b) = b := by
  have hbias : ((Format.binary64.exponentBias : Int) +
      Format.binary64.mantissaBitsWithoutImplicit) = 1075 := rfl
  have hmlt : (unpackMantissa b).toNat < 2 ^ 52 := (unpackMantissa b).isLt
  have helt : (unpackExponent b).toNat < 2 ^ 11 := (unpackExponent b).isLt
  unfold UnpackedFloat.unpack
  dsimp only
  split
  next hexp =>
    split
    next hmant => exact pack_of_fields rfl hexp hmant
    next hmant => exact (hv.eq_packedNaN hexp hmant).symm
  next hones =>
    have hones' : (unpackExponent b).toNat ≠ 2047 := fun h ↦
      hones (BitVec.eq_of_toNat_eq (h.trans rfl))
    split
    next hexp =>
      have he : (unpackExponent b).toNat = 0 := (toNat_eq_zero_iff _).2 hexp
      split
      next hmant => exact pack_of_fields rfl hexp hmant
      next hmant =>
        have hpos := Nat.pos_of_ne_zero fun h ↦ hmant ((toNat_eq_zero_iff _).1 h)
        simp only [he, hbias]
        exact (pack_subnormal _ hpos hmlt).trans (pack_of_fields rfl hexp (by simp))
    next hexp =>
      have he : (unpackExponent b).toNat ≠ 0 := fun h ↦ hexp ((toNat_eq_zero_iff _).1 h)
      have hm : (1#1 ++ unpackMantissa b).toNat = 2 ^ 52 + (unpackMantissa b).toNat := by
        rw [toNat_append]
        rfl
      simp only [hbias]
      rw [pack_finite _ (by omega) (by omega) (by omega) (by omega)]
      refine pack_of_fields rfl ?_ ?_
      · have hback : ((unpackExponent b).toNat - 1075 + 1075 : Int).toNat =
            (unpackExponent b).toNat := by omega
        rw [hback]
        simp
      · apply BitVec.eq_of_toNat_eq
        rw [BitVec.toNat_ofNat, hm]
        exact ((Nat.add_mod_left ..).trans (Nat.mod_eq_of_lt hmlt)).symm

end Packing

section Sums

def parts (x : Float) : UnpackedFloat := x.toModel.unpack

theorem ofParts_parts (x : Float) : Float.ofModel (.pack (parts x)) = x := by
  obtain ⟨⟨bits, hv⟩⟩ := x
  simp only [parts, Float.Model.pack, Float.Model.unpack, pack_unpack hv]

theorem parts_add (x y : Float) : x + y =
    Float.ofModel (.pack (UnpackedFloat.add Format.binary64 (parts x) (parts y))) := rfl

theorem parts_zero : parts 0 = .zero .positive := by rfl

theorem add_zero {x : Float} (h : x ≠ -0) : x + 0 = x := by
  have hx := ofParts_parts x
  have hadd : UnpackedFloat.add Format.binary64 (parts x) (.zero .positive) = parts x := by
    cases hp : parts x with
    | notANumber => rfl
    | infinity s => rfl
    | finite s m e hm => rfl
    | zero s =>
      cases s with
      | positive => rfl
      | negative =>
        rw [hp] at hx
        exact absurd hx.symm h
  rw [parts_add, parts_zero, hadd, hx]

theorem isFinite_of_readsBack {x : Float} {places : Nat}
    (h : Coordinate.ofNumeral (.ofText (Coordinate.fixed places x)) = x) : IsFinite x := by
  have hread : ∀ t ∈ [nanText, infText, signed true infText],
      IsFinite (Coordinate.ofNumeral (.ofText t)) := by decide +kernel
  cases hm : magnitude x with
  | finite m q => exact ⟨m, q, hm⟩
  | nan =>
    have ht : Coordinate.fixed places x = nanText := by
      change Binary.fixed places x = nanText
      rw [fixed, hm]
    rw [ht] at h
    exact h ▸ hread _ (by simp)
  | infinite =>
    have ht : Coordinate.fixed places x = signed (isNegative x) infText := by
      change Binary.fixed places x = _
      rw [fixed, hm]
    rw [ht] at h
    refine h ▸ hread _ ?_
    cases isNegative x <;> simp [signed]

end Sums

end StepAndRepeat.Binary
