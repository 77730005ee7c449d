import StepAndRepeat.Proofs.Number.Packing

namespace StepAndRepeat.Binary

open Float.Model Float.Model.UnpackedFloat

/-- The value is a number, possibly infinite, and so compares with others. -/
def IsNumber (x : Float) : Prop := parts x ≠ .notANumber

section Rank

def rank : UnpackedFloat → ℤ ×ₗ ℤ ×ₗ ℤ
  | .infinity .negative => toLex (-2, toLex (0, 0))
  | .finite .negative m e _ => toLex (-1, toLex (-e, -m))
  | .zero _ | .notANumber => toLex (0, toLex (0, 0))
  | .finite .positive m e _ => toLex (1, toLex (e, m))
  | .infinity .positive => toLex (2, toLex (0, 0))

theorem compare_toLex {α β : Type} [Ord α] [Ord β] (a c : α) (b d : β) :
    compare (toLex (a, b)) (toLex (c, d)) = (compare a c).then (compare b d) := rfl

theorem compare_neg (a b : ℤ) : compare (-a) (-b) = (compare a b).swap := by
  have hneg : StrictAnti fun a : ℤ ↦ -a := fun _ _ h ↦ neg_lt_neg h
  rw [← cmp_eq_compare, ← cmp_eq_compare, cmp_swap]
  exact hneg.cmp_map_eq a b

theorem compare_natCast (a b : ℕ) : compare (a : ℤ) b = compare a b := by
  rw [← cmp_eq_compare, ← cmp_eq_compare]
  exact (Nat.strictMono_cast (α := ℤ)).cmp_map_eq a b

theorem compare_eq {f g : UnpackedFloat} (hf : f ≠ .notANumber) (hg : g ≠ .notANumber) :
    f.compare g = some (compare (rank f) (rank g)) := by
  cases f with
  | notANumber => exact absurd rfl hf
  | infinity s =>
    cases g with
    | notANumber => exact absurd rfl hg
    | infinity t => cases s <;> cases t <;> rfl
    | zero t => cases s <;> rfl
    | finite t n d hn => cases s <;> cases t <;> rfl
  | zero s =>
    cases g with
    | notANumber => exact absurd rfl hg
    | infinity t => cases t <;> rfl
    | zero t => rfl
    | finite t n d hn => cases t <;> rfl
  | finite s m e hm =>
    cases g with
    | notANumber => exact absurd rfl hg
    | infinity t => cases s <;> cases t <;> rfl
    | zero t => cases s <;> rfl
    | finite t n d hn =>
      cases s <;> cases t
      · simp only [UnpackedFloat.compare, rank, compare_toLex, compare_neg, compare_natCast,
          Ordering.swap_then, Option.some.injEq]
        simp
      · rfl
      · rfl
      · simp only [UnpackedFloat.compare, rank, compare_toLex, compare_natCast, Option.some.injEq]
        simp

theorem isNumber_of_compare {x y : Float} {o : Ordering}
    (h : (parts x).compare (parts y) = some o) : IsNumber x ∧ IsNumber y := by
  refine ⟨fun hx ↦ ?_, fun hy ↦ ?_⟩
  · rw [hx] at h
    cases h
  · rw [hy] at h
    cases hf : parts x <;> rw [hf] at h <;> cases h

variable {x y z : Float}

theorem lt_iff : x < y ↔ (parts x).compare (parts y) = some .lt :=
  decide_eq_true_iff.trans beq_iff_eq

theorem le_iff : x ≤ y ↔ ∃ o, (parts x).compare (parts y) = some o ∧ o.isLE = true :=
  decide_eq_true_iff.trans (Option.any_eq_true _ _)

theorem isNumber_of_lt (h : x < y) : IsNumber x ∧ IsNumber y := isNumber_of_compare (lt_iff.1 h)

theorem isNumber_of_le (h : x ≤ y) : IsNumber x ∧ IsNumber y := by
  obtain ⟨o, ho, -⟩ := le_iff.1 h
  exact isNumber_of_compare ho

theorem rank_lt_iff (hx : IsNumber x) (hy : IsNumber y) :
    rank (parts x) < rank (parts y) ↔ x < y := by
  rw [lt_iff, compare_eq hx hy, Option.some.injEq, compare_lt_iff_lt]

theorem rank_le_iff (hx : IsNumber x) (hy : IsNumber y) :
    rank (parts x) ≤ rank (parts y) ↔ x ≤ y := by
  rw [le_iff, compare_eq hx hy]
  simp [Ordering.isLE_iff_ne_gt, compare_gt_iff_gt]

theorem le_refl (hx : IsNumber x) : x ≤ x := (rank_le_iff hx hx).1 le_rfl

theorem le_trans (h : x ≤ y) (h' : y ≤ z) : x ≤ z := by
  obtain ⟨hx, hy⟩ := isNumber_of_le h
  obtain ⟨-, hz⟩ := isNumber_of_le h'
  rw [← rank_le_iff hx hy] at h
  rw [← rank_le_iff hy hz] at h'
  exact (rank_le_iff hx hz).1 (h.trans h')

theorem not_lt_self (x : Float) : ¬ x < x := fun h ↦
  ((rank_lt_iff (isNumber_of_lt h).1 (isNumber_of_lt h).1).2 h).false

theorem lt_trans (h : x < y) (h' : y < z) : x < z := by
  obtain ⟨hx, hy⟩ := isNumber_of_lt h
  obtain ⟨-, hz⟩ := isNumber_of_lt h'
  rw [← rank_lt_iff hx hy] at h
  rw [← rank_lt_iff hy hz] at h'
  exact (rank_lt_iff hx hz).1 (h.trans h')

protected theorem lt_of_le_of_lt (h : x ≤ y) (h' : y < z) : x < z := by
  obtain ⟨hx, hy⟩ := isNumber_of_le h
  obtain ⟨-, hz⟩ := isNumber_of_lt h'
  exact (rank_lt_iff hx hz).1 (((rank_le_iff hx hy).2 h).trans_lt ((rank_lt_iff hy hz).2 h'))

protected theorem lt_of_lt_of_le (h : x < y) (h' : y ≤ z) : x < z := by
  obtain ⟨hx, hy⟩ := isNumber_of_lt h
  obtain ⟨-, hz⟩ := isNumber_of_le h'
  exact (rank_lt_iff hx hz).1 (((rank_lt_iff hx hy).2 h).trans_le ((rank_le_iff hy hz).2 h'))

theorem not_lt_of_le (h : x ≤ y) : ¬ y < x := fun h' ↦ not_lt_self x (Binary.lt_of_le_of_lt h h')

theorem le_of_lt (h : x < y) : x ≤ y := by
  obtain ⟨hx, hy⟩ := isNumber_of_lt h
  exact (rank_le_iff hx hy).1 ((rank_lt_iff hx hy).2 h).le

theorem le_of_not_lt (hx : IsNumber x) (hy : IsNumber y) (h : ¬ y < x) : x ≤ y := by
  rw [← rank_lt_iff hy hx, not_lt] at h
  exact (rank_le_iff hx hy).1 h

theorem least_le_left (hx : IsNumber x) (y : Float) : Coordinate.least x y ≤ x := by
  unfold Coordinate.least
  split
  next h => exact le_of_lt (of_decide_eq_true h)
  next => exact le_refl hx

theorem least_le_right (hx : IsNumber x) (hy : IsNumber y) : Coordinate.least x y ≤ y := by
  unfold Coordinate.least
  split
  next => exact le_refl hy
  next h => exact le_of_not_lt hx hy fun hlt ↦ h (decide_eq_true hlt)

theorem left_le_greatest (hx : IsNumber x) (y : Float) : x ≤ Coordinate.greatest x y := by
  unfold Coordinate.greatest
  split
  next h => exact le_of_lt (of_decide_eq_true h)
  next => exact le_refl hx

theorem right_le_greatest (hx : IsNumber x) (hy : IsNumber y) : y ≤ Coordinate.greatest x y := by
  unfold Coordinate.greatest
  split
  next => exact le_refl hy
  next h => exact le_of_not_lt hy hx fun hlt ↦ h (decide_eq_true hlt)

end Rank

section Packed

theorem unpack_eq_notANumber {b : BitVec Format.binary64.numBits}
    (h : UnpackedFloat.unpack Format.binary64 b = .notANumber) :
    unpackExponent b = -1#11 ∧ unpackMantissa b ≠ 0#52 := by
  unfold UnpackedFloat.unpack at h
  dsimp only at h
  split at h
  next he =>
    split at h
    next => cases h
    next hm => exact ⟨he, hm⟩
  next =>
    split at h
    next => split at h <;> cases h
    next => cases h

theorem exists_pack_eq {f : UnpackedFloat} (h : f ≠ .notANumber) :
    ∃ s e m, UnpackedFloat.pack Format.binary64 f = packComponents Format.binary64 s e m ∧
      (e = -1#11 → m = 0#52) := by
  cases f with
  | notANumber => exact absurd rfl h
  | infinity s => exact ⟨s, _, _, rfl, fun _ ↦ rfl⟩
  | zero s => exact ⟨s, _, _, rfl, fun _ ↦ rfl⟩
  | finite s m e hm =>
    simp only [UnpackedFloat.pack]
    generalize (e + Format.binary64.exponentBias +
      Format.binary64.mantissaBitsWithoutImplicit).toNat = n
    split
    next => exact ⟨s, _, _, rfl, fun _ ↦ rfl⟩
    next hn =>
      change ¬ 2048 ≤ n + 1 at hn
      split
      next =>
        refine ⟨s, _, _, rfl, fun he ↦ ?_⟩
        have ht : n % 2048 = 2047 := congrArg BitVec.toNat he
        omega
      next => exact ⟨s, _, _, rfl, fun he ↦ nomatch he⟩

theorem unpack_pack_ne {f : UnpackedFloat} (h : f ≠ .notANumber) :
    UnpackedFloat.unpack Format.binary64 (UnpackedFloat.pack Format.binary64 f) ≠ .notANumber := by
  obtain ⟨s, e, m, hp, hm⟩ := exists_pack_eq h
  intro hn
  obtain ⟨he, hne⟩ := unpack_eq_notANumber hn
  rw [hp, unpackExponent_packComponents] at he
  rw [hp, unpackMantissa_packComponents] at hne
  exact hne (hm he)

theorem normalize_ne (m : Int) (e : Int) (s : Sign) :
    UnpackedFloat.normalize Format.binary64 m e s ≠ .notANumber := by
  have hround (s : Sign) (m : Nat) : round Format.binary64 s m e ≠ .notANumber := by
    simp only [UnpackedFloat.round, roundWithAccuracy]
    split <;> simp
  unfold UnpackedFloat.normalize
  split
  · exact hround _ _
  · simp
  · exact hround _ _

theorem add_ne {f g : UnpackedFloat} (hf : f ≠ .notANumber) (hg : g ≠ .notANumber)
    (hinf : ∀ s, g ≠ .infinity s) : UnpackedFloat.add Format.binary64 f g ≠ .notANumber := by
  fun_cases UnpackedFloat.add Format.binary64 f g with
  | case1 => exact absurd rfl hf
  | case2 => exact absurd rfl hg
  | case3 | case4 => exact absurd rfl (hinf _)
  | case11 => exact normalize_ne _ _ _
  | _ => first | assumption | simp

end Packed

section Sums

variable {x y : Float}

def word (x : Float) : BitVec Format.binary64.numBits := x.toBits.toBitVec

theorem unpackExponent_ne (h : IsFinite x) : unpackExponent (word x) ≠ -1#11 := by
  intro hones
  obtain ⟨m, q, hm⟩ := h
  have he : x.toBits.toNat / Nat.pow 2 52 % Nat.pow 2 11 = 2047 :=
    (toNat_fields (word x)).2.1.symm.trans (congrArg BitVec.toNat hones)
  simp only [magnitude, he, ↓reduceIte] at hm
  split at hm <;> cases hm

theorem parts_ne (h : IsFinite x) : IsNumber x ∧ ∀ s, parts x ≠ .infinity s := by
  change UnpackedFloat.unpack Format.binary64 (word x) ≠ _ ∧
    ∀ s, UnpackedFloat.unpack Format.binary64 (word x) ≠ _
  unfold UnpackedFloat.unpack
  dsimp only
  rw [if_neg (unpackExponent_ne h)]
  split
  next => split <;> simp
  next => simp

theorem isNumber_add (hx : IsNumber x) (hy : IsFinite y) : IsNumber (x + y) := by
  obtain ⟨hnum, hinf⟩ := parts_ne hy
  rw [IsNumber, parts_add]
  exact unpack_pack_ne (add_ne hx hnum hinf)

end Sums

end StepAndRepeat.Binary
