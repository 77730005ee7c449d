import Mathlib.Tactic.SplitIfs
import StepAndRepeat.Text.Utf8

namespace StepAndRepeat.Text

variable {a b b₂ b₃ : UInt8} {c : Char} {y z w : Nat} (bs : List UInt8)

theorem toNat_ofNat {n : Nat} (h : n < 256) : (UInt8.ofNat n).toNat = n :=
  UInt8.toNat_ofNat_of_lt' h

theorem between_of_toNat {n : Nat} (ha : a.toNat = n) (hn : b.toNat ≤ n ∧ n < b₂.toNat) :
    b ≤ a ∧ a < b₂ := by
  rw [UInt8.le_iff_toNat_le, UInt8.lt_iff_toNat_lt, ha]
  exact hn

theorem continuation?_ofNat (n : Nat) :
    continuation? (UInt8.ofNat (n % 64 + 128)) = some (n % 64) := by
  have hvalue : (UInt8.ofNat (n % 64 + 128)).toNat = n % 64 + 128 := toNat_ofNat (by omega)
  rw [continuation?, if_pos (between_of_toNat hvalue ?_), hvalue, Nat.add_sub_cancel]
  simp only [UInt8.reduceToNat]
  omega

theorem codePoint?_eq {least n : Nat} (hn : n = c.toNat) (h : least ≤ n) :
    codePoint? least n = some c := by
  subst hn
  have hvalid : c.toNat.isValidChar := c.valid
  rw [codePoint?, dif_pos hvalid, if_pos h]
  rfl

theorem ofUtf8?_one (ha : a < 0x80) : ofUtf8? (a :: bs) =
    (ofUtf8? bs).map (Char.ofNat a.toNat :: ·) := by
  rw [ofUtf8?.eq_def]
  exact if_pos ha

theorem ofUtf8?_two (ha : 0xC0 ≤ a ∧ a < 0xE0) (hb : continuation? b = some y)
    (hc : codePoint? 0x80 ((a.toNat - 0xC0) * 0x40 + y) = some c) :
    ofUtf8? (a :: b :: bs) = (ofUtf8? bs).map (c :: ·) := by
  have hlead : ¬ a < 0x80 := by grind
  rw [ofUtf8?, if_neg hlead]
  simp only [hb, if_pos ha, hc]

theorem ofUtf8?_three (ha : 0xE0 ≤ a ∧ a < 0xF0) (hb : continuation? b = some y)
    (hb₂ : continuation? b₂ = some z)
    (hc : codePoint? 0x800 (((a.toNat - 0xE0) * 0x40 + y) * 0x40 + z) = some c) :
    ofUtf8? (a :: b :: b₂ :: bs) = (ofUtf8? bs).map (c :: ·) := by
  have hlead : ¬ a < 0x80 := by grind
  have htwo : ¬ (0xC0 ≤ a ∧ a < 0xE0) := by grind
  rw [ofUtf8?, if_neg hlead]
  simp only [hb, hb₂, if_neg htwo, if_pos ha, hc]

theorem ofUtf8?_four (ha : 0xF0 ≤ a ∧ a < 0xF8) (hb : continuation? b = some y)
    (hb₂ : continuation? b₂ = some z) (hb₃ : continuation? b₃ = some w)
    (hc : codePoint? 0x10000 ((((a.toNat - 0xF0) * 0x40 + y) * 0x40 + z) * 0x40 + w) = some c) :
    ofUtf8? (a :: b :: b₂ :: b₃ :: bs) = (ofUtf8? bs).map (c :: ·) := by
  have hlead : ¬ a < 0x80 := by grind
  have htwo : ¬ (0xC0 ≤ a ∧ a < 0xE0) := by grind
  have hthree : ¬ (0xE0 ≤ a ∧ a < 0xF0) := by grind
  rw [ofUtf8?, if_neg hlead]
  simp only [hb, hb₂, hb₃, if_neg htwo, if_neg hthree, if_pos ha, hc]

theorem ofUtf8?_encodeChar (c : Char) :
    ofUtf8? (String.utf8EncodeChar c ++ bs) = (ofUtf8? bs).map (c :: ·) := by
  have hc : c.val.toNat = c.toNat := rfl
  have hmax : c.toNat < 0x110000 := by
    have hvalid := c.valid
    simp only [UInt32.isValidChar, Nat.isValidChar, hc] at hvalid
    omega
  unfold String.utf8EncodeChar
  rw [hc]
  dsimp only
  split_ifs with hone htwo hthree
  · have ha : (UInt8.ofNat c.toNat).toNat = c.toNat := toNat_ofNat (by omega)
    have hread := ofUtf8?_one (a := UInt8.ofNat c.toNat) bs (by
      rw [UInt8.lt_iff_toNat_lt, ha]
      change _ < 128
      omega)
    rwa [ha, Char.ofNat_toNat] at hread
  · have ha : (UInt8.ofNat (c.toNat / 64 % 32 + 192)).toNat = c.toNat / 64 % 32 + 192 :=
      toNat_ofNat (by omega)
    refine ofUtf8?_two bs (between_of_toNat ha (by simp only [UInt8.reduceToNat]; omega))
      (continuation?_ofNat _) (codePoint?_eq ?_ ?_)
    all_goals
      rw [ha]
      omega
  · have ha : (UInt8.ofNat (c.toNat / 4096 % 16 + 224)).toNat = c.toNat / 4096 % 16 + 224 :=
      toNat_ofNat (by omega)
    refine ofUtf8?_three bs (between_of_toNat ha (by simp only [UInt8.reduceToNat]; omega))
      (continuation?_ofNat _) (continuation?_ofNat _) (codePoint?_eq ?_ ?_)
    all_goals
      rw [ha]
      omega
  · have ha : (UInt8.ofNat (c.toNat / 262144 % 8 + 240)).toNat = c.toNat / 262144 % 8 + 240 :=
      toNat_ofNat (by omega)
    refine ofUtf8?_four bs (between_of_toNat ha (by simp only [UInt8.reduceToNat]; omega))
      (continuation?_ofNat _) (continuation?_ofNat _) (continuation?_ofNat _) (codePoint?_eq ?_ ?_)
    all_goals
      rw [ha]
      omega

theorem ofUtf8?_utf8 (t : Text) : ofUtf8? (utf8 t) = some t := by
  induction t with
  | nil => rfl
  | cons c t ih =>
    rw [utf8, List.flatMap_cons, ofUtf8?_encodeChar]
    exact congrArg (Option.map (c :: ·)) ih

theorem length_of_ofUtf8? {bs : List UInt8} {t : Text} (h : ofUtf8? bs = some t) :
    t.length ≤ bs.length := by
  have hcons {c : Char} {o : Option Text} {t : Text} {n : Nat} (h : o.map (c :: ·) = some t)
      (ih : ∀ {u}, o = some u → u.length ≤ n) : t.length ≤ n + 1 := by
    obtain ⟨u, hu, rfl⟩ := Option.map_eq_some_iff.1 h
    exact Nat.succ_le_succ (ih hu)
  fun_induction ofUtf8? bs generalizing t with
  | case1 =>
    obtain rfl := Option.some_inj.1 h
    exact Nat.le_refl _
  | case2 _ _ _ ih => exact hcons h ih
  | case5 => exact Nat.le_trans (hcons h (by assumption)) (by simp)
  | case8 => exact Nat.le_trans (hcons h (by assumption)) (by simp)
  | case11 => exact Nat.le_trans (hcons h (by assumption)) (by simp)
  | _ => cases h

end StepAndRepeat.Text
