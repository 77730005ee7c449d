import StepAndRepeat.Json.Printer
import StepAndRepeat.Json.Reader
import StepAndRepeat.Proofs.Text.Pairs
import Mathlib.Tactic.IntervalCases

namespace StepAndRepeat

open Text

namespace Text

variable {u : Nat} {c : Char}

theorem hexValue?_digitChar (h : u < 16) : hexValue? (Nat.digitChar u) = some u := by
  interval_cases u <;> rfl

theorem exists_hex_four (h : u < 0x10000) :
    ∃ a b c d, hex 4 u = [a, b, c, d] ∧ unit? a b c d = some u := by
  refine ⟨_, _, _, _, rfl, ?_⟩
  have hvalue (n : Nat) : hexValue? (Nat.digitChar (n % 16)) = some (n % 16) :=
    hexValue?_digitChar (Nat.mod_lt n (by decide))
  simp only [unit?, hvalue, Option.bind_eq_bind, Option.bind_some, Option.pure_def,
    Option.some.injEq]
  omega

theorem toNat_lt_or (c : Char) : c.toNat < 0xD800 ∨ 0xDFFF < c.toNat ∧ c.toNat < 0x110000 :=
  c.valid

theorem not_isUnit (c : Char) : isHighUnit c.toNat = false ∧ isLowUnit c.toNat = false := by
  have hc := toNat_lt_or c
  simp only [isHighUnit, isLowUnit, decide_eq_false_iff_not]
  omega

theorem exists_units (h : 0x10000 ≤ c.toNat) : ∃ high low, units c = [high, low] ∧
    isHighUnit high = true ∧ isLowUnit low = true ∧ ofPair high low = c := by
  have hc := toNat_lt_or c
  refine ⟨_, _, if_neg (by omega), ?_, ?_, ?_⟩
  · simp only [isHighUnit, decide_eq_true_eq]
    omega
  · simp only [isLowUnit, decide_eq_true_eq]
    omega
  · rw [ofPair, show 0x10000 + (0xD800 + (c.toNat - 0x10000) / 0x400 - 0xD800) * 0x400 +
      (0xDC00 + (c.toNat - 0x10000) % 0x400 - 0xDC00) = c.toNat by omega, Char.ofNat_toNat]

theorem lt_of_isHighUnit (h : isHighUnit u = true) : u < 0x10000 := by
  simp only [isHighUnit, decide_eq_true_eq] at h
  omega

theorem lt_of_isLowUnit (h : isLowUnit u = true) : u < 0x10000 := by
  simp only [isLowUnit, decide_eq_true_eq] at h
  omega

theorem not_isHighUnit (h : isLowUnit u = true) : isHighUnit u = false := by
  simp only [isLowUnit, decide_eq_true_eq] at h
  simp only [isHighUnit, decide_eq_false_iff_not]
  omega

theorem isLowUnit_half (k : Fin 0x800) : isLowUnit (0xD800 + k) = !isHighUnit (0xD800 + k) := by
  rw [Bool.eq_iff_iff]
  simp only [isLowUnit, isHighUnit, decide_eq_true_eq, Bool.not_eq_true', decide_eq_false_iff_not]
  omega

end Text

namespace CodePoint

theorem ofUnit_toNat (c : Char) : ofUnit c.toNat = char c := by
  have hc := toNat_lt_or c
  rw [ofUnit, dif_neg (by omega), Char.ofNat_toNat]

theorem ofUnit_half (k : Fin 0x800) : ofUnit (0xD800 + k) = half k := by
  rw [ofUnit, dif_pos (by omega)]
  simp

theorem pair?_ofUnit {u v : Nat} (hu : isHighUnit u = true) :
    pair? (ofUnit u) (ofUnit v) = if isLowUnit v then some (ofPair u v) else none := by
  have hhigh := hu
  simp only [isHighUnit, decide_eq_true_eq] at hhigh
  rw [ofUnit, dif_pos (by omega)]
  by_cases hv : 0xD800 ≤ v ∧ v < 0xE000
  · rw [ofUnit, dif_pos hv, pair?]
    simp only [show 0xD800 + (u - 0xD800) = u by omega, show 0xD800 + (v - 0xD800) = v by omega,
      hu, Bool.true_and]
  · have hlow : isLowUnit v = false := by
      simp only [isLowUnit, decide_eq_false_iff_not]
      omega
    rw [ofUnit, dif_neg hv, hlow]
    rfl

theorem pair?_of_not_low {v : Nat} (p : CodePoint) (hv : isLowUnit v = false) :
    pair? p (ofUnit v) = none := by
  cases p with
  | char c => rfl
  | half h =>
    rw [ofUnit]
    split
    next hrange =>
      rw [pair?]
      simp only [show 0xD800 + (v - 0xD800) = v by omega, hv, Bool.and_false, Bool.false_eq_true,
        ↓reduceIte]
    next => rfl

theorem pair?_of_not_high {u : Nat} (p : CodePoint) (hu : isHighUnit u = false) :
    pair? (ofUnit u) p = none := by
  rw [ofUnit]
  split
  next hrange =>
    cases p with
    | char c => rfl
    | half l =>
      rw [pair?]
      simp only [show 0xD800 + (u - 0xD800) = u by omega, hu, Bool.false_and, Bool.false_eq_true,
        ↓reduceIte]
  next => rfl

end CodePoint

namespace Json

open Text CodePoint

variable {u high low : Nat} {waiting : Option Nat} (done : CodeText) (t : Text)

def unitEscape (u : Nat) : Text := '\\' :: 'u' :: hex 4 u

theorem stringFrom_high (hu : isHighUnit u = true) :
    stringFrom done waiting (unitEscape u ++ t) = stringFrom (settle waiting done) (some u) t := by
  obtain ⟨a, b, c, d, hhex, hunit⟩ := exists_hex_four (lt_of_isHighUnit hu)
  simp [unitEscape, hhex, stringFrom, hunit, hu]

theorem stringFrom_unit (hu : u < 0x10000) (hhigh : isHighUnit u = false) :
    stringFrom done waiting (unitEscape u ++ t) =
      match waiting with
      | some h =>
        if isLowUnit u then stringFrom (.char (ofPair h u) :: done) none t
        else stringFrom (.ofUnit u :: .ofUnit h :: done) none t
      | none => stringFrom (.ofUnit u :: done) none t := by
  obtain ⟨a, b, c, d, hhex, hunit⟩ := exists_hex_four hu
  cases waiting <;> simp [unitEscape, hhex, stringFrom, hunit, hhigh]

theorem stringFrom_short {e c : Char} (he : e ≠ 'u') (h : escape? e = some c) :
    stringFrom done waiting ('\\' :: e :: t) =
      stringFrom (.char c :: settle waiting done) none t := by
  rw [stringFrom, h]
  exact fun _ _ _ _ _ h ↦ absurd h he

theorem stringFrom_plain {c : Char} (hquote : c ≠ '"') (hslash : c ≠ '\\') (hc : 0x20 ≤ c.toNat) :
    stringFrom done waiting (c :: t) = stringFrom (.char c :: settle waiting done) none t := by
  rw [stringFrom, if_neg (not_or.2 ⟨not_lt.2 hc, hslash⟩)]
  · exact hquote
  · exact fun _ _ _ _ _ h ↦ absurd h hslash
  · exact fun _ _ h ↦ absurd h hslash

theorem stringFrom_units (c : Char) : stringFrom done waiting ((units c).flatMap unitEscape ++ t) =
    stringFrom (.char c :: settle waiting done) none t := by
  by_cases hc : c.toNat < 0x10000
  · obtain ⟨hhigh, hlow⟩ := not_isUnit c
    rw [units, if_pos hc, List.flatMap_singleton, stringFrom_unit done t hc hhigh, hlow,
      ofUnit_toNat]
    cases waiting <;> rfl
  · obtain ⟨high, low, hunits, hhigh, hlow, hpair⟩ := exists_units (not_lt.1 hc)
    rw [hunits, List.flatMap_cons, List.flatMap_singleton, List.append_assoc,
      stringFrom_high done _ hhigh,
      stringFrom_unit _ t (lt_of_isLowUnit hlow) (not_isHighUnit hlow)]
    dsimp only
    rw [if_pos hlow, hpair]

/-- A character as it is written is what the reading takes next. -/
theorem stringFrom_escape (c : Char) : stringFrom done waiting (escape c ++ t) =
    stringFrom (.char c :: settle waiting done) none t := by
  unfold escape
  split_ifs with hquote hslash hfeed hreturn htab hpage hback hplain
  · rw [hquote]
    exact stringFrom_short done t (by decide) rfl
  · rw [hslash]
    exact stringFrom_short done t (by decide) rfl
  · rw [hfeed]
    exact stringFrom_short done t (by decide) rfl
  · rw [hreturn]
    exact stringFrom_short done t (by decide) rfl
  · rw [htab]
    exact stringFrom_short done t (by decide) rfl
  · rw [hpage]
    exact stringFrom_short done t (by decide) rfl
  · rw [hback]
    exact stringFrom_short done t (by decide) rfl
  · exact stringFrom_plain done t hquote hslash hplain.1
  · exact stringFrom_units done t c

/-- A text behind a unit that may wait for it. -/
def behind (waiting : Option Nat) (s : CodeText) : CodeText :=
  match waiting with
  | none => s
  | some u => before (.ofUnit u) s

theorem reverse_settle (s : CodeText) {p : CodePoint} (hp : ∀ q : CodePoint, pair? q p = none) :
    (settle waiting done).reverse ++ p :: s = done.reverse ++ behind waiting (p :: s) := by
  cases waiting with
  | none => rfl
  | some u =>
    rw [settle, behind, before, hp, List.reverse_cons, List.append_assoc]
    rfl

/-- What is written of a text is read with its pairs put together. -/
theorem stringFrom_points (s : CodeText) (hw : ∀ u ∈ waiting, isHighUnit u = true) :
    stringFrom done waiting (s.flatMap escapePoint ++ '"' :: t) =
      some (done.reverse ++ behind waiting (CodeText.joined s), t) := by
  induction s generalizing done waiting with
  | nil => cases waiting <;> simp [stringFrom, settle, behind, before, CodeText.joined]
  | cons p s ih =>
    have hstep : CodeText.joined (p :: s) = before p (CodeText.joined s) := rfl
    have hnone : ∀ u ∈ (none : Option Nat), isHighUnit u = true := fun _ h ↦ by cases h
    rw [List.flatMap_cons, List.append_assoc, hstep]
    cases p with
    | char c =>
      have hpair : ∀ q : CodePoint, pair? q (.char c) = none := fun q ↦ by cases q <;> rfl
      rw [escapePoint, stringFrom_escape, ih _ hnone, before_of_not_high (fun _ ↦ rfl), behind,
        List.reverse_cons, List.append_assoc, List.singleton_append, reverse_settle done _ hpair]
    | half k =>
      have hescape : escapePoint (.half k) = unitEscape (0xD800 + k) := rfl
      have hlt : 0xD800 + (k : Nat) < 0x10000 := by omega
      have hlow := isLowUnit_half k
      rw [hescape]
      cases hhigh : isHighUnit (0xD800 + k) with
      | true =>
        rw [hhigh, Bool.not_true] at hlow
        obtain ⟨q, r, hbefore, hq⟩ := exists_before (t := CodeText.joined s) fun p ↦
          ofUnit_half k ▸ pair?_of_not_low p hlow
        rw [stringFrom_high done _ hhigh, ih _ fun u hu ↦ Option.some_inj.1 hu ▸ hhigh, behind,
          ofUnit_half, hbefore, reverse_settle done r hq]
      | false =>
        rw [hhigh, Bool.not_false] at hlow
        have hpair (p : CodePoint) : pair? (.half k) p = none :=
          ofUnit_half k ▸ pair?_of_not_high p hhigh
        rw [stringFrom_unit done _ hlt hhigh, before_of_not_high hpair]
        cases waiting with
        | none =>
          dsimp only
          rw [ih _ hnone, ofUnit_half, behind, behind, List.reverse_cons, List.append_assoc]
          rfl
        | some u =>
          have hjoin := pair?_ofUnit (v := 0xD800 + k) (hw u rfl)
          rw [hlow, ofUnit_half] at hjoin
          dsimp only
          rw [if_pos hlow, ih _ hnone, behind, behind, before, hjoin, List.reverse_cons,
            List.append_assoc]
          rfl

theorem stringFrom_quote (s : CodeText) :
    stringFrom [] none (s.flatMap escapePoint ++ '"' :: t) = some (s.joined, t) :=
  stringFrom_points [] t s fun _ h ↦ by cases h

/-- What has been read, with a unit that may wait for its partner: no pair is left apart, and a first
half is not done with before what follows it has been seen. -/
structure Pending (done : CodeText) (waiting : Option Nat) : Prop where
  settled : (settle waiting done).IsChain fun q p ↦ pair? p q = none
  high : ∀ u ∈ waiting, isHighUnit u = true
  closed : waiting = none → ∀ p ∈ done.head?, ∀ q, pair? p q = none

section Pending

variable {done} {p : CodePoint}

theorem Pending.settle_cons (h : Pending done waiting) (hp : ∀ q, pair? q p = none) :
    (p :: settle waiting done).IsChain fun q p ↦ pair? p q = none :=
  List.isChain_cons.2 ⟨fun q _ ↦ hp q, h.settled⟩

theorem Pending.point (h : Pending done waiting) (hp : ∀ q, pair? q p = none)
    (hq : ∀ q, pair? p q = none) : Pending (p :: settle waiting done) none where
  settled := h.settle_cons hp
  high _ hu := by cases hu
  closed _ q hr := Option.some_inj.1 hr ▸ hq

theorem Pending.char (h : Pending done waiting) (c : Char) :
    Pending (.char c :: settle waiting done) none :=
  h.point (fun q ↦ by cases q <;> rfl) fun _ ↦ rfl

theorem settled_of_stringFrom {t r : Text} {s : CodeText} (h : Pending done waiting)
    (hread : stringFrom done waiting t = some (s, r)) : CodeText.Settled s := by
  fun_induction stringFrom done waiting t with
  | case1 => cases hread
  | case2 done waiting t =>
    obtain ⟨rfl, -⟩ := Prod.mk.inj (Option.some_inj.1 hread)
    exact List.isChain_reverse.2 h.settled
  | case3 => cases hread
  | case4 done waiting a b c d t u hunit hhigh ih =>
    have hlow : isLowUnit u = false := by
      simp only [isHighUnit, decide_eq_true_eq] at hhigh
      simp only [isLowUnit, decide_eq_false_iff_not]
      omega
    refine ih ⟨h.settle_cons fun q ↦ pair?_of_not_low q hlow, fun v hv ↦ ?_, fun hnone ↦ ?_⟩ hread
    · exact Option.some_inj.1 hv ▸ hhigh
    · cases hnone
  | case5 done a b c d t u hunit hhigh ih =>
    have hhigh := Bool.eq_false_iff.2 hhigh
    refine ih ⟨List.isChain_cons.2 ⟨fun p hp ↦ h.closed rfl p hp _, h.settled⟩, fun v hv ↦ ?_,
      fun _ p hp ↦ ?_⟩ hread
    · cases hv
    · exact Option.some_inj.1 hp ▸ fun q ↦ pair?_of_not_high q hhigh
  | case6 done a b c d t u hunit hhigh v hlow ih =>
    have hdone : done.IsChain fun q p ↦ pair? p q = none := (List.isChain_cons.1 h.settled).2
    refine ih ⟨List.isChain_cons.2 ⟨fun q _ ↦ by cases q <;> rfl, hdone⟩, fun w hw ↦ ?_,
      fun _ p hp ↦ ?_⟩ hread
    · cases hw
    · exact Option.some_inj.1 hp ▸ fun _ ↦ rfl
  | case7 done a b c d t u hunit hhigh v hlow ih =>
    refine ih (h.point (fun q ↦ pair?_of_not_low q (Bool.eq_false_iff.2 hlow)) fun q ↦
      pair?_of_not_high q (Bool.eq_false_iff.2 hhigh)) hread
  | case8 => cases hread
  | case9 done waiting e t hnot c hc ih => exact ih (h.char c) hread
  | case10 => cases hread
  | case11 done waiting c t hquote hunit hescape hplain ih => exact ih (h.char c) hread

theorem pending_start : Pending [] none where
  settled := List.isChain_nil
  high _ hu := by cases hu
  closed _ _ hp := by cases hp

/-- A pair that is read is put together. -/
theorem settled_of_read {t r : Text} {s : CodeText} (h : stringFrom [] none t = some (s, r)) :
    CodeText.Settled s :=
  settled_of_stringFrom pending_start h

end Pending

section Written

theorem escape_of_pair {h l : Fin 0x800} {c : Char} (hc : pair? (.half h) (.half l) = some c) :
    escape c = unitEscape (0xD800 + h) ++ unitEscape (0xD800 + l) := by
  rw [pair?] at hc
  split at hc
  next hpair =>
    simp only [isHighUnit, isLowUnit, Bool.and_eq_true, decide_eq_true_eq] at hpair
    obtain ⟨n, hn⟩ : ∃ n, n = 0x10000 + (0xD800 + h.val - 0xD800) * 0x400 +
      (0xD800 + l.val - 0xDC00) := ⟨_, rfl⟩
    have hvalid : n.isValidChar := by
      right
      omega
    have hnat : c.toNat = n := by
      rw [← Option.some_inj.1 hc, ofPair, ← hn]
      rw [Char.ofNat, dif_pos hvalid]
      rfl
    have hother {d : Char} (hd : d.toNat < 0x10000) : c ≠ d := by
      rintro rfl
      omega
    rw [escape, if_neg (hother (by decide)), if_neg (hother (by decide)),
      if_neg (hother (by decide)), if_neg (hother (by decide)), if_neg (hother (by decide)),
      if_neg (hother (by decide)), if_neg (hother (by decide)), if_neg (by omega), units,
      if_neg (by omega), hnat, show 0xD800 + (n - 0x10000) / 0x400 = 0xD800 + h.val by omega,
      show 0xDC00 + (n - 0x10000) % 0x400 = 0xD800 + l.val by omega]
    simp [unitEscape]
  next => cases hc

theorem quote_joined (s : CodeText) : quote s.joined = quote s := by
  have hbefore (p : CodePoint) (t : CodeText) :
      (before p t).flatMap escapePoint = escapePoint p ++ t.flatMap escapePoint := by
    cases t with
    | nil => simp [before]
    | cons q t =>
      rw [before]
      split
      next c hc =>
        cases p with
        | char => cases hc
        | half h =>
          cases q with
          | char => cases hc
          | half l =>
            rw [List.flatMap_cons, List.flatMap_cons, escapePoint, escape_of_pair hc, List.append_assoc]
            rfl
      next => rw [List.flatMap_cons]
  have hpoints : s.joined.flatMap escapePoint = s.flatMap escapePoint := by
    induction s with
    | nil => rfl
    | cons p s ih =>
      have hstep : CodeText.joined (p :: s) = before p (CodeText.joined s) := rfl
      rw [hstep, hbefore, ih, List.flatMap_cons]
  rw [quote, quote, hpoints]

end Written

end Json

end StepAndRepeat
