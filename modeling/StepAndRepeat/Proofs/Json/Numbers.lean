import StepAndRepeat.Json.Printer
import StepAndRepeat.Json.Reader
import StepAndRepeat.Proofs.Number.Digits
import StepAndRepeat.Proofs.Number.Shortest

namespace StepAndRepeat

namespace Json

open Binary

section Parts

variable {w f r : Text}

def NoDigit (r : Text) : Prop := ∀ c ∈ r.head?, isAsciiDigit c = false

/-- What stands behind a number: nothing that could be a part of it. -/
structure Ends (r : Text) : Prop where
  noDigit : NoDigit r
  noPoint : r.head? ≠ some '.'
  noExponent : r.head? ≠ some 'e' ∧ r.head? ≠ some 'E'

/-- Digits without a zero before them, unless that is all there is. -/
structure Whole (w : Text) : Prop where
  digits : ∀ c ∈ w, c.isDigit = true
  exists_cons : ∃ c t, w = c :: t ∧ (c = '0' → t = [])

theorem span_digits (hf : ∀ c ∈ f, c.isDigit = true) (hr : NoDigit r) :
    (f ++ r).takeWhile isAsciiDigit = f ∧ (f ++ r).dropWhile isAsciiDigit = r :=
  Text.span_append hf hr

theorem wholePart_append (hw : Whole w) (hr : NoDigit r) : wholePart (w ++ r) = some (w, r) := by
  obtain ⟨c, t, rfl, hzero⟩ := hw.exists_cons
  have ht : ∀ c ∈ t, c.isDigit = true := fun c hc ↦ hw.digits c (List.mem_cons_of_mem _ hc)
  by_cases hc : c = '0'
  · rw [hzero hc, hc]
    rfl
  · have hdigit : isAsciiDigit c = true := hw.digits c List.mem_cons_self
    obtain ⟨htake, hdrop⟩ := span_digits ht hr
    rw [List.cons_append, wholePart, if_pos hdigit, htake, hdrop]
    exact fun h ↦ hc h

theorem fractionPart_append (hf : ∀ c ∈ f, c.isDigit = true) (hne : f ≠ []) (hr : NoDigit r) :
    fractionPart ('.' :: (f ++ r)) = some (f, r) := by
  obtain ⟨c, t, rfl⟩ := List.exists_cons_of_ne_nil hne
  simp only [fractionPart, span_digits hf hr]

theorem fractionPart_eq_none (hr : r.head? ≠ some '.') : fractionPart r = none := by
  unfold fractionPart
  split
  next => exact absurd rfl hr
  next => rfl

theorem exponentPart_eq_none (hr : r.head? ≠ some 'e' ∧ r.head? ≠ some 'E') :
    exponentPart r = none := by
  cases r with
  | nil => rfl
  | cons c r =>
    have hc : ¬ (c = 'e' ∨ c = 'E') := by
      rintro (rfl | rfl)
      · exact hr.1 rfl
      · exact hr.2 rfl
    exact if_neg hc

theorem exponentPart_append (hf : ∀ c ∈ f, c.isDigit = true) (hne : f ≠ []) (hr : NoDigit r)
    (negative : Bool) : exponentPart ('e' :: (if negative then '-' else '+') :: (f ++ r)) =
      some (if negative then -(natOf f : ℤ) else natOf f, r) := by
  obtain ⟨c, t, rfl⟩ := List.exists_cons_of_ne_nil hne
  obtain ⟨htake, hdrop⟩ := span_digits hf hr
  rw [List.cons_append] at htake hdrop
  cases negative <;> simp [exponentPart, htake, hdrop]

theorem natOf_append (t u : Text) : natOf (t ++ u) = 10 ^ u.length * natOf t + natOf u :=
  natOfDigits_append t u

theorem natOf_zeros (n : ℕ) : natOf (List.replicate n '0') = 0 := natOfDigits_zeros n

theorem natOf_zero : natOf ['0'] = 0 := rfl

theorem isDigit_of_mem_zeros {n : ℕ} {c : Char} (h : c ∈ List.replicate n '0') :
    c.isDigit = true := by
  rw [List.eq_of_mem_replicate h]
  rfl

theorem exponentPart_text (l : Layout) (e : ℤ) (hr : NoDigit r) :
    exponentPart (l.exponentText e ++ r) = some (e, r) := by
  have hdigits : ∀ c ∈ List.replicate (l.exponentDigits - (Text.ofNat e.natAbs).length) '0' ++
      Text.ofNat e.natAbs, c.isDigit = true := fun c hc ↦
    (List.mem_append.1 hc).elim isDigit_of_mem_zeros Text.isDigit_of_mem_ofNat
  have hne : List.replicate (l.exponentDigits - (Text.ofNat e.natAbs).length) '0' ++
      Text.ofNat e.natAbs ≠ [] := List.append_ne_nil_of_right_ne_nil _ Nat.toDigits_ne_nil
  have hread := exponentPart_append hdigits hne hr (decide (e < 0))
  have hvalue : natOf (List.replicate (l.exponentDigits - (Text.ofNat e.natAbs).length) '0' ++
      Text.ofNat e.natAbs) = e.natAbs := by
    rw [natOf_append, natOf_zeros, Nat.mul_zero, Nat.zero_add]
    exact natOfDigits_ofNat _
  have hsign : (if decide (e < 0) then -(e.natAbs : ℤ) else e.natAbs) = e := by
    by_cases he : e < 0 <;> simp only [he, decide_true, decide_false, if_true] <;> grind
  rw [hvalue, hsign] at hread
  simpa [Layout.exponentText] using hread

end Parts

section Number

variable {w f r : Text}

theorem noDigit_point (t : Text) : NoDigit ('.' :: t) := by
  rintro c ⟨⟩
  rfl

theorem noDigit_exponentText (l : Layout) (e : ℤ) (t : Text) : NoDigit (l.exponentText e ++ t) := by
  rintro c ⟨⟩
  rfl

theorem number_whole (negative : Bool) (hw : Whole w) (hr : Ends r) (hl : w.length ≤ digitLimit) :
    number negative (w ++ r) = some (int (if negative then -(natOf w : ℤ) else natOf w), r) := by
  simp [number, wholePart_append hw hr.noDigit, fractionPart_eq_none hr.noPoint,
    exponentPart_eq_none hr.noExponent, hl]

theorem isDigit_of_wholePart {t : Text} (h : wholePart t = some (w, r)) :
    ∀ c ∈ w, c.isDigit = true := by
  unfold wholePart at h
  split at h
  next =>
    obtain ⟨rfl, -⟩ := Prod.mk.inj (Option.some_inj.1 h)
    exact fun c hc ↦ List.mem_singleton.1 hc ▸ rfl
  next c t _ =>
    split at h
    next hc =>
      obtain ⟨rfl, -⟩ := Prod.mk.inj (Option.some_inj.1 h)
      exact List.forall_mem_cons.2 ⟨hc, fun d hd ↦ List.mem_takeWhile_imp hd⟩
    next => cases h
  next => cases h

theorem number_cases {negative : Bool} {t : Text} {v : Json} (h : number negative t = some (v, r)) :
    (∃ n, v = int n ∧ Text.Short n) ∨ ∃ x, v = num x := by
  unfold number at h
  split at h
  next => cases h
  next w t hw =>
    have hlt := natOfDigits_lt (isDigit_of_wholePart hw)
    have hnum {x : Float} {u : Text} (h : some (num x, u) = some (v, r)) : ∃ x, v = num x :=
      ⟨x, (congrArg Prod.fst (Option.some_inj.1 h)).symm⟩
    -- a fraction or an exponent makes another kind of number
    cases hf : fractionPart t with
    | some p =>
      simp only [hf] at h
      split at h <;> exact .inr (hnum h)
    | none =>
      simp only [hf] at h
      cases he : exponentPart t with
      | some p =>
        simp only [he] at h
        exact .inr (hnum h)
      | none =>
        simp only [he, Bool.false_eq_true, ↓reduceIte] at h
        split at h
        next => cases h
        next hl =>
          refine .inl ⟨_, (congrArg Prod.fst (Option.some_inj.1 h)).symm, ?_⟩
          have habs : (if negative then -(natOf w : ℤ) else natOf w).natAbs = natOf w := by
            split <;> simp
          rw [Text.Short, habs]
          exact lt_of_lt_of_le hlt (Nat.pow_le_pow_right (by decide) (not_lt.1 hl))

theorem number_fraction (negative : Bool) (hw : Whole w) (hf : ∀ c ∈ f, c.isDigit = true)
    (hne : f ≠ []) (hr : Ends r) : number negative (w ++ '.' :: (f ++ r)) =
      some (num (if negative then -(ofDecimal (natOf (w ++ f)) (0 - f.length))
        else ofDecimal (natOf (w ++ f)) (0 - f.length)), r) := by
  simp only [number, wholePart_append hw (noDigit_point _), fractionPart_append hf hne hr.noDigit,
    exponentPart_eq_none hr.noExponent, if_true]

theorem number_exponent (negative : Bool) (hw : Whole w) (l : Layout) (e : ℤ) (hr : Ends r) :
    number negative (w ++ (l.exponentText e ++ r)) =
      some (num (if negative then -(ofDecimal (natOf w) e) else ofDecimal (natOf w) e), r) := by
  have hpoint : (l.exponentText e ++ r).head? ≠ some '.' := by
    change some 'e' ≠ some '.'
    decide
  simp only [number, wholePart_append hw (noDigit_exponentText l e r), fractionPart_eq_none hpoint,
    exponentPart_text l e hr.noDigit, if_true, Nat.cast_zero, sub_zero]

theorem number_fraction_exponent (negative : Bool) (hw : Whole w)
    (hf : ∀ c ∈ f, c.isDigit = true) (hne : f ≠ []) (l : Layout) (e : ℤ) (hr : Ends r) :
    number negative (w ++ '.' :: (f ++ (l.exponentText e ++ r))) =
      some (num (if negative then -(ofDecimal (natOf (w ++ f)) (e - f.length))
        else ofDecimal (natOf (w ++ f)) (e - f.length)), r) := by
  simp only [number, wholePart_append hw (noDigit_point _),
    fractionPart_append hf hne (noDigit_exponentText l e r), exponentPart_text l e hr.noDigit,
    if_true]

end Number

section Layout

variable {f r : Text} {d : Digits}

/-- The reading takes the text, up to what stands behind it, for the number of the digits: zeros
at their end are accounted for by the exponent. -/
def ReadsAs (negative : Bool) (t r : Text) (d : Digits) : Prop :=
  ∃ (c k : ℕ) (e : ℤ), number negative t =
      some (num (if negative then -(ofDecimal c e) else ofDecimal c e), r) ∧
    c = 10 ^ k * natOf d.digits ∧ k + e = d.point - d.digits.length

theorem value_of_zeros {c k : ℕ} {e : ℤ} (hc : c = 10 ^ k * natOf d.digits)
    (he : k + e = d.point - d.digits.length) : (c * 10 ^ e : ℝ) = d.value := by
  rw [Digits.value_eq, ← he, zpow_add₀ (by norm_num), zpow_natCast, hc]
  change ((10 ^ k * natOfDigits d.digits : ℕ) : ℝ) * _ = _
  push_cast
  ring

theorem zero_whole : Whole ['0'] :=
  ⟨fun c hc ↦ by rw [List.mem_singleton.1 hc]; rfl, '0', [], rfl, fun _ ↦ rfl⟩

theorem whole_take_append (hd : d.Proper) {k : ℕ} (hk : 0 < k)
    (hf : ∀ c ∈ f, c.isDigit = true) : Whole (d.digits.take k ++ f) := by
  obtain ⟨c, t, ht, hc⟩ := hd.exists_cons
  obtain ⟨k, rfl⟩ := Nat.exists_eq_succ_of_ne_zero hk.ne'
  refine ⟨fun a ha ↦ ?_, c, t.take k ++ f, by rw [ht]; rfl, fun h ↦ absurd h hc⟩
  exact (List.mem_append.1 ha).elim (fun ha ↦ hd.isDigit a (List.mem_of_mem_take ha)) (hf a)

theorem whole_take (hd : d.Proper) {k : ℕ} (hk : 0 < k) : Whole (d.digits.take k) := by
  have hwhole := whole_take_append (f := []) hd hk fun _ h ↦ absurd h List.not_mem_nil
  rwa [List.append_nil] at hwhole

theorem length_digits_pos (hd : d.Proper) : 0 < d.digits.length := by
  obtain ⟨c, t, ht, -⟩ := hd.exists_cons
  rw [ht]
  exact Nat.succ_pos _

variable (negative : Bool) (hd : d.Proper) (hr : Ends r)

include hd hr

theorem readsAs_small (hpoint : d.point ≤ 0) : ReadsAs negative
    (['0'] ++ '.' :: (List.replicate d.point.natAbs '0' ++ d.digits ++ r)) r d := by
  have hlen := length_digits_pos hd
  have hf : ∀ c ∈ List.replicate d.point.natAbs '0' ++ d.digits, c.isDigit = true :=
    fun c hc ↦ (List.mem_append.1 hc).elim isDigit_of_mem_zeros (hd.isDigit c)
  have hne := List.append_ne_nil_of_right_ne_nil (List.replicate d.point.natAbs '0')
    (List.ne_nil_of_length_pos hlen)
  refine ⟨_, 0, _, number_fraction negative zero_whole hf hne hr, ?_, ?_⟩
  · rw [natOf_append, natOf_append, natOf_zeros, natOf_zero]
    ring
  · simp only [List.length_append, List.length_replicate]
    omega

theorem readsAs_inner (hpoint : 0 < d.point) (hinner : d.point < d.digits.length) :
    ReadsAs negative
      (d.digits.take d.point.toNat ++ '.' :: (d.digits.drop d.point.toNat ++ r)) r d := by
  have hf : ∀ c ∈ d.digits.drop d.point.toNat, c.isDigit = true :=
    fun c hc ↦ hd.isDigit c (List.mem_of_mem_drop hc)
  have hne : d.digits.drop d.point.toNat ≠ [] := by
    rw [Ne, List.drop_eq_nil_iff]
    omega
  refine ⟨_, 0, _, number_fraction negative (whole_take hd (by omega)) hf hne hr, ?_, ?_⟩
  · rw [List.take_append_drop, pow_zero, one_mul]
  · simp only [List.length_drop]
    omega

theorem readsAs_large (hpoint : d.digits.length ≤ d.point) : ReadsAs negative
    (d.digits ++ List.replicate (d.point - d.digits.length).toNat '0' ++ '.' :: (['0'] ++ r)) r d := by
  have hwhole := whole_take_append (f := List.replicate (d.point - d.digits.length).toNat '0')
    hd (length_digits_pos hd) fun c hc ↦ isDigit_of_mem_zeros hc
  rw [List.take_length] at hwhole
  refine ⟨_, (d.point - d.digits.length).toNat + 1, _,
    number_fraction negative hwhole zero_whole.digits (List.cons_ne_nil _ _) hr, ?_, ?_⟩
  · rw [natOf_append, natOf_append, natOf_zeros, natOf_zero, List.length_replicate,
      List.length_singleton]
    ring
  · simp only [List.length_singleton]
    omega

theorem readsAs_exponent (l : Layout) : ReadsAs negative (d.digits.take 1 ++
    (if (d.digits.length : ℤ) ≤ 1 then [] else '.' :: d.digits.drop 1) ++
      l.exponentText (d.point - 1) ++ r) r d := by
  have hlen := length_digits_pos hd
  split
  next hone =>
    have hread := number_exponent negative (whole_take hd one_pos) l (d.point - 1) hr
    refine ⟨_, 0, _, by simpa only [List.append_nil, List.append_assoc] using hread, ?_, ?_⟩
    · rw [List.take_of_length_le (by omega), pow_zero, one_mul]
    · omega
  next hmore =>
    have hf : ∀ c ∈ d.digits.drop 1, c.isDigit = true :=
      fun c hc ↦ hd.isDigit c (List.mem_of_mem_drop hc)
    have hne : d.digits.drop 1 ≠ [] := by
      rw [Ne, List.drop_eq_nil_iff]
      omega
    have hread := number_fraction_exponent negative (whole_take hd one_pos) hf hne l
      (d.point - 1) hr
    refine ⟨_, 0, _, by simpa only [List.cons_append, List.append_assoc] using hread, ?_, ?_⟩
    · rw [List.take_append_drop, pow_zero, one_mul]
    · simp only [List.length_drop]
      omega

theorem readsAs_lay {l : Layout} (hl : l.keepPoint = true) :
    ReadsAs negative (l.lay d ++ r) r d := by
  unfold Layout.lay
  simp only [hl, if_true]
  split
  next =>
    split
    next hpoint => exact readsAs_small negative hd hr hpoint
    next hpoint =>
      split
      next hinner =>
        rw [List.append_assoc, List.cons_append]
        exact readsAs_inner negative hd hr (not_le.1 hpoint) hinner
      next hinner =>
        rw [List.append_assoc]
        exact readsAs_large negative hd hr (not_lt.1 hinner)
  next => exact readsAs_exponent negative hd hr l

end Layout

section Scalar

variable {t r : Text} {x : Float}

theorem exists_digit_of_number {negative : Bool} {p : Json × Text}
    (h : number negative t = some p) : ∃ c u, t = c :: u ∧ isAsciiDigit c = true := by
  cases t with
  | nil => cases h
  | cons c u =>
    refine ⟨c, u, rfl, ?_⟩
    by_contra hc
    have hnone : wholePart (c :: u) = none := by
      rw [wholePart, if_neg hc]
      rintro rfl
      exact hc rfl
    rw [number, hnone] at h
    cases h

theorem scalar_of_number {p : Json × Text} (h : number false t = some p) : scalar t = some p := by
  obtain ⟨c, u, rfl, hc⟩ := exists_digit_of_number h
  have hother (d : Char) (hd : isAsciiDigit d = false) (v : Text) (hv : c :: u = d :: v) :
      False := by
    rw [(List.cons.inj hv).1, hd] at hc
    cases hc
  rw [← h, scalar]
  all_goals first | exact hother _ (by decide) | (intro ht; cases ht)

theorem after?_append (word t : Text) : after? word (word ++ t) = some t := by
  rw [after?, if_pos (List.isPrefixOf_iff_prefix.2 (List.prefix_append word t)), List.drop_left]

theorem scalar_minus_of_number {p : Json × Text} (h : number true t = some p) :
    scalar ('-' :: t) = some p := by
  obtain ⟨c, u, rfl, hc⟩ := exists_digit_of_number h
  have hnone : after? "Infinity".toList (c :: u) = none := by
    refine if_neg fun hword ↦ ?_
    obtain ⟨v, hv⟩ := List.isPrefixOf_iff_prefix.1 hword
    have hhead : 'I' = c := Option.some.inj (congrArg List.head? hv)
    rw [← hhead] at hc
    exact absurd hc (by decide)
  rw [scalar, hnone, ← h]

theorem scalar_signed {negative : Bool} {p : Json × Text} (h : number negative t = some p) :
    scalar (signed negative t) = some p := by
  cases negative with
  | false => exact scalar_of_number h
  | true => exact scalar_minus_of_number h

theorem number_document {m : ℕ} {q : ℤ} (h : magnitude x = .finite m q) (hr : Ends r) :
    number (isNegative x) (Layout.document.lay (if m = 0 then ⟨['0'], 1⟩ else shortest m q) ++ r) =
      some (num x, r) := by
  split
  next hm =>
    rw [hm] at h
    have hread := number_fraction (isNegative x) zero_whole zero_whole.digits
      (List.cons_ne_nil _ _) hr
    have hzero : ofDecimal (natOf (['0'] ++ ['0'])) (0 - (['0'].length : ℕ)) = 0 := if_pos rfl
    rw [hzero, eq_of_magnitude_zero h] at hread
    exact hread
  next hm =>
    have hpos := Nat.pos_of_ne_zero hm
    obtain ⟨hc, -⟩ := canonical_of_parts (parts_of_magnitude hpos h)
    obtain ⟨c, k, e, hread, hzeros, he⟩ := readsAs_lay (isNegative x) (shortest_spec hc hpos).1 hr
      (l := Layout.document) rfl
    rw [hread, ofDecimal_of_shortest h hpos (value_of_zeros hzeros he)]

theorem scalar_render (x : Float) (hr : Ends r) :
    scalar (Layout.document.render x ++ r) = some (num x, r) := by
  have hsigned (negative : Bool) (t : Text) : signed negative t ++ r = signed negative (t ++ r) := by
    cases negative <;> rfl
  unfold Layout.render
  cases hx : magnitude x with
  | nan =>
    rw [← eq_of_magnitude_nan hx]
    exact congrArg (·.map (num (0 / 0), ·)) (after?_append "aN".toList r)
  | infinite =>
    rw [← eq_of_magnitude_infinite hx]
    dsimp only
    rw [hsigned]
    cases isNegative x with
    | false => exact congrArg (·.map (num infinity, ·)) (after?_append "nfinity".toList r)
    | true =>
      change scalar ('-' :: ("Infinity".toList ++ r)) = _
      rw [scalar, after?_append]
      rfl
  | finite m q =>
    dsimp only
    rw [hsigned]
    exact scalar_signed (number_document hx hr)

theorem whole_ofNat (n : ℕ) : Whole (Text.ofNat n) := by
  refine ⟨fun c hc ↦ Text.isDigit_of_mem_ofNat hc, ?_⟩
  rcases Nat.eq_zero_or_pos n with rfl | hn
  · exact ⟨'0', [], rfl, fun _ ↦ rfl⟩
  · obtain ⟨c, t, ht, hc⟩ := exists_ofNat_eq hn
    exact ⟨c, t, ht, fun h ↦ absurd h hc⟩

theorem scalar_ofInt {n : ℤ} (hn : Text.Short n) (hr : Ends r) :
    scalar (Text.ofInt n ++ r) = some (int n, r) := by
  have hlength := (Text.length_ofNat_le_iff (by decide)).2 hn
  have hread (negative : Bool) := number_whole negative (whole_ofNat n.natAbs) hr hlength
  rw [show natOf (Text.ofNat n.natAbs) = n.natAbs from natOfDigits_ofNat _] at hread
  unfold Text.ofInt
  split
  next hneg =>
    rw [List.cons_append, scalar_minus_of_number (hread true), if_pos rfl,
      show -(n.natAbs : ℤ) = n by omega]
  next hnonneg =>
    rw [scalar_of_number (hread false), if_neg Bool.false_ne_true,
      show (n.natAbs : ℤ) = n by omega]

end Scalar

end Json

end StepAndRepeat
