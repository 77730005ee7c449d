import StepAndRepeat.Number.Numeral
import StepAndRepeat.Text.Letter

namespace StepAndRepeat

namespace Text

theorem span_append {β : Type} {p : β → Bool} {t r : List β} (ht : ∀ c ∈ t, p c = true)
    (hr : ∀ c ∈ r.head?, p c = false) :
    (t ++ r).takeWhile p = t ∧ (t ++ r).dropWhile p = r := by
  rw [List.takeWhile_append_of_pos ht, List.dropWhile_append_of_pos ht]
  cases r with
  | nil => simp
  | cons c r => simp [hr c rfl]

theorem isDigit_eq_any (c : Char) :
    isDigit c = zeros.any fun z ↦ z ≤ c.toNat && c.toNat < z + 10 := by
  rw [isDigit, digitValue?, Option.isSome_map, Bool.eq_iff_iff, List.find?_isSome,
    List.any_eq_true]

theorem isDigit_of_isDigit {c : Char} (h : c.isDigit = true) : isDigit c = true := by
  rw [isDigit_eq_any, List.any_eq_true]
  refine ⟨0x30, by decide, ?_⟩
  simp only [Char.isDigit, Bool.and_eq_true, decide_eq_true_eq] at h ⊢
  exact ⟨h.1, Nat.lt_succ_of_le h.2⟩

theorem not_isDigit_of_isLetter {c : Char} (h : isLetter c = true) : isDigit c = false := by
  have hlow : ∀ z ∈ zeros, z = 0x30 ∨ 0x660 ≤ z := by decide
  have hkelvin : ∀ z ∈ zeros, ¬ (z ≤ 0x212A ∧ 0x212A < z + 10) := by decide
  rw [isDigit_eq_any, List.any_eq_false]
  intro z hz
  simp only [isLetter, within, letterRanges, List.any_cons, List.any_nil, Bool.or_false,
    Bool.or_eq_true, Bool.and_eq_true, decide_eq_true_eq] at h
  simp only [Bool.and_eq_true, decide_eq_true_eq]
  rcases hlow z hz with h' | h'
  · omega
  · intro hc
    have hk : c.toNat ≠ 0x212A := fun e ↦ hkelvin z hz (e ▸ hc)
    omega

theorem isLetter_ne {c d : Char} (h : isLetter c = true) (hd : isLetter d = false) : c ≠ d := by
  rintro rfl
  simp [h] at hd

end Text

namespace Numeral

open Text

/-- Digits, or digits around a point; the mark says whether there is a point. -/
inductive Unsigned : Text → Bool → Prop
  | whole {ds : Text} : ds ≠ [] → (∀ d ∈ ds, isDigit d = true) → Unsigned ds false
  | pointed {ds fs : Text} : ds ≠ [] ∨ fs ≠ [] → (∀ d ∈ ds, isDigit d = true) →
      (∀ d ∈ fs, isDigit d = true) → Unsigned (ds ++ '.' :: fs) true

inductive Shape : Text → Bool → Prop
  | unsigned {n : Text} {pointed : Bool} : Unsigned n pointed → Shape n pointed
  | signed {c : Char} {n : Text} {pointed : Bool} : isSign c = true → Unsigned n pointed →
      Shape (c :: n) pointed

/-- A numeral does not go on into the text. -/
def Stops (pointed : Bool) (r : Text) : Prop :=
  ∀ c ∈ r.head?, isDigit c = false ∧ (pointed = false → c ≠ '.')

instance decidableStops (pointed : Bool) : (r : Text) → Decidable (Stops pointed r)
  | [] => .isTrue fun _ hc ↦ nomatch hc
  | c :: _ => decidable_of_iff (isDigit c = false ∧ (pointed = false → c ≠ '.'))
      ⟨fun h _ hd ↦ Option.some_inj.1 hd ▸ h, fun h ↦ h c rfl⟩

theorem digits_takeWhile (t : Text) : ∀ d ∈ t.takeWhile isDigit, isDigit d = true :=
  List.all_eq_true.1 List.all_takeWhile

theorem head?_dropWhile (t : Text) : ∀ c ∈ (t.dropWhile isDigit).head?, isDigit c = false := by
  intro c hc
  have := List.head?_dropWhile_not isDigit t
  rw [hc] at this
  simpa using this

theorem scanUnsigned_eq_some {n r : Text} {pointed : Bool} (hn : Unsigned n pointed)
    (hr : Stops pointed r) : scanUnsigned (n ++ r) = some (n, r) := by
  cases hn with
  | @whole _ hne hd =>
    obtain ⟨ht, hw⟩ := span_append hd fun c hc ↦ (hr c hc).1
    obtain ⟨d, ds, rfl⟩ := List.exists_cons_of_ne_nil hne
    rw [scanUnsigned, ht, hw]
    cases r with
    | nil => rfl
    | cons c r =>
      have hc : c ≠ '.' := (hr c rfl).2 rfl
      split <;> simp_all
  | @pointed ds fs hne hd hf =>
    have hp : ∀ c ∈ ('.' :: (fs ++ r)).head?, isDigit c = false := by
      rintro c ⟨⟩
      decide
    obtain ⟨ht, hw⟩ := span_append hd hp
    obtain ⟨ht', hw'⟩ := span_append hf fun c hc ↦ (hr c hc).1
    rw [scanUnsigned, List.append_assoc, List.cons_append, ht, hw]
    cases ds with
    | nil =>
      obtain ⟨d, fs, rfl⟩ := List.exists_cons_of_ne_nil (hne.resolve_left (by simp))
      simp only [ht', hw', List.nil_append]
    | cons d ds => simp only [ht', hw']

theorem unsigned_of_scanUnsigned {t n r : Text} (h : scanUnsigned t = some (n, r)) :
    ∃ pointed, Unsigned n pointed ∧ Stops pointed r := by
  have hd := digits_takeWhile t
  have hs := head?_dropWhile t
  unfold scanUnsigned at h
  split at h
  next u hw hr =>
    split at h
    · cases h
    next d ds he =>
      cases h
      have hu : Unsigned ([] ++ '.' :: d :: ds) true :=
        .pointed (.inr (by simp)) (by simp) (he ▸ digits_takeWhile u)
      refine ⟨true, hu, fun c hc ↦ ⟨?_, by simp⟩⟩
      exact head?_dropWhile u c hc
  · cases h
  next d ds u hw hr =>
    cases h
    refine ⟨true, .pointed (.inl (by simp)) (hw ▸ hd) (digits_takeWhile u), fun c hc ↦ ⟨?_, by simp⟩⟩
    exact head?_dropWhile u c hc
  next d ds hw hne =>
    cases h
    refine ⟨false, .whole (by simp) (hw ▸ hd), fun c hc ↦ ⟨hs c hc, fun _ he ↦ ?_⟩⟩
    subst he
    obtain ⟨u, hu⟩ := List.head?_eq_some_iff.1 hc
    exact hne u hu

theorem Unsigned.not_isSign {c : Char} {n : Text} {pointed : Bool}
    (h : Unsigned (c :: n) pointed) : isSign c = false := by
  have hd : ∀ d, isDigit d = true → isSign d = false := by
    intro d hd
    have hp : d ≠ '+' := by rintro rfl; exact absurd hd (by decide)
    have hm : d ≠ '-' := by rintro rfl; exact absurd hd (by decide)
    simp [isSign, hp, hm]
  generalize he : c :: n = t at h
  cases h with
  | whole _ hds => exact hd c (hds c (he ▸ List.mem_cons_self))
  | @pointed ds _ _ hds _ =>
    cases ds with
    | nil =>
      cases he
      decide
    | cons d ds =>
      cases he
      exact hd c (hds c List.mem_cons_self)

theorem Shape.mem {n : Text} {pointed : Bool} (h : Shape n pointed) {c : Char} (hc : c ∈ n) :
    isDigit c = true ∨ c = '.' ∨ isSign c = true := by
  have hu {n : Text} (h : Unsigned n pointed) (hc : c ∈ n) : isDigit c = true ∨ c = '.' := by
    cases h with
    | whole _ hd => exact .inl (hd c hc)
    | pointed _ hd hf =>
      rcases List.mem_append.1 hc with hc | hc
      · exact .inl (hd c hc)
      · rcases List.mem_cons.1 hc with rfl | hc
        · exact .inr rfl
        · exact .inl (hf c hc)
  cases h with
  | unsigned h => exact (hu h hc).imp_right .inl
  | signed hs h =>
    rcases List.mem_cons.1 hc with rfl | hc
    · exact .inr (.inr hs)
    · exact (hu h hc).imp_right .inl

theorem scan_eq_some {n r : Text} {pointed : Bool} (hn : Shape n pointed)
    (hr : Stops pointed r) : scan (n ++ r) = some (n, r) := by
  cases hn with
  | unsigned hu =>
    have hs := scanUnsigned_eq_some hu hr
    cases n with
    | nil => exact absurd rfl (scanUnsigned_ne_nil hs)
    | cons c n =>
      rw [List.cons_append, scan, hu.not_isSign]
      exact hs
  | signed hc hu =>
    rw [List.cons_append, scan, if_pos hc, scanUnsigned_eq_some hu hr]
    rfl

theorem shape_of_scan {t n r : Text} (h : scan t = some (n, r)) :
    ∃ pointed, Shape n pointed ∧ Stops pointed r := by
  cases t with
  | nil => cases h
  | cons c t =>
    rw [scan] at h
    split at h
    next hc =>
      obtain ⟨⟨m, s⟩, hm, he⟩ := Option.map_eq_some_iff.1 h
      cases he
      obtain ⟨pointed, hu, hs⟩ := unsigned_of_scanUnsigned hm
      exact ⟨pointed, .signed hc hu, hs⟩
    next =>
      obtain ⟨pointed, hu, hs⟩ := unsigned_of_scanUnsigned h
      exact ⟨pointed, .unsigned hu, hs⟩

/-- An unsigned numeral begins with a digit, or with a point before a digit. -/
def beginsUnsigned : Text → Bool
  | [] => false
  | c :: t => isDigit c || (c = '.' && t.head?.any isDigit)

def begins : Text → Bool
  | [] => false
  | c :: t => if isSign c then beginsUnsigned t else beginsUnsigned (c :: t)

theorem Stops.of_isLetter {c : Char} (h : isLetter c = true) (pointed : Bool) (t : Text) :
    Stops pointed (c :: t) := by
  rintro d ⟨⟩
  exact ⟨not_isDigit_of_isLetter h, fun _ ↦ isLetter_ne h (by decide)⟩

theorem Stops.weaken {t : Text} (h : Stops false t) (pointed : Bool) : Stops pointed t :=
  fun c hc ↦ ⟨(h c hc).1, fun _ ↦ (h c hc).2 rfl⟩

theorem Stops.not_beginsUnsigned {t : Text} (h : Stops false t) : beginsUnsigned t = false := by
  cases t with
  | nil => rfl
  | cons c t =>
    obtain ⟨hd, hp⟩ := h c rfl
    simp [beginsUnsigned, hd, hp]

/-- A text that can stand in the place of another behind a numeral or a letter: it begins the same
way, and where it goes on in another way, it does so with neither a digit nor a point. -/
inductive Follows : Text → Text → Prop
  | cons (c : Char) {t t' : Text} : Follows t t' → Follows (c :: t) (c :: t')
  | stops {t t' : Text} : Stops false t' → Follows t t'

section Follows

variable {t t' : Text}

theorem Follows.keepsStops (h : Follows t t') {pointed : Bool} (hs : Stops pointed t) :
    Stops pointed t' := by
  cases h with
  | cons c => exact fun d hd ↦ hs d hd
  | stops ht => exact ht.weaken pointed

theorem stops_true_iff : Stops true t ↔ t.head?.any isDigit = false := by
  cases t with
  | nil => simp [Stops]
  | cons c t => simp [Stops]

theorem Follows.not_beginsUnsigned (h : Follows t t') (hb : beginsUnsigned t = false) :
    beginsUnsigned t' = false := by
  cases h with
  | stops ht => exact ht.not_beginsUnsigned
  | cons c h =>
    simp only [beginsUnsigned, Bool.or_eq_false_iff, Bool.and_eq_false_imp] at hb ⊢
    refine ⟨hb.1, fun hp ↦ ?_⟩
    exact stops_true_iff.1 (h.keepsStops (stops_true_iff.2 (hb.2 hp)))

theorem Follows.not_begins {c : Char} (h : Follows t t') (hb : begins (c :: t) = false) :
    begins (c :: t') = false := by
  have hu := (Follows.cons c h).not_beginsUnsigned
  rw [begins] at hb ⊢
  split at hb
  next hs =>
    rw [if_pos hs]
    exact h.not_beginsUnsigned hb
  next hs =>
    rw [if_neg hs]
    exact hu hb

theorem not_begins_of_isLetter {c : Char} (h : isLetter c = true) (t : Text) :
    begins (c :: t) = false := by
  have hp : c ≠ '+' := isLetter_ne h (by decide)
  have hm : c ≠ '-' := isLetter_ne h (by decide)
  have hs : isSign c = false := by simp [isSign, hp, hm]
  rw [begins, if_neg (by simp [hs])]
  exact (Stops.of_isLetter h false t).not_beginsUnsigned

end Follows

theorem isSome_scanUnsigned (t : Text) : (scanUnsigned t).isSome = beginsUnsigned t := by
  cases t with
  | nil => rfl
  | cons c t =>
    cases hc : isDigit c with
    | true =>
      rw [scanUnsigned, List.takeWhile_cons_of_pos hc, beginsUnsigned, hc]
      split <;> simp_all
    | false =>
      have hn : ¬ isDigit c = true := by simp [hc]
      rw [scanUnsigned, List.takeWhile_cons_of_neg hn, List.dropWhile_cons_of_neg hn,
        beginsUnsigned, hc, Bool.false_or]
      by_cases hp : c = '.'
      · subst hp
        cases t with
        | nil => rfl
        | cons d t => cases hd : isDigit d <;> simp [hd]
      · simp [hp]

theorem isSome_scan (t : Text) : (scan t).isSome = begins t := by
  cases t with
  | nil => rfl
  | cons c t =>
    rw [scan, begins]
    split
    · rw [Option.isSome_map, isSome_scanUnsigned]
    · rw [isSome_scanUnsigned]

end Numeral

end StepAndRepeat
