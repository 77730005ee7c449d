import StepAndRepeat.Text.Digit

namespace StepAndRepeat

/-- The decimal fraction `digits / 10 ^ places`, negated if so marked. -/
structure Numeral where
  negative : Bool
  digits : Nat
  places : Nat
  deriving DecidableEq, Repr

namespace Numeral

open Text

def ofNat (n : Nat) : Numeral := ⟨false, n, 0⟩

def isSign (c : Char) : Bool := c = '+' || c = '-'

/-- The longest unsigned numeral at the start of a text, and what follows it: digits with an
optional point and digits, or a point and at least one digit. -/
def scanUnsigned (t : Text) : Option (Text × Text) :=
  match t.takeWhile isDigit, t.dropWhile isDigit with
  | [], '.' :: r =>
    match r.takeWhile isDigit with
    | [] => none
    | d :: ds => some ('.' :: d :: ds, r.dropWhile isDigit)
  | [], _ => none
  | d :: ds, '.' :: r => some (d :: ds ++ '.' :: r.takeWhile isDigit, r.dropWhile isDigit)
  | d :: ds, r => some (d :: ds, r)

def scan : Text → Option (Text × Text)
  | [] => none
  | c :: t =>
    if isSign c then (scanUnsigned t).map fun (n, r) ↦ (c :: n, r) else scanUnsigned (c :: t)

def ofText (t : Text) : Numeral where
  negative := t.head? = some '-'
  digits := digitsToNat t
  places := (t.dropWhile (· ≠ '.')).countP isDigit

theorem scanUnsigned_append {t n r : Text} (h : scanUnsigned t = some (n, r)) : n ++ r = t := by
  have ht := List.takeWhile_append_dropWhile (p := isDigit) (l := t)
  unfold scanUnsigned at h
  split at h
  · rename_i r' hw hd
    have hr := List.takeWhile_append_dropWhile (p := isDigit) (l := r')
    split at h
    · cases h
    · rename_i d ds he
      cases h
      rw [he] at hr
      rw [hw, hd] at ht
      simpa [← ht] using hr
  · cases h
  · rename_i d ds r' hw hd
    cases h
    simpa [hw, hd] using ht
  · rename_i d ds hw _
    cases h
    simpa [hw] using ht

theorem scanUnsigned_ne_nil {t n r : Text} (h : scanUnsigned t = some (n, r)) : n ≠ [] := by
  unfold scanUnsigned at h
  split at h
  · split at h <;> cases h; simp
  · cases h
  · cases h; simp
  · cases h; simp

theorem scan_append {t n r : Text} (h : scan t = some (n, r)) : n ++ r = t := by
  cases t with
  | nil => cases h
  | cons c t =>
    simp only [scan] at h
    split at h
    · obtain ⟨⟨m, s⟩, hm, he⟩ := Option.map_eq_some_iff.1 h
      cases he
      simp [scanUnsigned_append hm]
    · exact scanUnsigned_append h

theorem scan_ne_nil {t n r : Text} (h : scan t = some (n, r)) : n ≠ [] := by
  cases t with
  | nil => cases h
  | cons c t =>
    simp only [scan] at h
    split at h
    · obtain ⟨⟨m, s⟩, _, he⟩ := Option.map_eq_some_iff.1 h
      cases he
      simp
    · exact scanUnsigned_ne_nil h

theorem length_lt_of_scan {t n r : Text} (h : scan t = some (n, r)) : r.length < t.length := by
  have hn := List.length_pos_iff.2 (scan_ne_nil h)
  have := congrArg List.length (scan_append h)
  simp at this
  omega

end Numeral

end StepAndRepeat
