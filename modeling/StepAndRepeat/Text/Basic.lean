namespace StepAndRepeat

/-- A text is the list of its code points. -/
abbrev Text := List Char

namespace Text

def consFirst (c : Char) : List Text → List Text
  | [] => [[c]]
  | t :: ts => (c :: t) :: ts

/-- The pieces between the separators; there is one more of them than separators. -/
def cut (sep : Char) : Text → List Text
  | [] => [[]]
  | c :: t => if c = sep then [] :: cut sep t else consFirst c (cut sep t)

def join (sep : Text) : List Text → Text
  | [] => []
  | [t] => t
  | t :: ts => t ++ sep ++ join sep ts

def within (ranges : List (Nat × Nat)) (c : Char) : Bool :=
  ranges.any fun r ↦ r.1 ≤ c.toNat && c.toNat ≤ r.2

theorem cut_ne_nil (sep : Char) (t : Text) : cut sep t ≠ [] := by
  induction t with
  | nil => simp [cut]
  | cons c t ih =>
    unfold cut
    split
    · simp
    · cases h : cut sep t <;> simp [consFirst]

theorem join_cut (sep : Char) (t : Text) : join [sep] (cut sep t) = t := by
  induction t with
  | nil => rfl
  | cons c t ih =>
    unfold cut
    cases h : cut sep t with
    | nil => exact absurd h (cut_ne_nil sep t)
    | cons u us =>
      rw [h] at ih
      split
      · next hc => subst hc; simp [join, ih]
      · cases us with
        | nil => simpa [consFirst, join] using ih
        | cons v vs => simpa [consFirst, join] using ih

end Text

end StepAndRepeat
