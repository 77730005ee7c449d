import Mathlib.Data.List.Basic
import StepAndRepeat.Machine.Modes

namespace StepAndRepeat

section Carry

variable {β γ : Type} (set? : γ → Option β)

/-- The value in force after items, some of which set it. -/
def carry (b : β) (ls : List γ) : β := ls.foldl (fun b l ↦ (set? l).getD b) b

@[simp] theorem carry_nil (b : β) : carry set? b [] = b := rfl

@[simp] theorem carry_cons (b : β) (l : γ) (ls : List γ) :
    carry set? b (l :: ls) = carry set? ((set? l).getD b) ls := rfl

theorem carry_append (b : β) (ls ks : List γ) :
    carry set? b (ls ++ ks) = carry set? (carry set? b ls) ks := by
  simp [carry, List.foldl_append]

variable {set?}

theorem carry_eq_self {ls : List γ} (h : ∀ l ∈ ls, set? l = none) (b : β) :
    carry set? b ls = b := by
  induction ls with
  | nil => rfl
  | cons l ls ih =>
    rw [carry_cons, h l (by simp), Option.getD_none]
    exact ih fun k hk ↦ h k (by simp [hk])

/-- The last setting item decides. -/
theorem carry_eq_of_last {ls ks : List γ} {s : γ} {v : β} (hs : set? s = some v)
    (hk : ∀ l ∈ ks, set? l = none) (b : β) : carry set? b (ls ++ s :: ks) = v := by
  rw [carry_append, carry_cons, hs, Option.getD_some, carry_eq_self hk]

theorem unset_or_last (set? : γ → Option β) (ls : List γ) :
    (∀ l ∈ ls, set? l = none) ∨
      ∃ ps s ks v, ls = ps ++ s :: ks ∧ set? s = some v ∧ ∀ k ∈ ks, set? k = none := by
  induction ls with
  | nil => exact .inl (by simp)
  | cons l ls ih =>
    rcases ih with h | ⟨ps, s, ks, v, rfl, hs, hk⟩
    · cases hl : set? l with
      | none => exact .inl (by simpa [hl] using h)
      | some v => exact .inr ⟨[], l, ls, v, rfl, hl, h⟩
    · exact .inr ⟨l :: ps, s, ks, v, rfl, hs, hk⟩

variable (set?) in
def lastSet? (ls : List γ) : Option γ := ls.reverse.find? fun l ↦ (set? l).isSome

theorem mem_of_lastSet? {ls : List γ} {s : γ} (h : lastSet? set? ls = some s) : s ∈ ls :=
  List.mem_reverse.1 (List.mem_of_find?_eq_some h)

theorem isSome_of_lastSet? {ls : List γ} {s : γ} (h : lastSet? set? ls = some s) :
    (set? s).isSome = true := by
  have hs := List.find?_some h
  exact hs

theorem lastSet?_of_last {ls ks : List γ} {s : γ} {v : β} (hs : set? s = some v)
    (hk : ∀ l ∈ ks, set? l = none) : lastSet? set? (ls ++ s :: ks) = some s := by
  have hn : ks.reverse.find? (fun l ↦ (set? l).isSome) = none := by
    rw [List.find?_eq_none]
    intro l hl
    simp [hk l (List.mem_reverse.1 hl)]
  simp [lastSet?, List.find?_append, hn, hs]

theorem carry_of_lastSet? {ls : List γ} {s : γ} (h : lastSet? set? ls = some s) (b : β) :
    set? s = some (carry set? b ls) := by
  rcases unset_or_last set? ls with hn | ⟨ps, s', ks, v, rfl, hs, hk⟩
  · have hset := isSome_of_lastSet? h
    rw [hn s (mem_of_lastSet? h)] at hset
    cases hset
  · rw [lastSet?_of_last hs hk, Option.some_inj] at h
    rw [carry_eq_of_last hs hk, ← h, hs]

theorem carry_of_lastSet?_none {ls : List γ} (h : lastSet? set? ls = none) (b : β) :
    carry set? b ls = b := by
  rcases unset_or_last set? ls with hn | ⟨ps, s, ks, v, rfl, hs, hk⟩
  · exact carry_eq_self hn b
  · rw [lastSet?_of_last hs hk] at h
    cases h

theorem exists_lastSet?_of_carry_ne {ls : List γ} {b : β} (h : carry set? b ls ≠ b) :
    ∃ s, lastSet? set? ls = some s :=
  Option.ne_none_iff_exists'.1 fun hn ↦ h (carry_of_lastSet?_none hn b)

/-- Some of the items of a list, in their order, leave the same value in force as all of them,
if the last setting item is among them. Items are known by their numbers. -/
theorem carry_eq_of_lastSet?_mem (number : γ → Nat) {ls ks : List γ}
    (hl : ls.Pairwise (number · < number ·)) (hk : ks.Pairwise (number · < number ·))
    (hm : ∀ k ∈ ks, ∃ l ∈ ls, number l = number k ∧ set? k = set? l)
    {s : γ} (hs : lastSet? set? ls = some s) (hsk : number s ∈ ks.map number) (b c : β) :
    carry set? b ks = carry set? c ls := by
  rcases unset_or_last set? ls with hn | ⟨ps, s', es, v, rfl, hv, hes⟩
  · have hf := List.find?_some hs
    simp [hn s (mem_of_lastSet? hs)] at hf
  rw [lastSet?_of_last hv hes, Option.some_inj] at hs
  subst hs
  obtain ⟨hps, hes', hpe⟩ := List.pairwise_append.1 hl
  have hafter : ∀ l ∈ ps ++ s' :: es, number s' < number l → set? l = none := by
    intro l hml hlt
    rcases List.mem_append.1 hml with h | h
    · exact absurd (hpe l h s' (by simp)) (by omega)
    · rcases List.mem_cons.1 h with rfl | h
      · exact absurd hlt (by omega)
      · exact hes l h
  have hat : ∀ l ∈ ps ++ s' :: es, number l = number s' → l = s' := by
    intro l hml he
    rcases List.mem_append.1 hml with h | h
    · exact absurd (hpe l h s' (by simp)) (by omega)
    · rcases List.mem_cons.1 h with rfl | h
      · rfl
      · exact absurd ((List.pairwise_cons.1 hes').1 l h) (by omega)
  obtain ⟨r, hr, hrs⟩ := List.mem_map.1 hsk
  obtain ⟨l, hml, hlr, hset⟩ := hm r hr
  rw [hat l hml (hlr.trans hrs), hv] at hset
  obtain ⟨xs, ys, rfl⟩ := List.append_of_mem hr
  rw [carry_eq_of_last hv hes]
  refine carry_eq_of_last hset (fun y hy ↦ ?_) b
  have hry := (List.pairwise_cons.1 (List.pairwise_append.1 hk).2.1).1 y hy
  obtain ⟨l, hml, hly, hset⟩ := hm y (by simp [hy])
  rw [hset]
  exact hafter l hml (by omega)

end Carry

namespace Line

variable {α : Type} [Coordinate α] (l : Line α)

def newDistance? : Option Distance := if l.kind = .code then l.distance? else none

def newMotion? : Option Motion := if l.kind = .code then l.motion? else none

end Line

namespace Modes

variable {α : Type} [Coordinate α]

/-- The modes once a line is read. Blank lines and comment lines change nothing. -/
def read (m : Modes) (l : Line α) : Modes := if l.kind = .code then m.after l else m

def through (m : Modes) (ls : List (Line α)) : Modes := ls.foldl read m

@[simp] theorem through_nil (m : Modes) : m.through ([] : List (Line α)) = m := rfl

@[simp] theorem through_cons (m : Modes) (l : Line α) (ls : List (Line α)) :
    m.through (l :: ls) = (m.read l).through ls := rfl

theorem through_append (m : Modes) (ls ks : List (Line α)) :
    m.through (ls ++ ks) = (m.through ls).through ks := by
  simp [through, List.foldl_append]

theorem read_distance (m : Modes) (l : Line α) :
    (m.read l).distance = l.newDistance?.getD m.distance := by
  unfold read Line.newDistance?
  split <;> rfl

theorem read_motion (m : Modes) (l : Line α) :
    (m.read l).motion = l.newMotion?.getD m.motion := by
  unfold read Line.newMotion?
  split <;> rfl

theorem through_distance (m : Modes) (ls : List (Line α)) :
    (m.through ls).distance = carry Line.newDistance? m.distance ls := by
  induction ls generalizing m with
  | nil => rfl
  | cons l ls ih => rw [through_cons, ih, read_distance, carry_cons]

theorem through_motion (m : Modes) (ls : List (Line α)) :
    (m.through ls).motion = carry Line.newMotion? m.motion ls := by
  induction ls generalizing m with
  | nil => rfl
  | cons l ls ih => rw [through_cons, ih, read_motion, carry_cons]

end Modes

end StepAndRepeat
