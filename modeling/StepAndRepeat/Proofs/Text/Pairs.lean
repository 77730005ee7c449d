import StepAndRepeat.Text.CodeText
import Mathlib.Data.List.Chain

namespace StepAndRepeat

open Text

namespace CodePoint

def pair? : CodePoint → CodePoint → Option Char
  | half h, half l =>
    if isHighUnit (0xD800 + h) && isLowUnit (0xD800 + l) then
      some (ofPair (0xD800 + h) (0xD800 + l))
    else none
  | _, _ => none

def before (p : CodePoint) : CodeText → CodeText
  | [] => [p]
  | q :: t =>
    match pair? p q with
    | some c => char c :: t
    | none => p :: q :: t

variable {p : CodePoint} {t : CodeText}

theorem before_of_not_high (h : ∀ q, pair? p q = none) : before p t = p :: t := by
  cases t with
  | nil => rfl
  | cons q t => rw [before, h]

theorem exists_before (h : ∀ q, pair? q p = none) :
    ∃ q r, before p t = q :: r ∧ ∀ a, pair? a q = none := by
  cases t with
  | nil => exact ⟨p, [], rfl, h⟩
  | cons q t =>
    rw [before]
    split
    next c _ => exact ⟨char c, t, rfl, fun a ↦ by cases a <;> rfl⟩
    next => exact ⟨p, q :: t, rfl, h⟩

end CodePoint

namespace CodeText

open CodePoint

/-- The text with each pair of halves put together. -/
def joined (t : CodeText) : CodeText := t.foldr before []

/-- No two halves that follow each other are a pair. -/
def Settled (t : CodeText) : Prop := t.IsChain fun p q ↦ pair? p q = none

variable {t : CodeText} {p : CodePoint}

theorem before_of_settled (h : Settled (p :: t)) : before p t = p :: t := by
  cases t with
  | nil => rfl
  | cons q t =>
    have hpair : pair? p q = none := (List.isChain_cons_cons.1 h).1
    rw [before, hpair]

theorem settled_before (h : Settled t) : Settled (before p t) := by
  cases t with
  | nil => exact List.isChain_singleton p
  | cons q t =>
    rw [before]
    split
    next c hc =>
      cases t with
      | nil => exact List.isChain_singleton _
      | cons r t => exact List.isChain_cons_cons.2 ⟨rfl, (List.isChain_cons_cons.1 h).2⟩
    next hnone => exact List.isChain_cons_cons.2 ⟨hnone, h⟩

theorem settled_joined (t : CodeText) : Settled t.joined := by
  induction t with
  | nil => exact List.isChain_nil
  | cons p t ih => exact settled_before ih

theorem joined_of_settled (h : Settled t) : t.joined = t := by
  induction t with
  | nil => rfl
  | cons p t ih =>
    have ht : joined t = t := ih h.tail
    have hstep : joined (p :: t) = before p (joined t) := rfl
    rw [hstep, ht, before_of_settled h]

theorem settled_ofText (t : Text) : Settled (ofText t) := by
  refine (List.isChain_map _).2 ?_
  induction t with
  | nil => exact List.isChain_nil
  | cons c t ih => exact List.isChain_cons.2 ⟨fun _ _ ↦ rfl, ih⟩

theorem text?_ofText (t : Text) : (ofText t).text? = some t := by
  induction t with
  | nil => rfl
  | cons c t ih =>
    have hstep : (ofText (c :: t)).text? = ((ofText t).text?).map (c :: ·) := by
      change List.mapM char? (.char c :: ofText t) = _
      rw [List.mapM_cons]
      change (List.mapM char? (ofText t)).bind _ = _
      rw [text?]
      cases List.mapM char? (ofText t) <;> rfl
    rw [hstep, ih]
    rfl

end CodeText

end StepAndRepeat
