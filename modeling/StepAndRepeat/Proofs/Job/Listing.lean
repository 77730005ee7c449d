import Mathlib.Data.List.DropRight
import Mathlib.Data.List.Induction
import StepAndRepeat.Problem

namespace StepAndRepeat.Problem

variable {p q : Problem} {s : Severity} {ps : List Problem}

section Gathering

def Event.problem? : Event → Option Problem
  | .found p => some p
  | .cleared => none

def gathered (es : List Event) : List Problem := es.foldl record []

/-- The problems found since the last clearing, in the order found. -/
def sinceCleared (es : List Event) : List Problem :=
  (es.rtakeWhile (·.problem?.isSome)).filterMap Event.problem?

theorem sinceCleared_concat (es : List Event) (e : Event) :
    sinceCleared (es ++ [e]) = record (sinceCleared es) e := by
  rw [sinceCleared, List.rtakeWhile_concat]
  cases e with
  | found p => simp [sinceCleared, record, Event.problem?]
  | cleared => rfl

theorem gathered_eq_sinceCleared (es : List Event) : gathered es = sinceCleared es := by
  -- from the end, where the last event takes effect
  induction es using List.reverseRecOn with
  | nil => rfl
  | append_singleton es e ih =>
    rw [sinceCleared_concat, ← ih]
    exact List.foldl_append

end Gathering

section Sorting

theorem isAsGraveAs_iff : p.isAsGraveAs q = true ↔ p.severity.rank ≤ q.severity.rank :=
  decide_eq_true_iff

theorem isAsGraveAs_trans (p q r : Problem) (hpq : p.isAsGraveAs q = true)
    (hqr : q.isAsGraveAs r = true) : p.isAsGraveAs r = true :=
  isAsGraveAs_iff.2 ((isAsGraveAs_iff.1 hpq).trans (isAsGraveAs_iff.1 hqr))

theorem isAsGraveAs_total (p q : Problem) : (p.isAsGraveAs q || q.isAsGraveAs p) = true := by
  rw [Bool.or_eq_true, isAsGraveAs_iff, isAsGraveAs_iff]
  exact Nat.le_total _ _

theorem listed_perm (ps : List Problem) : (listed ps).Perm ps := List.mergeSort_perm ps _

theorem pairwise_listed (ps : List Problem) :
    (listed ps).Pairwise fun p q ↦ p.isAsGraveAs q = true :=
  List.pairwise_mergeSort isAsGraveAs_trans isAsGraveAs_total ps

theorem isAsGraveAs_of_head? (hp : (listed ps).head? = some p) (hq : q ∈ ps) :
    p.isAsGraveAs q = true := by
  obtain ⟨rest, hrest⟩ := List.head?_eq_some_iff.1 hp
  have hsorted := pairwise_listed ps
  have hmem : q ∈ listed ps := (listed_perm ps).mem_iff.2 hq
  rw [hrest] at hsorted hmem
  rcases List.mem_cons.1 hmem with rfl | hlater
  · exact isAsGraveAs_iff.2 le_rfl
  · exact List.rel_of_pairwise_cons hsorted hlater

def ofSeverity (s : Severity) (ps : List Problem) : List Problem := ps.filter (·.severity = s)

theorem mem_ofSeverity : p ∈ ofSeverity s ps ↔ p ∈ ps ∧ p.severity = s := by simp [ofSeverity]

theorem ofSeverity_cons : ofSeverity s (p :: ps) =
    if p.severity = s then p :: ofSeverity s ps else ofSeverity s ps := by
  simp [ofSeverity, List.filter_cons]

theorem ofSeverity_eq_nil_iff : ofSeverity s ps = [] ↔ ∀ p ∈ ps, p.severity ≠ s := by
  simp [ofSeverity]

/-- Problems of one severity are listed in the order found. -/
theorem ofSeverity_listed (s : Severity) (ps : List Problem) :
    ofSeverity s (listed ps) = ofSeverity s ps := by
  have hsorted : (ofSeverity s ps).Pairwise fun p q ↦ p.isAsGraveAs q = true := by
    refine List.pairwise_of_forall_mem_list fun p hp q hq ↦ isAsGraveAs_iff.2 ?_
    rw [(mem_ofSeverity.1 hp).2, (mem_ofSeverity.1 hq).2]
  -- a stable sort keeps the order of problems that are in order already
  have hsub : (ofSeverity s ps).Sublist (listed ps) :=
    List.sublist_mergeSort isAsGraveAs_trans isAsGraveAs_total hsorted List.filter_sublist
  have hkept : (ofSeverity s ps).Sublist (ofSeverity s (listed ps)) := by
    simpa [ofSeverity] using hsub.filter (·.severity = s)
  exact (hkept.eq_of_length ((listed_perm ps).filter _).length_eq.symm).symm

/-- Where none is graver than one before it, problems stand severity by severity. -/
theorem eq_append_of_pairwise (h : ps.Pairwise fun p q ↦ p.isAsGraveAs q = true) :
    ps = ofSeverity .fatal ps ++ ofSeverity .error ps ++ ofSeverity .warning ps := by
  induction ps with
  | nil => rfl
  | cons p ps ih =>
    obtain ⟨hp, hps⟩ := List.pairwise_cons.1 h
    have hnone {s : Severity} (hs : s.rank < p.severity.rank) : ofSeverity s ps = [] := by
      refine ofSeverity_eq_nil_iff.2 fun q hq hqs ↦ ?_
      have hle := isAsGraveAs_iff.1 (hp q hq)
      rw [hqs] at hle
      omega
    have hih := ih hps
    cases hs : p.severity with
    | fatal => simpa [ofSeverity_cons, hs] using hih
    | error =>
      have hfatal : ofSeverity .fatal ps = [] := hnone (by rw [hs]; decide)
      simpa [ofSeverity_cons, hs, hfatal] using hih
    | warning =>
      have hfatal : ofSeverity .fatal ps = [] := hnone (by rw [hs]; decide)
      have herror : ofSeverity .error ps = [] := hnone (by rw [hs]; decide)
      simpa [ofSeverity_cons, hs, hfatal, herror] using hih

theorem listed_eq_append (ps : List Problem) :
    listed ps = ofSeverity .fatal ps ++ ofSeverity .error ps ++ ofSeverity .warning ps := by
  simpa only [ofSeverity_listed] using eq_append_of_pairwise (pairwise_listed ps)

end Sorting

section Blocking

theorem isBlocking_iff : p.isBlocking = true ↔ p.severity = .fatal ∨ p.severity = .error := by
  rw [isBlocking, decide_eq_true_iff]
  cases p.severity <;> decide

theorem anyBlocking_iff : anyBlocking ps = true ↔ ∃ p ∈ ps, p.isBlocking = true := by
  rw [anyBlocking, List.any_eq_true]
  refine exists_congr fun p ↦ and_congr_right' ?_
  rw [isBlocking_iff, decide_eq_true_iff, List.mem_pair, or_comm]

theorem firstBlocking_ne_none : firstBlocking ps ≠ none ↔ anyBlocking ps = true := by
  rw [firstBlocking, ← Option.isSome_iff_ne_none, List.find?_isSome, anyBlocking_iff]

/-- Something stands in the way just if what heads the list does. -/
theorem head?_listed_isBlocking :
    (∃ p, (listed ps).head? = some p ∧ p.isBlocking = true) ↔ anyBlocking ps = true := by
  rw [anyBlocking_iff]
  constructor
  · rintro ⟨p, hp, hblocks⟩
    exact ⟨p, (listed_perm ps).mem_iff.1 (List.mem_of_mem_head? hp), hblocks⟩
  · rintro ⟨q, hq, hblocks⟩
    have hne : listed ps ≠ [] := List.ne_nil_of_mem ((listed_perm ps).mem_iff.2 hq)
    obtain ⟨p, hp⟩ := Option.ne_none_iff_exists'.1 (mt List.head?_eq_none_iff.1 hne)
    have hle := isAsGraveAs_iff.1 (isAsGraveAs_of_head? hp hq)
    refine ⟨p, hp, ?_⟩
    rw [isBlocking_iff] at hblocks ⊢
    cases hs : p.severity with
    | fatal => exact .inl rfl
    | error => exact .inr rfl
    | warning => rcases hblocks with h | h <;> simp [hs, h, Severity.rank] at hle

theorem firstBlocking_eq_head?_listed (hfatal : ∀ p ∈ ps, p.severity ≠ .fatal)
    (hblocked : anyBlocking ps = true) : firstBlocking ps = (listed ps).head? := by
  have hsame : ∀ p ∈ ps, p.isBlocking = decide (p.severity = .error) := fun p hp ↦ by
    rw [Bool.eq_iff_iff, isBlocking_iff, decide_eq_true_iff]
    exact or_iff_right (hfatal p hp)
  have herror : ofSeverity .error ps ≠ [] := by
    obtain ⟨p, hp, hblocks⟩ := anyBlocking_iff.1 hblocked
    rw [hsame p hp, decide_eq_true_iff] at hblocks
    exact List.ne_nil_of_mem (mem_ofSeverity.2 ⟨hp, hblocks⟩)
  calc firstBlocking ps
      = (ps.filter isBlocking).head? := List.head?_filter.symm
    _ = (ofSeverity .error ps).head? := congrArg List.head? (List.filter_congr hsame)
    _ = (ofSeverity .error ps ++ ofSeverity .warning ps).head? :=
        (List.head?_append_of_ne_nil _ herror).symm
    _ = (listed ps).head? := by
        rw [listed_eq_append, ofSeverity_eq_nil_iff.2 hfatal, List.nil_append]

end Blocking

/-- What is answered about the problems found: whether one stands in the way, which one is the first
to, and the list of all. -/
structure Answers (found : List Problem) (blocked : Bool) (first : Option Problem)
    (listed : List Problem) : Prop where
  perm : listed.Perm found
  bySeverity : listed =
    ofSeverity .fatal listed ++ ofSeverity .error listed ++ ofSeverity .warning listed
  inOrder : ∀ s, ofSeverity s listed = ofSeverity s found
  first_ne_none : first ≠ none ↔ blocked = true
  head_blocks : (∃ p, listed.head? = some p ∧ (p.severity = .fatal ∨ p.severity = .error)) ↔
    blocked = true
  first_eq_head : (∀ p ∈ found, p.severity ≠ .fatal) → blocked = true → first = listed.head?

/-- Whatever was found and cleared before, the answers are about the problems found since the last
clearing. -/
theorem answers_gathered (es : List Event) :
    Answers (sinceCleared es) (anyBlocking (gathered es)) (firstBlocking (gathered es))
      (listed (gathered es)) := by
  rw [gathered_eq_sinceCleared]
  exact
    { perm := listed_perm _
      bySeverity := eq_append_of_pairwise (pairwise_listed _)
      inOrder := fun s ↦ ofSeverity_listed s _
      first_ne_none := firstBlocking_ne_none
      head_blocks := by simpa only [isBlocking_iff] using head?_listed_isBlocking
      first_eq_head := firstBlocking_eq_head?_listed }

section TwoErrors

def negativeGap : Problem := ⟨"Parts overlap".toList, .caution, none, .warning⟩

def ninthPart : Problem := ⟨"No part nine".toList, .skipText, some ['9'], .error⟩

def wideGrid : Problem := ⟨"Too wide".toList, .envelope, none, .error⟩

def twoErrors : List Event :=
  [.found ⟨"No program".toList, .configuration, none, .fatal⟩, .cleared, .found negativeGap,
    .found ninthPart, .found wideGrid]

theorem answers_gathered_twoErrors :
    (∀ p ∈ sinceCleared twoErrors, p.severity ≠ .fatal) ∧
      anyBlocking (gathered twoErrors) = true ∧
      listed (gathered twoErrors) = [ninthPart, wideGrid, negativeGap] ∧
      firstBlocking (gathered twoErrors) = some ninthPart := by
  have hfatal : ∀ p ∈ sinceCleared twoErrors, p.severity ≠ .fatal := by decide
  have hblocked : anyBlocking (gathered twoErrors) = true := by decide
  have hanswers := answers_gathered twoErrors
  have hlisted : listed (gathered twoErrors) = [ninthPart, wideGrid, negativeGap] := by
    rw [hanswers.bySeverity, hanswers.inOrder, hanswers.inOrder, hanswers.inOrder]
    decide
  refine ⟨hfatal, hblocked, hlisted, ?_⟩
  rw [hanswers.first_eq_head hfatal hblocked, hlisted]
  rfl

end TwoErrors

end StepAndRepeat.Problem
