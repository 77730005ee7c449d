import Mathlib.Data.List.Forall2
import StepAndRepeat.Program.Line
import StepAndRepeat.Proofs.Program.Parts
import StepAndRepeat.Proofs.Text.Lines

namespace StepAndRepeat

variable {α : Type} [Coordinate α]

namespace LinePart

def key? : LinePart → Option (Char × α)
  | token (.word l n) => some (Text.capital l, Coordinate.ofNumeral (.ofText n))
  | _ => none

end LinePart

namespace Word

def key (w : Word α) : Char × α := (w.letter, w.value)

theorem letter_of_isProgramEnd {w : Word α} (h : w.isProgramEnd = true) : w.letter = 'M' := by
  simp only [isProgramEnd, isCode, Bool.or_eq_true, Bool.and_eq_true, decide_eq_true_eq] at h
  exact h.elim And.left And.left

theorem map_key_ofTokens (place : Nat) (ts : List Token) :
    (ofTokens place ts : List (Word α)).map key = (ts.map LinePart.token).filterMap LinePart.key? := by
  induction ts generalizing place with
  | nil => rfl
  | cons k ts ih =>
    cases k with
    | other c =>
      rw [ofTokens, ih, List.map_cons]
      rfl
    | word l n =>
      rw [ofTokens, List.map_cons, ih, List.map_cons]
      rfl

theorem map_key_ofLine (t : Text) :
    (ofLine t : List (Word α)).map key = (LinePart.ofLine t).filterMap LinePart.key? := by
  rw [ofLine, LinePart.ofLine]
  generalize Piece.ofLine t = ps
  generalize 0 = place
  induction ps generalizing place with
  | nil => rfl
  | cons p ps ih =>
    cases p with
    | comment u =>
      rw [Piece.chunks, ih, List.flatMap_cons, LinePart.ofPiece, List.filterMap_append]
      rfl
    | code u =>
      rw [Piece.chunks, List.flatMap_cons, List.map_append, ih, List.flatMap_cons,
        List.filterMap_append, map_key_ofTokens, LinePart.ofPiece]

end Word

namespace Line

def inkKind : Option Char → LineKind
  | none => .blank
  | some c => if c = '(' ∨ c = ';' ∨ c = '%' then .comment else .code

omit [Coordinate α] in
theorem head?_trimEnd_cons {c : Char} (h : Text.isBlank c = false) (t : Text) :
    ∃ u, Text.trimEnd (c :: t) = c :: u := by
  rw [Text.trimEnd, Text.dropEndWhile]
  split
  · exact ⟨[], by simp [h]⟩
  next d u _ => exact ⟨d :: u, rfl⟩

theorem kindOf_eq (t : Text) : kindOf t = inkKind (t.find? fun c ↦ !Text.isBlank c) := by
  induction t with
  | nil => rfl
  | cons c t ih =>
    cases h : Text.isBlank c with
    | true =>
      have hs : Text.trim (c :: t) = Text.trim t := by
        rw [Text.trim, Text.trimStart, List.dropWhile_cons_of_pos h]
        rfl
      rw [List.find?_cons_of_neg (by simp [h]), ← ih, kindOf, hs]
      rfl
    | false =>
      obtain ⟨u, hu⟩ := head?_trimEnd_cons h t
      have hs : Text.trim (c :: t) = c :: u := by
        rw [Text.trim, Text.trimStart, List.dropWhile_cons_of_neg (by simp [h]), hu]
      rw [List.find?_cons_of_pos (by simp [h]), kindOf, hs]
      rfl

/-- The line is what its text is read as. -/
def IsRead (l : Line α) : Prop := readAt l.index l.text = .ok l

theorem readAt_fields {i : Nat} {t : Text} {l : Line α} (h : readAt i t = .ok l) :
    l.index = i ∧ l.text = t ∧ l.kind = kindOf t ∧
      l.words = if kindOf t = .code then Word.ofLine t else [] := by
  unfold readAt at h
  split at h
  next hk =>
    cases ht : toolOf (Word.ofLine t : List (Word α)) with
    | error e => simp [ht, Except.map] at h
    | ok tool =>
      simp only [ht, Except.map, Except.ok.injEq] at h
      rw [← h]
      exact ⟨rfl, rfl, hk.symm, by rw [hk, if_pos rfl]⟩
  next hk =>
    rw [← Except.ok.inj h]
    exact ⟨rfl, rfl, rfl, by rw [if_neg hk]⟩

theorem readAt_eq_map (i : Nat) (t : Text) :
    (readAt i t : Except LineFault (Line α)) =
      (readAt 0 t).map fun l ↦ { l with index := i } := by
  unfold readAt
  split
  · dsimp only
    cases toolOf (Word.ofLine t : List (Word α)) <;> rfl
  · rfl

theorem readAt_zero {i : Nat} {t : Text} {l : Line α} (h : readAt i t = .ok l) :
    readAt 0 t = .ok { l with index := 0 } := by
  rw [readAt_eq_map] at h
  cases hz : (readAt 0 t : Except LineFault (Line α)) with
  | error e => simp [hz, Except.map] at h
  | ok k =>
    have hk := (readAt_fields hz).1
    simp only [hz, Except.map, Except.ok.injEq] at h
    rw [← h, ← hk]

theorem exists_readAt_of_readAt {i : Nat} {t : Text} {l : Line α} (h : readAt i t = .ok l)
    (j : Nat) : ∃ k : Line α, readAt j t = .ok k := by
  rw [readAt_eq_map, readAt_zero h]
  exact ⟨_, rfl⟩

theorem isRead_of_readAt {i : Nat} {t : Text} {l : Line α} (h : readAt i t = .ok l) :
    l.IsRead := by
  obtain ⟨hi, ht, -, -⟩ := readAt_fields h
  rw [IsRead, hi, ht, h]

def keys (l : Line α) : List (Char × α) := l.words.map Word.key

theorem IsRead.kind_eq {l : Line α} (h : l.IsRead) : l.kind = kindOf l.text :=
  (readAt_fields h).2.2.1

theorem keys_of_readAt {i : Nat} {t : Text} {l : Line α} (h : readAt i t = .ok l) :
    l.keys = if kindOf t = .code then (LinePart.ofLine t).filterMap LinePart.key? else [] := by
  rw [keys, (readAt_fields h).2.2.2]
  split
  · exact Word.map_key_ofLine t
  · rfl

/-- Lines that say the same. -/
structure Alike (l r : Line α) : Prop where
  kind : r.kind = l.kind
  keys : r.keys = l.keys

theorem IsRead.alike {l r : Line α} (h : l.IsRead) {i : Nat} (hr : readAt i l.text = .ok r) :
    l.Alike r where
  kind := by rw [(readAt_fields hr).2.2.1, h.kind_eq]
  keys := by rw [keys_of_readAt hr, keys_of_readAt h]

theorem readFrom_cons {i : Nat} {t : Text} {ts : List Text} {ls : List (Line α)}
    (h : readFrom i (t :: ts) = .ok ls) :
    ∃ l rest, readAt i t = .ok l ∧ readFrom (i + 1) ts = .ok rest ∧ ls = l :: rest := by
  rw [readFrom] at h
  cases hl : (readAt i t : Except LineFault (Line α)) with
  | error e => simp [hl, bind, Except.bind] at h
  | ok l =>
    cases hls : (readFrom (i + 1) ts : Except LineFault (List (Line α))) with
    | error e => simp [hl, hls, bind, Except.bind] at h
    | ok rest =>
      simp only [hl, hls, bind, Except.bind, pure, Except.pure, Except.ok.injEq] at h
      exact ⟨l, rest, rfl, rfl, h.symm⟩

theorem exists_readFrom_of_forall {ts : List Text}
    (h : ∀ t ∈ ts, ∃ l : Line α, readAt 0 t = .ok l) (i : Nat) :
    ∃ ls : List (Line α), readFrom i ts = .ok ls := by
  induction ts generalizing i with
  | nil => exact ⟨[], rfl⟩
  | cons t ts ih =>
    obtain ⟨l₀, hl₀⟩ := h t (by simp)
    obtain ⟨l, hl⟩ := exists_readAt_of_readAt hl₀ i
    obtain ⟨ls, hls⟩ := ih (fun u hu ↦ h u (by simp [hu])) (i + 1)
    rw [readFrom, hl, hls]
    exact ⟨l :: ls, rfl⟩

theorem forall₂_readFrom {i : Nat} {ts : List Text} {ls : List (Line α)}
    (h : readFrom i ts = .ok ls) :
    List.Forall₂ (fun t l ↦ ∃ j, readAt j t = .ok l) ts ls := by
  induction ts generalizing i ls with
  | nil =>
    rw [← Except.ok.inj h]
    exact .nil
  | cons t ts ih =>
    obtain ⟨l, rest, hl, hrest, rfl⟩ := readFrom_cons h
    exact .cons ⟨i, hl⟩ (ih hrest)

theorem map_readFrom {β : Type} {f : Line α → β} {g : Text → β}
    (hfg : ∀ {j : Nat} {t : Text} {l : Line α}, readAt j t = .ok l → f l = g t) {i : Nat}
    {ts : List Text} {ls : List (Line α)} (h : readFrom i ts = .ok ls) : ls.map f = ts.map g := by
  induction ts generalizing i ls with
  | nil =>
    rw [← Except.ok.inj h]
    rfl
  | cons t ts ih =>
    obtain ⟨l, rest, hl, hrest, rfl⟩ := readFrom_cons h
    rw [List.map_cons, List.map_cons, hfg hl, ih hrest]

theorem exists_text_of_mem {i : Nat} {ts : List Text} {ls : List (Line α)}
    (h : readFrom i ts = .ok ls) {l : Line α} (hl : l ∈ ls) :
    ∃ t ∈ ts, ∃ j, readAt j t = .ok l := by
  induction ts generalizing i ls with
  | nil =>
    rw [← Except.ok.inj h] at hl
    simp at hl
  | cons t ts ih =>
    obtain ⟨k, rest, hk, hrest, rfl⟩ := readFrom_cons h
    rcases List.mem_cons.1 hl with rfl | hl
    · exact ⟨t, List.mem_cons_self, i, hk⟩
    · obtain ⟨u, hu, hj⟩ := ih hrest hl
      exact ⟨u, List.mem_cons_of_mem t hu, hj⟩

theorem isRead_of_readFrom {i : Nat} {ts : List Text} {ls : List (Line α)}
    (h : readFrom i ts = .ok ls) : ∀ l ∈ ls, l.IsRead := by
  intro l hl
  obtain ⟨t, -, j, hj⟩ := exists_text_of_mem h hl
  exact isRead_of_readAt hj

theorem readFrom_append {i : Nat} {ts us : List Text} {ls ks : List (Line α)}
    (ht : readFrom i ts = .ok ls) (hu : readFrom (i + ts.length) us = .ok ks) :
    readFrom i (ts ++ us) = .ok (ls ++ ks) := by
  induction ts generalizing i ls with
  | nil =>
    rw [← Except.ok.inj ht]
    exact hu
  | cons t ts ih =>
    obtain ⟨l, rest, hl, hrest, rfl⟩ := readFrom_cons ht
    have hu' : readFrom (i + 1 + ts.length) us = .ok ks := by
      rwa [List.length_cons, Nat.add_comm ts.length, ← Nat.add_assoc] at hu
    rw [List.cons_append, readFrom, hl, ih hrest hu']
    rfl

theorem exists_readAt_of_readFrom {i : Nat} {ts : List Text} {ls : List (Line α)}
    (h : readFrom i ts = .ok ls) {t : Text} (ht : t ∈ ts) (j : Nat) :
    ∃ l : Line α, readAt j t = .ok l := by
  induction ts generalizing i ls with
  | nil => simp at ht
  | cons u ts ih =>
    obtain ⟨l, rest, hl, hrest, rfl⟩ := readFrom_cons h
    rcases List.mem_cons.1 ht with rfl | ht
    · exact exists_readAt_of_readAt hl j
    · exact ih hrest ht

theorem exists_readAt_of_not_code {t : Text} (h : kindOf t ≠ .code) (i : Nat) :
    ∃ l : Line α, readAt i t = .ok l ∧ l.kind ≠ .code := by
  unfold readAt
  split
  next hk => exact absurd hk h
  next => exact ⟨_, rfl, h⟩

theorem map_index_readFrom {i : Nat} {ts : List Text} {ls : List (Line α)}
    (h : readFrom i ts = .ok ls) : ls.map index = List.range' i ls.length := by
  induction ts generalizing i ls with
  | nil =>
    rw [← Except.ok.inj h]
    rfl
  | cons t ts ih =>
    obtain ⟨l, rest, hl, hrest, rfl⟩ := readFrom_cons h
    rw [List.map_cons, List.length_cons, List.range'_succ, (readAt_fields hl).1, ih hrest]

def IsSound (l : Line α) : Prop := l.IsRead ∧ Text.Unbroken l.text

theorem isSound_of_readAt {i : Nat} {t : Text} {l : Line α} (ht : Text.Unbroken t)
    (h : readAt i t = .ok l) : l.IsSound := by
  refine ⟨isRead_of_readAt h, ?_⟩
  rw [(readAt_fields h).2.1]
  exact ht

theorem isSound_of_readFrom {i : Nat} {ts : List Text} {ls : List (Line α)}
    (ht : ∀ t ∈ ts, Text.Unbroken t) (h : readFrom i ts = .ok ls) : ∀ l ∈ ls, l.IsSound := by
  intro l hl
  obtain ⟨t, hm, j, hj⟩ := exists_text_of_mem h hl
  exact isSound_of_readAt (ht t hm) hj

theorem isSound_of_readAll {program : Text} {ls : List (Line α)} (h : readAll program = .ok ls) :
    ∀ l ∈ ls, l.IsSound :=
  isSound_of_readFrom (fun _ ht ↦ Text.unbroken_of_mem_lines ht) h

theorem map_index_readAll {program : Text} {ls : List (Line α)}
    (h : readAll program = .ok ls) : ls.map index = List.range ls.length := by
  rw [map_index_readFrom h, List.range_eq_range']

section Numbered

variable {ls : List (Line α)} (h : ls.map index = List.range ls.length)
include h

omit [Coordinate α] in
theorem index_getElem {i : Nat} (hi : i < ls.length) : ls[i].index = i := by
  have hg : (ls.map index)[i]? = some i := by rw [h, List.getElem?_range hi]
  rw [List.getElem?_map, List.getElem?_eq_getElem hi] at hg
  exact Option.some_inj.1 hg

omit [Coordinate α] in
theorem pairwise_index : ls.Pairwise (·.index < ·.index) := by
  rw [← List.pairwise_map, h]
  exact List.pairwise_lt_range

omit [Coordinate α] in
theorem getElem?_index {l : Line α} (hl : l ∈ ls) : ls[l.index]? = some l := by
  obtain ⟨i, hi, rfl⟩ := List.mem_iff_getElem.1 hl
  rw [index_getElem h hi, List.getElem?_eq_getElem hi]

omit [Coordinate α] in
theorem eq_of_index_eq {l k : Line α} (hl : l ∈ ls) (hk : k ∈ ls) (he : l.index = k.index) :
    l = k := by
  have hg := getElem?_index h hl
  rw [he, getElem?_index h hk, Option.some_inj] at hg
  exact hg.symm

omit [Coordinate α] in
theorem mem_take_of_index_lt {l : Line α} (hl : l ∈ ls) {n : Nat} (hn : l.index < n) :
    l ∈ ls.take n := by
  have hg := getElem?_index h hl
  rw [← List.getElem?_take_of_lt hn] at hg
  exact List.mem_of_getElem? hg

omit [Coordinate α] in
theorem index_lt_of_mem_take {l : Line α} {n : Nat} (hl : l ∈ ls.take n) : l.index < n := by
  obtain ⟨i, hi, rfl⟩ := List.mem_iff_getElem.1 hl
  rw [List.length_take] at hi
  rw [List.getElem_take, index_getElem h]
  exact (Nat.lt_min.1 hi).1

end Numbered

section Position

variable {ps ks : List (Line α)} {l : Line α}
  (h : (ps ++ l :: ks).map index = List.range (ps ++ l :: ks).length)
include h

omit [Coordinate α] in
theorem index_eq_length : l.index = ps.length := by
  have hlt : ps.length < (ps ++ l :: ks).length := by simp
  have hi := index_getElem h hlt
  rw [List.getElem_append_right (Nat.le_refl _)] at hi
  simpa using hi

omit [Coordinate α] in
theorem take_index : (ps ++ l :: ks).take l.index = ps := by
  rw [index_eq_length h, List.take_left' rfl]

omit [Coordinate α] in
theorem take_index_succ : (ps ++ l :: ks).take (l.index + 1) = ps ++ [l] := by
  rw [index_eq_length h, List.append_cons, List.take_left' (by simp)]

end Position

end Line

end StepAndRepeat
