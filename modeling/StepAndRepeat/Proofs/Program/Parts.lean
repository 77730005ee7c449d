import Mathlib.Data.List.Basic
import Mathlib.Data.List.TakeWhile
import StepAndRepeat.Proofs.Program.Tokens

namespace StepAndRepeat

namespace Piece

/-- Code that begins no comment where a text follows it: it may hold a semicolon if its line is not
the last one of the text. -/
def Plain : Text → Text → Prop
  | [], _ => True
  | c :: u, t => c ≠ '(' ∧ (c = ';' → endsLine (u ++ t) = false) ∧ Plain u t

def isCode (p : Piece) : Bool := !p.isComment

/-- Pieces as they come from a line: code is not empty and not followed by code, and a comment is
closed unless it comes last. A line feed can end a line behind a comment. -/
inductive Parted : List Piece → Prop
  | nil : Parted []
  | code {u : Text} {ps : List Piece} : u ≠ [] → Plain u (ps.flatMap text) →
      (∀ p ∈ ps.head?, p.isCode = false) → Parted ps → Parted (code u :: ps)
  | closed {b : Text} {ps : List Piece} : ')' ∉ b → Parted ps →
      Parted (comment ('(' :: (b ++ [')'])) :: ps)
  | opened {b : Text} : ')' ∉ b → Parted [comment ('(' :: b)]
  | trailing {b : Text} : '\n' ∉ b → Parted [comment (';' :: b)]
  | broken {b : Text} : '\n' ∉ b → Parted [comment (';' :: b), code ['\n']]

def Inside (ps : List Piece) : Prop :=
  (∃ b, ')' ∉ b ∧ ps = [comment b]) ∨ ∃ b qs, ')' ∉ b ∧ Parted qs ∧
    ps = comment (b ++ [')']) :: qs

section Plain

theorem plain_of_marks {u : Text} (h : ∀ c ∈ u, c ≠ '(' ∧ c ≠ ';') (t : Text) : Plain u t := by
  induction u with
  | nil => trivial
  | cons c u ih =>
    have hc := h c (by simp)
    exact ⟨hc.1, fun he ↦ absurd he hc.2, ih fun d hd ↦ h d (by simp [hd])⟩

theorem plain_append {u v t : Text} : Plain (u ++ v) t ↔ Plain u (v ++ t) ∧ Plain v t := by
  induction u with
  | nil => simp [Plain]
  | cons c u ih => simp only [List.cons_append, Plain, ih, List.append_assoc, and_assoc]

theorem takeWhile_of_not_mem {t : Text} (h : '\n' ∉ t) :
    t.takeWhile (fun c ↦ decide (c ≠ '\n')) = t ∧ t.dropWhile (fun c ↦ decide (c ≠ '\n')) = [] := by
  have hall : ∀ c ∈ t, decide (c ≠ '\n') = true := by
    intro c hc
    have hn : c ≠ '\n' := fun e ↦ h (e ▸ hc)
    simp [hn]
  exact ⟨List.takeWhile_eq_self_iff.2 hall, List.dropWhile_eq_nil_iff.2 hall⟩

theorem endsLine_of_not_mem {t : Text} (h : '\n' ∉ t) : endsLine t = true := by
  rw [endsLine, (takeWhile_of_not_mem h).2]
  rfl

theorem takeWhile_feed {t : Text} (h : '\n' ∉ t) (u : Text) :
    (t ++ '\n' :: u).takeWhile (fun c ↦ decide (c ≠ '\n')) = t ∧
      (t ++ '\n' :: u).dropWhile (fun c ↦ decide (c ≠ '\n')) = '\n' :: u := by
  have hall : ∀ c ∈ t, decide (c ≠ '\n') = true := by
    intro c hc
    have hn : c ≠ '\n' := fun e ↦ h (e ▸ hc)
    simp [hn]
  refine Text.span_append hall ?_
  rintro c ⟨⟩
  rfl

theorem endsLine_eq_false {t : Text} : endsLine t = false ↔ '\n' ∈ t.dropLast := by
  by_cases h : '\n' ∈ t
  · obtain ⟨a, b, rfl, ha⟩ := List.eq_append_cons_of_mem h
    rw [endsLine, (takeWhile_feed ha b).2, List.dropLast_append_cons]
    cases b with
    | nil => simpa using ha
    | cons d b => simp
  · rw [endsLine_of_not_mem h]
    simpa using mt (fun hm ↦ List.dropLast_subset t hm) h

/-- A text that can stand for another behind code: if the line of the code was not the last one,
it is not the last one now. -/
structure Feeds (t t' : Text) : Prop where
  ne_nil : t ≠ [] → t' ≠ []
  inner : endsLine t = false → endsLine t' = false

variable {t t' : Text}

theorem Feeds.refl (t : Text) : Feeds t t := ⟨id, id⟩

theorem Feeds.append_left (h : Feeds t t') (u : Text) : Feeds (u ++ t) (u ++ t') := by
  refine ⟨fun hn he ↦ ?_, fun hf ↦ ?_⟩
  · obtain ⟨rfl, ht⟩ := List.append_eq_nil_iff.1 he
    exact h.ne_nil hn ht
  · rw [endsLine_eq_false] at hf ⊢
    by_cases ht : t = []
    · rw [ht, List.append_nil] at hf
      by_cases ht' : t' = []
      · rwa [ht', List.append_nil]
      · rw [List.dropLast_append_of_ne_nil ht']
        exact List.mem_append_left _ (List.dropLast_subset u hf)
    · rw [List.dropLast_append_of_ne_nil ht] at hf
      rw [List.dropLast_append_of_ne_nil (h.ne_nil ht)]
      refine List.mem_append.2 ((List.mem_append.1 hf).imp_right fun hf ↦ ?_)
      exact endsLine_eq_false.1 (h.inner (endsLine_eq_false.2 hf))

theorem Feeds.append (h : Feeds t t') {u u' : Text} (hu : '\n' ∉ u) (hu' : u' ≠ []) :
    Feeds (u ++ t) (u' ++ t') := by
  refine ⟨fun _ he ↦ hu' (List.append_eq_nil_iff.1 he).1, fun hf ↦ ?_⟩
  rw [endsLine_eq_false] at hf ⊢
  by_cases ht : t = []
  · rw [ht, List.append_nil] at hf
    exact absurd (List.dropLast_subset u hf) hu
  · rw [List.dropLast_append_of_ne_nil ht] at hf
    rw [List.dropLast_append_of_ne_nil (h.ne_nil ht)]
    rcases List.mem_append.1 hf with hf | hf
    · exact absurd hf hu
    · exact List.mem_append_right _ (endsLine_eq_false.1 (h.inner (endsLine_eq_false.2 hf)))

theorem Plain.mono {u : Text} (hu : Plain u t) (h : Feeds t t') : Plain u t' := by
  induction u with
  | nil => trivial
  | cons c u ih => exact ⟨hu.1, fun he ↦ (h.append_left u).inner (hu.2.1 he), ih hu.2.2⟩

theorem Plain.marks {u t : Text} (h : Plain u t) (hn : '\n' ∉ u ++ t) :
    ∀ c ∈ u, c ≠ '(' ∧ c ≠ ';' := by
  induction u with
  | nil => simp
  | cons c u ih =>
    rw [List.cons_append, List.mem_cons, not_or] at hn
    intro d hd
    rcases List.mem_cons.1 hd with rfl | hd
    · refine ⟨h.1, fun he ↦ hn.2 ?_⟩
      exact List.dropLast_subset _ (endsLine_eq_false.1 (h.2.1 he))
    · exact ih h.2.2 hn.2 d hd

end Plain

theorem Parted.consCode {c : Char} {ps : List Piece} (hp : c ≠ '(')
    (hs : c = ';' → endsLine (ps.flatMap text) = false) (h : Parted ps) :
    Parted (consCode c ps) := by
  have hone : Plain [c] (ps.flatMap text) := ⟨hp, hs, trivial⟩
  cases ps with
  | nil => exact .code (by simp) hone (by simp) .nil
  | cons p ps =>
    cases p with
    | comment => exact .code (by simp) hone (by simp [isCode, isComment]) h
    | code u =>
      cases h with
      | code hn hu hd h => exact .code (by simp) ⟨hp, hs, hu⟩ hd h

theorem parted_split (t : Text) : Parted (split false t) ∧ Inside (split true t) := by
  induction t with
  | nil => exact ⟨.nil, .inl ⟨[], by simp, rfl⟩⟩
  | cons c t ih =>
    obtain ⟨hout, hin⟩ := ih
    constructor
    · rw [split]
      split
      next hc =>
        rcases hin with ⟨b, hb, he⟩ | ⟨b, qs, hb, hq, he⟩
        · rw [he, hc]
          exact .opened hb
        · rw [he, hc]
          exact .closed hb hq
      next hc =>
        split
        next hs =>
          rw [hs.1]
          by_cases hn : '\n' ∈ t
          · obtain ⟨a, b, rfl, ha⟩ := List.eq_append_cons_of_mem hn
            have he := hs.2
            rw [endsLine, (takeWhile_feed ha b).2, decide_eq_true_eq, List.drop_one,
              List.tail_cons] at he
            rw [(takeWhile_feed ha b).1, (takeWhile_feed ha b).2, he]
            exact .broken ha
          · rw [(takeWhile_of_not_mem hn).1, (takeWhile_of_not_mem hn).2]
            exact .trailing hn
        next hs =>
          refine hout.consCode hc fun he ↦ ?_
          rw [flatMap_text_split]
          simpa [he] using hs
    · rw [split]
      split
      next hc =>
        rw [hc]
        exact .inr ⟨[], split false t, by simp, hout, rfl⟩
      next hc =>
        have hn (b : Text) (hb : ')' ∉ b) : ')' ∉ c :: b := by
          simp [hb, Ne.symm hc]
        rcases hin with ⟨b, hb, he⟩ | ⟨b, qs, hb, hq, he⟩
        · exact .inl ⟨c :: b, hn b hb, by rw [he]; rfl⟩
        · exact .inr ⟨c :: b, qs, hn b hb, hq, by rw [he]; rfl⟩

theorem parted_ofLine (t : Text) : Parted (ofLine t) := (parted_split t).1

theorem split_code {u r : Text} (hu : Plain u r) (hn : u ≠ [])
    (hr : ∀ p ∈ (split false r).head?, p.isCode = false) :
    split false (u ++ r) = code u :: split false r := by
  induction u with
  | nil => exact absurd rfl hn
  | cons c u ih =>
    obtain ⟨hc, hs, hu⟩ := hu
    have hs' : ¬ (c = ';' ∧ endsLine (u ++ r) = true) := fun h ↦ by simp [hs h.1] at h
    rw [List.cons_append, split, if_neg hc, if_neg hs']
    cases u with
    | nil =>
      rw [List.nil_append]
      generalize split false r = ps at hr
      cases ps with
      | nil => rfl
      | cons p ps =>
        cases p with
        | comment => rfl
        | code => simp [isCode, isComment] at hr
    | cons d u =>
      rw [ih hu (by simp)]
      rfl

theorem split_closed {b : Text} (hb : ')' ∉ b) (r : Text) :
    split true (b ++ ')' :: r) = comment (b ++ [')']) :: split false r := by
  induction b with
  | nil => rfl
  | cons c b ih =>
    have hc : c ≠ ')' := fun e ↦ hb (by simp [e])
    rw [List.cons_append, split, if_neg hc, ih fun h ↦ hb (by simp [h])]
    rfl

theorem split_opened {b : Text} (hb : ')' ∉ b) : split true b = [comment b] := by
  induction b with
  | nil => rfl
  | cons c b ih =>
    have hc : c ≠ ')' := fun e ↦ hb (by simp [e])
    rw [split, if_neg hc, ih fun h ↦ hb (by simp [h])]
    rfl

theorem ofLine_of_parted {ps : List Piece} (h : Parted ps) : ofLine (ps.flatMap text) = ps := by
  induction h with
  | nil => rfl
  | @code u ps hn hu hp _ ih =>
    rw [ofLine] at ih
    rw [List.flatMap_cons, ofLine, text, split_code hu hn (ih.symm ▸ hp), ih]
  | @closed b ps hb _ ih =>
    rw [ofLine] at ih
    rw [List.flatMap_cons, ofLine, text, List.cons_append, List.append_assoc, split, if_pos rfl,
      List.singleton_append, split_closed hb, ih]
    rfl
  | @opened b hb =>
    rw [List.flatMap_singleton, ofLine, text, split, if_pos rfl, split_opened hb]
    rfl
  | @trailing b hb =>
    rw [List.flatMap_singleton, ofLine, text, split, if_neg (by decide),
      if_pos ⟨rfl, endsLine_of_not_mem hb⟩, (takeWhile_of_not_mem hb).1,
      (takeWhile_of_not_mem hb).2]
  | @broken b hb =>
    have he : endsLine (b ++ ['\n']) = true := by
      rw [endsLine, (takeWhile_feed hb []).2]
      rfl
    rw [List.flatMap_cons, List.flatMap_singleton, text, text, List.cons_append, ofLine, split,
      if_neg (by decide), if_pos ⟨rfl, he⟩, (takeWhile_feed hb []).1, (takeWhile_feed hb []).2]

def mapTokens (f : Token → Token) : Piece → Piece
  | code u => code (Token.textOf ((Token.ofCode u).map f))
  | comment t => comment t

theorem textOf_ne_nil {ts : List Token} (h : ts ≠ []) : Token.textOf ts ≠ [] := by
  cases ts with
  | nil => exact absurd rfl h
  | cons k ts => cases k <;> simp

theorem textOf_ofCode (u : Text) : Token.textOf (Token.ofCode u) = u :=
  Token.flatMap_text_ofCode u

section Changes

variable {f : Token → Token} {ts : List Token} {t t' : Text}

theorem feeds_textOf (hw : ∀ l n, Token.word l n ∈ ts → '\n' ∉ l :: n)
    (hf : ∀ k ∈ ts, Token.Changes k (f k)) (h : Feeds t t') :
    Feeds (Token.textOf ts ++ t) (Token.textOf (ts.map f) ++ t') := by
  induction ts with
  | nil => exact h
  | cons k ts ih =>
    have ih' := ih (fun l n hm ↦ hw l n (by simp [hm])) fun k hk ↦ hf k (by simp [hk])
    have hk := hf k (by simp)
    have hnk : ∀ l n, k = .word l n → '\n' ∉ l :: n := fun l n he ↦ hw l n (by simp [he])
    rw [List.map_cons, Token.textOf, List.flatMap_cons, List.append_assoc, Token.textOf,
      List.flatMap_cons, List.append_assoc]
    generalize f k = k' at hk
    cases hk with
    | same => exact ih'.append_left k.text
    | word => exact ih'.append (hnk _ _ rfl) (by simp [Token.text])

theorem plain_textOf (hw : ∀ l n, Token.word l n ∈ ts → '\n' ∉ l :: n)
    (hf : ∀ k ∈ ts, Token.Changes k (f k)) (h : Feeds t t') (hp : Plain (Token.textOf ts) t) :
    Plain (Token.textOf (ts.map f)) t' := by
  induction ts with
  | nil => trivial
  | cons k ts ih =>
    have hw' : ∀ l n, Token.word l n ∈ ts → '\n' ∉ l :: n := fun l n hm ↦ hw l n (by simp [hm])
    have hf' : ∀ k ∈ ts, Token.Changes k (f k) := fun k hk ↦ hf k (by simp [hk])
    have hk := hf k (by simp)
    rw [Token.textOf, List.flatMap_cons, plain_append] at hp
    rw [List.map_cons, Token.textOf, List.flatMap_cons, plain_append]
    refine ⟨?_, ih hw' hf' hp.2⟩
    generalize f k = k' at hk
    cases hk with
    | same => exact hp.1.mono (feeds_textOf hw' hf' h)
    | word hl hn =>
      refine plain_of_marks (fun c hc ↦ ?_) _
      rcases List.mem_cons.1 hc with rfl | hc
      · exact ⟨Text.isLetter_ne hl (by decide), Text.isLetter_ne hl (by decide)⟩
      · constructor <;> rintro rfl <;> exact absurd (hn.mem hc) (by decide)

theorem not_mem_word {u : Text} {l : Char} {n : Text} (h : Token.word l n ∈ Token.ofCode u) :
    '\n' ∉ l :: n := by
  obtain ⟨hl, pointed, hn⟩ := (Token.fits_scanFrom false u).of_mem h
  intro hc
  rcases List.mem_cons.1 hc with rfl | hc
  · exact absurd hl (by decide)
  · exact absurd (hn.mem hc) (by decide)

theorem feeds_mapTokens {ps : List Piece}
    (hf : ∀ u, Piece.code u ∈ ps → ∀ k ∈ Token.ofCode u, Token.Changes k (f k)) :
    Feeds (ps.flatMap text) ((ps.map (mapTokens f)).flatMap text) := by
  induction ps with
  | nil => exact .refl []
  | cons p ps ih =>
    have ih' := ih fun u hu ↦ hf u (by simp [hu])
    rw [List.map_cons, List.flatMap_cons, List.flatMap_cons]
    cases p with
    | comment v => exact ih'.append_left v
    | code u =>
      have h := feeds_textOf (fun l n h ↦ not_mem_word h) (hf u (by simp)) ih'
      rwa [textOf_ofCode] at h

theorem Parted.map {ps : List Piece} (h : Parted ps)
    (hf : ∀ u, Piece.code u ∈ ps → ∀ k ∈ Token.ofCode u, Token.Changes k (f k)) :
    Parted (ps.map (mapTokens f)) := by
  induction h with
  | nil => exact .nil
  | @code u ps hn hu hp _ ih =>
    have hne : (Token.ofCode u).map f ≠ [] := by
      intro he
      have ht := textOf_ofCode u
      rw [List.map_eq_nil_iff.1 he] at ht
      exact hn ht.symm
    have hf' : ∀ v, Piece.code v ∈ ps → ∀ k ∈ Token.ofCode v, Token.Changes k (f k) :=
      fun v hv ↦ hf v (by simp [hv])
    rw [← textOf_ofCode u] at hu
    refine .code (textOf_ne_nil hne)
      (plain_textOf (fun l n h ↦ not_mem_word h) (hf u (by simp)) (feeds_mapTokens hf') hu)
      (fun p h ↦ ?_) (ih hf')
    rw [List.head?_map] at h
    obtain ⟨q, hq, rfl⟩ := Option.map_eq_some_iff.1 h
    have := hp q hq
    cases q with
    | code => simp [isCode, isComment] at this
    | comment => rfl
  | closed hb _ ih => exact .closed hb (ih fun v hv ↦ hf v (by simp [hv]))
  | opened hb => exact .opened hb
  | trailing hb => exact .trailing hb
  | @broken b hb =>
    have hk := hf ['\n'] (by simp) (.other '\n') (by decide)
    have hs : mapTokens f (.code ['\n']) = .code ['\n'] := by
      have hc : Token.ofCode ['\n'] = [.other '\n'] := by decide
      rw [mapTokens, hc, List.map_singleton]
      generalize f (.other '\n') = k at hk
      cases hk
      rfl
    rw [List.map_cons, List.map_cons, List.map_nil, hs]
    exact .broken hb

end Changes

end Piece

namespace LinePart

def mapToken (f : Token → Token) : LinePart → LinePart
  | comment t => comment t
  | token k => token (f k)

theorem flatMap_text_map (f : Token → Token) (p : Piece) :
    (ofPiece p).flatMap (fun q ↦ (q.mapToken f).text) = (p.mapTokens f).text := by
  cases p with
  | comment t => simp [ofPiece, mapToken, text, Piece.mapTokens, Piece.text]
  | code u => simp [ofPiece, mapToken, text, Piece.mapTokens, Piece.text, Token.textOf,
      List.flatMap_map]

theorem ofPiece_map {f : Token → Token} {p : Piece}
    (hf : ∀ u, p = .code u → ∀ k ∈ Token.ofCode u, Token.Changes k (f k)) :
    ofPiece (p.mapTokens f) = (ofPiece p).map (mapToken f) := by
  cases p with
  | comment t => rfl
  | code u =>
    have h := (Token.fits_scanFrom false u).map (hf u rfl)
    have hs : Token.ofCode (Token.textOf ((Token.ofCode u).map f)) = (Token.ofCode u).map f :=
      Token.scanFrom_of_fits h
    simp only [Piece.mapTokens, ofPiece, hs, List.map_map]
    rfl

section Line

variable {t : Text} {f : Token → Token}

theorem pieces_map (hf : ∀ k, token k ∈ ofLine t → Token.Changes k (f k)) :
    Piece.ofLine ((ofLine t).flatMap fun p ↦ (p.mapToken f).text) =
      (Piece.ofLine t).map (Piece.mapTokens f) := by
  have hc : ∀ u, Piece.code u ∈ Piece.ofLine t → ∀ k ∈ Token.ofCode u,
      Token.Changes k (f k) := fun u hu k hk ↦
    hf k (List.mem_flatMap.2 ⟨.code u, hu, List.mem_map_of_mem hk⟩)
  have ht : (ofLine t).flatMap (fun p ↦ (p.mapToken f).text) =
      ((Piece.ofLine t).map (Piece.mapTokens f)).flatMap Piece.text := by
    rw [ofLine, List.flatMap_assoc, List.flatMap_map]
    exact List.flatMap_congr fun p _ ↦ flatMap_text_map f p
  rw [ht, Piece.ofLine_of_parted ((Piece.parted_ofLine t).map hc)]

theorem ofLine_map (hf : ∀ k, token k ∈ ofLine t → Token.Changes k (f k)) :
    ofLine ((ofLine t).flatMap fun p ↦ (p.mapToken f).text) = (ofLine t).map (mapToken f) := by
  rw [ofLine, pieces_map hf, ofLine, List.flatMap_map, List.map_flatMap]
  refine List.flatMap_congr fun p hp ↦ ofPiece_map ?_
  rintro u rfl k hk
  exact hf k (List.mem_flatMap.2 ⟨.code u, hp, List.mem_map_of_mem hk⟩)

end Line

end LinePart

end StepAndRepeat
