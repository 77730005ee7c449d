import StepAndRepeat.Proofs.Program.Remainder

namespace StepAndRepeat

namespace Numeral

open Text

def IsNumeral (n : Text) : Prop := ∃ pointed, Shape n pointed

/-- The longest numeral that a text begins with. -/
structure Longest (n t : Text) : Prop where
  isNumeral : IsNumeral n
  opens : n <+: t
  length_le : ∀ m, IsNumeral m → m <+: t → m.length ≤ n.length

variable {n m r t : Text} {pointed : Bool}

theorem Stops.mono (h : Stops pointed r) (ht : t <+: r) : Stops pointed t := by
  intro c hc
  obtain ⟨s, rfl⟩ := ht
  refine h c ?_
  rw [List.head?_append, hc]
  rfl

theorem Shape.length_le (hn : Shape n pointed) (hr : Stops pointed r) (hm : IsNumeral m)
    (h : m <+: n ++ r) : m.length ≤ n.length := by
  rcases List.prefix_or_prefix_of_prefix h (List.prefix_append n r) with hle | ⟨s, rfl⟩
  · exact hle.length_le
  · obtain ⟨_, hm⟩ := hm
    have hs : Stops pointed s := hr.mono ((List.prefix_append_right_inj n).1 h)
    have hscan := scan_eq_some hm (r := []) (by simp [Stops])
    rw [List.append_nil, scan_eq_some hn hs] at hscan
    obtain ⟨heq, -⟩ := Prod.mk.inj (Option.some_inj.1 hscan)
    exact heq ▸ le_rfl

theorem longest_of_stops (hn : Shape n pointed) (hr : Stops pointed r) : Longest n (n ++ r) where
  isNumeral := ⟨pointed, hn⟩
  opens := List.prefix_append n r
  length_le _ hm h := hn.length_le hr hm h

theorem Longest.unique (hn : Longest n t) (hm : Longest m t) : n = m := by
  have hle := hm.length_le n hn.isNumeral hn.opens
  have hge := hn.length_le m hm.isNumeral hm.opens
  exact (List.prefix_of_prefix_length_le hn.opens hm.opens hle).eq_of_length (le_antisymm hle hge)

theorem Unsigned.beginsUnsigned_append (h : Unsigned n pointed) (r : Text) :
    beginsUnsigned (n ++ r) = true := by
  cases h with
  | whole hne hd =>
    obtain ⟨d, ds, rfl⟩ := List.exists_cons_of_ne_nil hne
    simp [beginsUnsigned, hd d]
  | @pointed ds fs hne hd hf =>
    cases ds with
    | nil =>
      obtain ⟨f, fs, rfl⟩ := List.exists_cons_of_ne_nil (hne.resolve_left (by simp))
      simp [beginsUnsigned, hf f]
    | cons d ds => simp [beginsUnsigned, hd d]

theorem Shape.begins_append (h : Shape n pointed) (r : Text) : begins (n ++ r) = true := by
  cases h with
  | unsigned hu =>
    have hb := hu.beginsUnsigned_append r
    obtain ⟨c, n, rfl⟩ := List.exists_cons_of_ne_nil (Shape.unsigned hu).ne_nil
    rw [List.cons_append, begins, hu.not_isSign]
    exact hb
  | signed hc hu =>
    rw [List.cons_append, begins, if_pos hc]
    exact hu.beginsUnsigned_append r

theorem begins_iff : begins t = true ↔ ∃ n, IsNumeral n ∧ n <+: t := by
  constructor
  · intro h
    rw [← isSome_scan] at h
    obtain ⟨⟨n, r⟩, hs⟩ := Option.isSome_iff_exists.1 h
    obtain ⟨pointed, hn, -⟩ := shape_of_scan hs
    exact ⟨n, ⟨pointed, hn⟩, r, scan_append hs⟩
  · rintro ⟨n, ⟨pointed, hn⟩, r, rfl⟩
    exact hn.begins_append r

theorem exists_longest (h : begins t = true) : ∃ n, Longest n t := by
  rw [← isSome_scan] at h
  obtain ⟨⟨n, r⟩, hs⟩ := Option.isSome_iff_exists.1 h
  obtain ⟨pointed, hn, hr⟩ := shape_of_scan hs
  exact ⟨n, scan_append hs ▸ longest_of_stops hn hr⟩

end Numeral

namespace Token

open Text

def gluedBehind (glued : Bool) (t : Text) : Bool := t.foldl (fun _ c ↦ isLetter c) glued

variable {glued : Bool} {ts : List Token} {a b : Text} {c : Char}

theorem gluedBehind_append (glued : Bool) (t u : Text) :
    gluedBehind glued (t ++ u) = gluedBehind (gluedBehind glued t) u := List.foldl_append

theorem gluedBehind_false_iff {t : Text} :
    gluedBehind false t = false ↔ ∀ d ∈ t.getLast?, isLetter d = false := by
  rcases t.eq_nil_or_concat' with rfl | ⟨u, d, rfl⟩ <;> simp [gluedBehind]

theorem not_isLetter_of_shape {n : Text} {pointed : Bool} (h : Numeral.Shape n pointed)
    (hc : c ∈ n) : isLetter c = false := by
  rw [Bool.eq_false_iff]
  intro hl
  rcases h.mem hc with hd | rfl | hs
  · rw [not_isDigit_of_isLetter hl] at hd
    cases hd
  · exact absurd hl (by decide)
  · have hp : c ≠ '+' := isLetter_ne hl (by decide)
    have hm : c ≠ '-' := isLetter_ne hl (by decide)
    simp [Numeral.isSign, hp, hm] at hs

theorem gluedBehind_word {n : Text} {pointed : Bool} (h : Numeral.Shape n pointed) (l : Char)
    (glued : Bool) : gluedBehind glued (l :: n) = false := by
  obtain ⟨m, d, rfl⟩ := (List.eq_nil_or_concat' n).resolve_left h.ne_nil
  rw [← List.cons_append, gluedBehind_append]
  exact not_isLetter_of_shape h (by simp)

theorem Fits.at_word {as bs : List Token} {l : Char} {n : Text}
    (h : Fits glued (as ++ Token.word l n :: bs)) : isLetter l = true ∧
      gluedBehind glued (textOf as) = false ∧ Numeral.Longest n (n ++ textOf bs) := by
  generalize hts : as ++ Token.word l n :: bs = ts at h
  induction h generalizing as with
  | nil => simp at hts
  | @other glued c ts _ _ ih =>
    cases as with
    | nil => cases hts
    | cons k as =>
      obtain ⟨rfl, rfl⟩ := List.cons.inj hts
      exact ih rfl
  | @word m k pointed ts hm hk hr _ ih =>
    cases as with
    | nil =>
      cases hts
      exact ⟨hm, rfl, Numeral.longest_of_stops hk hr⟩
    | cons k' as =>
      obtain ⟨rfl, rfl⟩ := List.cons.inj hts
      obtain ⟨hl, hg, hn⟩ := ih rfl
      refine ⟨hl, ?_, hn⟩
      rw [textOf_word, ← List.cons_append, gluedBehind_append, gluedBehind_word hk]
      exact hg

theorem Fits.exists_word (h : Fits glued ts) (ht : textOf ts = a ++ c :: b)
    (hc : isLetter c = true) (hg : gluedBehind glued a = false) (hb : Numeral.begins b = true) :
    ∃ as n bs, ts = as ++ Token.word c n :: bs ∧ textOf as = a := by
  induction h generalizing a with
  | nil => simp at ht
  | @other glued d ts hn _ ih =>
    rw [textOf_other] at ht
    cases a with
    | nil =>
      obtain ⟨rfl, rfl⟩ := List.cons.inj ht
      rw [hn hc hg] at hb
      cases hb
    | cons e a =>
      obtain ⟨rfl, htail⟩ := List.cons.inj ht
      obtain ⟨as, n, bs, rfl, rfl⟩ := ih htail hg
      exact ⟨.other d :: as, n, bs, rfl, rfl⟩
  | @word l m pointed ts _ hm _ _ ih =>
    rw [textOf_word] at ht
    cases a with
    | nil =>
      obtain ⟨rfl, -⟩ := List.cons.inj ht
      exact ⟨[], m, ts, rfl, rfl⟩
    | cons e a =>
      obtain ⟨rfl, htail⟩ := List.cons.inj ht
      -- The letter is none of the numeral's code points, so it stands behind the numeral.
      rcases List.append_eq_append_iff.1 htail with ⟨a', rfl, hrest⟩ | ⟨n', rfl, hrest⟩
      · rw [← List.cons_append, gluedBehind_append, gluedBehind_word hm] at hg
        obtain ⟨as, n, bs, rfl, rfl⟩ := ih hrest hg
        exact ⟨.word l m :: as, n, bs, rfl, rfl⟩
      · cases n' with
        | nil =>
          obtain ⟨as, n, bs, rfl, hnil⟩ := ih (a := []) hrest.symm rfl
          exact ⟨.word l _ :: as, n, bs, rfl, by simp [hnil]⟩
        | cons d n' =>
          obtain ⟨rfl, -⟩ := List.cons.inj hrest
          rw [not_isLetter_of_shape hm (by simp)] at hc
          cases hc

end Token

namespace Piece

variable {t : Text} {ps : List Piece} {start place : Nat} {u : Text}

theorem chunks_append (start : Nat) (ps qs : List Piece) :
    chunks start (ps ++ qs) = chunks start ps ++ chunks (start + (ps.flatMap text).length) qs := by
  induction ps generalizing start with
  | nil => rfl
  | cons p ps ih => cases p <;> simp [chunks, ih, text, Nat.add_assoc]

theorem mem_chunks : (place, u) ∈ chunks start ps ↔ ∃ before after,
    ps = before ++ code u :: after ∧ place = start + (before.flatMap text).length := by
  constructor
  · intro h
    induction ps generalizing start with
    | nil => simp [chunks] at h
    | cons p ps ih =>
      have htail (h : (place, u) ∈ chunks (start + p.text.length) ps) : ∃ before after,
          p :: ps = before ++ code u :: after ∧
            place = start + (before.flatMap text).length := by
        obtain ⟨before, after, rfl, rfl⟩ := ih h
        exact ⟨p :: before, after, rfl, by simp [Nat.add_assoc]⟩
      cases p with
      | comment v => exact htail h
      | code v =>
        rcases List.mem_cons.1 h with he | h
        · cases he
          exact ⟨[], ps, rfl, rfl⟩
        · exact htail h
  · rintro ⟨before, after, rfl, rfl⟩
    rw [chunks_append]
    exact List.mem_append_right _ List.mem_cons_self

theorem map_snd_chunks (start : Nat) (ps : List Piece) :
    (chunks start ps).map Prod.snd = (ps.filter isCode).map text := by
  induction ps generalizing start with
  | nil => rfl
  | cons p ps ih =>
    cases p with
    | comment v => exact ih _
    | code v => exact congrArg (v :: ·) (ih _)

theorem le_of_mem_chunks (h : (place, u) ∈ chunks start ps) : start ≤ place := by
  obtain ⟨before, after, -, rfl⟩ := mem_chunks.1 h
  exact Nat.le_add_right _ _

theorem pairwise_chunks (start : Nat) (ps : List Piece) :
    (chunks start ps).Pairwise fun x y ↦ x.1 + x.2.length ≤ y.1 := by
  induction ps generalizing start with
  | nil => exact .nil
  | cons p ps ih =>
    cases p with
    | comment v => exact ih _
    | code v => exact .cons (fun y hy ↦ le_of_mem_chunks hy) (ih _)

/-- A line falls into pieces: comments, which begin with their marks, and code, which holds none of
them. The stretches of code are the pieces of code at their places, in order. -/
structure Divides (t : Text) : Prop where
  flatMap_text : (ofLine t).flatMap text = t
  head_comment : ∀ u, comment u ∈ ofLine t → u.head? = some '(' ∨ u.head? = some ';'
  marks_code : ∀ u, code u ∈ ofLine t → ∀ c ∈ u, c ≠ '(' ∧ c ≠ ';'
  map_snd_chunks : (chunks 0 (ofLine t)).map Prod.snd = ((ofLine t).filter isCode).map text
  mem_chunks_iff : ∀ place u, (place, u) ∈ chunks 0 (ofLine t) ↔ ∃ before after,
    ofLine t = before ++ code u :: after ∧ place = (before.flatMap text).length

theorem Parted.head_comment (h : Parted ps) (hu : Piece.comment u ∈ ps) :
    u.head? = some '(' ∨ u.head? = some ';' := by
  induction h with
  | nil => simp at hu
  | code _ _ _ _ ih => exact ih (by simpa using hu)
  | closed _ _ ih =>
    rcases List.mem_cons.1 hu with he | hu
    · cases he
      exact .inl rfl
    · exact ih hu
  | opened =>
    cases List.mem_singleton.1 hu
    exact .inl rfl
  | trailing =>
    cases List.mem_singleton.1 hu
    exact .inr rfl
  | broken =>
    rcases List.mem_cons.1 hu with he | hu
    · cases he
      exact .inr rfl
    · simp at hu

theorem Parted.marks_code (h : Parted ps) (hn : '\n' ∉ ps.flatMap text) (hu : Piece.code u ∈ ps) :
    ∀ c ∈ u, c ≠ '(' ∧ c ≠ ';' := by
  induction h with
  | nil => simp at hu
  | @code v ps _ hv _ _ ih =>
    rw [List.flatMap_cons] at hn
    rcases List.mem_cons.1 hu with he | hu
    · cases he
      exact hv.marks hn
    · exact ih (fun h ↦ hn (List.mem_append_right _ h)) hu
  | closed _ _ ih =>
    rw [List.flatMap_cons] at hn
    exact ih (fun h ↦ hn (List.mem_append_right _ h)) (by simpa using hu)
  | opened => simp at hu
  | trailing => simp at hu
  | broken => simp [text] at hn

theorem divides_ofLine (hn : '\n' ∉ t) : Divides t where
  flatMap_text := flatMap_text_ofLine t
  head_comment _ hu := (parted_ofLine t).head_comment hu
  marks_code _ hu := (parted_ofLine t).marks_code ((flatMap_text_ofLine t).symm ▸ hn) hu
  map_snd_chunks := Piece.map_snd_chunks 0 _
  mem_chunks_iff place u := by
    have hmem : (place, u) ∈ chunks 0 (ofLine t) ↔ _ := mem_chunks
    simpa using hmem

end Piece

namespace Word

variable {α : Type} [Coordinate α] {t : Text}

def put (place : Nat) (l : Char) (n : Text) : Word α :=
  ⟨Text.capital l, Coordinate.ofNumeral (.ofText n), place, place + 1 + n.length⟩

/-- A letter of the code stands at a place of a line, with no letter before it in its piece, and this
is what follows it in its piece. -/
def StandsAt (t : Text) (i : Nat) (l : Char) (rest : Text) : Prop :=
  ∃ before ahead after, Piece.ofLine t = before ++ .code (ahead ++ l :: rest) :: after ∧
    i = (before.flatMap Piece.text).length + ahead.length ∧ Text.isLetter l = true ∧
    ∀ d ∈ ahead.getLast?, Text.isLetter d = false

/-- The words of a line: one at each letter that a numeral follows, from left to right. -/
structure Finds (t : Text) (ws : List (Word α)) : Prop where
  starts_iff : ∀ i, (∃ w ∈ ws, w.start = i) ↔
    ∃ l rest, StandsAt t i l rest ∧ ∃ n, Numeral.IsNumeral n ∧ n <+: rest
  /-- A word has the longest numeral behind its letter for its number, and ends where that ends. -/
  mem_iff : ∀ w, w ∈ ws ↔
    ∃ l rest n, StandsAt t w.start l rest ∧ Numeral.Longest n rest ∧ w = put w.start l n
  ordered : ws.Pairwise (·.stop ≤ ·.start)

theorem ofTokens_append (place : Nat) (as bs : List Token) :
    (ofTokens place (as ++ bs) : List (Word α)) =
      ofTokens place as ++ ofTokens (place + (Token.textOf as).length) bs := by
  induction as generalizing place with
  | nil => rfl
  | cons k as ih =>
    cases k with
    | other c =>
      rw [List.cons_append, ofTokens, ih, ofTokens, Token.textOf_other, List.length_cons,
        Nat.add_assoc, Nat.add_comm 1]
    | word l n =>
      have hlen : place + (Token.textOf (.word l n :: as)).length =
          place + 1 + n.length + (Token.textOf as).length := by
        rw [Token.textOf_word, List.length_cons, List.length_append]
        omega
      rw [List.cons_append, ofTokens, ih, ofTokens, hlen]
      rfl

theorem mem_ofTokens {place : Nat} {ts : List Token} {w : Word α} :
    w ∈ ofTokens place ts ↔ ∃ as l n bs, ts = as ++ .word l n :: bs ∧
      w = put (place + (Token.textOf as).length) l n := by
  constructor
  · intro h
    induction ts generalizing place with
    | nil => simp [ofTokens] at h
    | cons k ts ih =>
      cases k with
      | other c =>
        obtain ⟨as, l, n, bs, rfl, rfl⟩ := ih h
        exact ⟨.other c :: as, l, n, bs, rfl, by simp [Nat.add_assoc, Nat.add_comm]⟩
      | word m k =>
        rcases List.mem_cons.1 h with rfl | h
        · exact ⟨[], m, k, ts, rfl, rfl⟩
        · obtain ⟨as, l, n, bs, rfl, rfl⟩ := ih h
          refine ⟨.word m k :: as, l, n, bs, rfl, ?_⟩
          congr 1
          simp
          omega
  · rintro ⟨as, l, n, bs, rfl, rfl⟩
    rw [ofTokens_append]
    exact List.mem_append_right _ List.mem_cons_self

theorem bounds_ofTokens {place : Nat} {ts : List Token} {w : Word α} (h : w ∈ ofTokens place ts) :
    place ≤ w.start ∧ w.stop ≤ place + (Token.textOf ts).length := by
  obtain ⟨as, l, n, bs, rfl, rfl⟩ := mem_ofTokens.1 h
  simp [put, Token.textOf, Token.text]
  omega

theorem pairwise_ofTokens (place : Nat) (ts : List Token) :
    (ofTokens place ts : List (Word α)).Pairwise (·.stop ≤ ·.start) := by
  induction ts generalizing place with
  | nil => exact .nil
  | cons k ts ih =>
    cases k with
    | other c => exact ih _
    | word l n => exact .cons (fun w hw ↦ (bounds_ofTokens hw).1) (ih _)

theorem mem_ofLine {w : Word α} : w ∈ ofLine t ↔ ∃ before u after as l n bs,
    Piece.ofLine t = before ++ .code u :: after ∧ Token.ofCode u = as ++ .word l n :: bs ∧
    w = put ((before.flatMap Piece.text).length + (Token.textOf as).length) l n := by
  rw [ofLine, List.mem_flatMap]
  constructor
  · rintro ⟨⟨place, u⟩, hchunk, hw⟩
    obtain ⟨before, after, hps, rfl⟩ := Piece.mem_chunks.1 hchunk
    obtain ⟨as, l, n, bs, hts, rfl⟩ := mem_ofTokens.1 hw
    exact ⟨before, u, after, as, l, n, bs, hps, hts, by rw [Nat.zero_add]⟩
  · rintro ⟨before, u, after, as, l, n, bs, hps, hts, rfl⟩
    refine ⟨((before.flatMap Piece.text).length, u), Piece.mem_chunks.2 ⟨before, after, hps, ?_⟩,
      mem_ofTokens.2 ⟨as, l, n, bs, hts, rfl⟩⟩
    rw [Nat.zero_add]

theorem pairwise_ofLine (t : Text) :
    (ofLine t : List (Word α)).Pairwise (·.stop ≤ ·.start) := by
  rw [ofLine, List.pairwise_flatMap]
  refine ⟨fun x _ ↦ pairwise_ofTokens _ _, (Piece.pairwise_chunks 0 _).imp ?_⟩
  intro x y hxy v hv w hw
  have hstop := (bounds_ofTokens hv).2
  have hstart := (bounds_ofTokens hw).1
  rw [Piece.textOf_ofCode] at hstop
  omega

theorem mem_ofLine_iff {w : Word α} : w ∈ ofLine t ↔
    ∃ l rest n, StandsAt t w.start l rest ∧ Numeral.Longest n rest ∧ w = put w.start l n := by
  rw [mem_ofLine]
  constructor
  · rintro ⟨before, u, after, as, l, n, bs, hps, hts, rfl⟩
    have hfits : Token.Fits false (Token.ofCode u) := Token.fits_scanFrom false u
    have hu : Token.textOf as ++ l :: (n ++ Token.textOf bs) = u := by
      rw [← Piece.textOf_ofCode u, hts]
      simp [Token.textOf, Token.text]
    rw [hts] at hfits
    obtain ⟨hl, hg, hn⟩ := hfits.at_word
    refine ⟨l, _, n, ⟨before, Token.textOf as, after, ?_, rfl, hl, ?_⟩, hn, rfl⟩
    · rw [hu, hps]
    · exact Token.gluedBehind_false_iff.1 hg
  · rintro ⟨l, rest, n, ⟨before, ahead, after, hps, hstart, hl, hahead⟩, hn, hw⟩
    have hb : Numeral.begins rest = true := Numeral.begins_iff.2 ⟨n, hn.isNumeral, hn.opens⟩
    have hfits : Token.Fits false (Token.ofCode (ahead ++ l :: rest)) :=
      Token.fits_scanFrom false _
    have htext := Piece.textOf_ofCode (ahead ++ l :: rest)
    obtain ⟨as, m, bs, hts, rfl⟩ :=
      hfits.exists_word htext hl (Token.gluedBehind_false_iff.2 hahead) hb
    have hrest : m ++ Token.textOf bs = rest := by
      rw [hts] at htext
      simpa [Token.textOf, Token.text] using htext
    rw [hts] at hfits
    obtain ⟨-, -, hm⟩ := hfits.at_word
    rw [hrest] at hm
    rw [hn.unique hm, hstart] at hw
    exact ⟨before, _, after, as, l, m, bs, hps, hts, hw⟩

theorem finds_ofLine (t : Text) : Finds t (ofLine t : List (Word α)) where
  starts_iff i := by
    constructor
    · rintro ⟨w, hw, rfl⟩
      obtain ⟨l, rest, n, hl, hn, -⟩ := mem_ofLine_iff.1 hw
      exact ⟨l, rest, hl, n, hn.isNumeral, hn.opens⟩
    · rintro ⟨l, rest, hl, hnum⟩
      obtain ⟨n, hn⟩ := Numeral.exists_longest (Numeral.begins_iff.2 hnum)
      exact ⟨put i l n, mem_ofLine_iff.2 ⟨l, rest, n, hl, hn, rfl⟩, rfl⟩
  mem_iff _ := mem_ofLine_iff
  ordered := pairwise_ofLine t

end Word

namespace Line

/-- A line falls into its code and its comments. If it is a line of code, it is read as the words
found in the code, or it is refused because it calls for a tool by a number without a whole part. -/
theorem finds_words {α : Type} [Coordinate α] {t : Text} (hn : '\n' ∉ t) : Piece.Divides t ∧
    ∀ i, kindOf t = .code →
      (∃ l : Line α, readAt i t = .ok l ∧ l.kind = .code ∧ Word.Finds t l.words) ∨
        Overflows α t ∧ (readAt i t : Except LineFault (Line α)) = .error .toolNumberInfinite := by
  refine ⟨Piece.divides_ofLine hn, fun i hk ↦ ?_⟩
  cases hread : (readAt i t : Except LineFault (Line α)) with
  | ok l =>
    obtain ⟨-, -, hkind, hwords⟩ := readAt_fields hread
    refine .inl ⟨l, rfl, hkind.trans hk, ?_⟩
    rw [hwords, if_pos hk]
    exact Word.finds_ofLine t
  | error e =>
    refine .inr ⟨?_, rfl⟩
    by_contra hsound
    obtain ⟨l, hl⟩ := exists_readAt_iff.2 hsound
    rw [hread] at hl
    cases hl

def tangled : Text := "GX1 Z1.5.2A(;b)Y-.5ı2 (T(4)F12.;S1".toList

theorem readsLine_tangled : Ending.readsLine tangled (fun l ↦ l.kind = .code &&
    l.words.map (fun w ↦ (w.letter, w.start, w.stop)) =
      [('Z', 4, 8), ('Y', 15, 19), ('I', 19, 21), ('F', 27, 31)]) = true := by
  decide +kernel

theorem finds_words_tangled : '\n' ∉ tangled ∧ kindOf tangled = .code ∧ Piece.Divides tangled ∧
    ∃ l : Line Float, readAt 0 tangled = .ok l ∧ Word.Finds tangled l.words ∧
      l.words.map (fun w ↦ (w.letter, w.start, w.stop)) =
        [('Z', 4, 8), ('Y', 15, 19), ('I', 19, 21), ('F', 27, 31)] := by
  have hn : '\n' ∉ tangled := by decide
  obtain ⟨l, hl, htest⟩ := Ending.exists_of_readsLine readsLine_tangled
  simp only [Bool.and_eq_true, decide_eq_true_eq] at htest
  have hk : kindOf tangled = .code := (readAt_fields hl).2.2.1.symm.trans htest.1
  obtain ⟨hdivides, hreads⟩ := finds_words (α := Float) hn
  obtain ⟨k, hread, -, hfinds⟩ := (hreads 0 hk).resolve_right fun h ↦ by simp [h.2] at hl
  obtain rfl : k = l := Except.ok.inj (hread.symm.trans hl)
  exact ⟨hn, hk, hdivides, k, hread, hfinds, htest.2⟩

end Line

end StepAndRepeat
