import Mathlib.Data.List.DropRight
import StepAndRepeat.Proofs.Program.Cleaning
import StepAndRepeat.Proofs.Program.Trailing

namespace StepAndRepeat

open Text

variable (α : Type) [Coordinate α]

namespace Ending

def isGap (c : Char) : Bool := c = ' ' || c = '\t'

/-- Behind the end words among parts of a line, blanks and tabs aside, stands neither a digit nor
a point. -/
def ClearEnds : List LinePart → Prop
  | [] => True
  | p :: ps =>
    (isEnd α p = true → Numeral.Stops false ((ps.flatMap LinePart.text).dropWhile isGap)) ∧
      ClearEnds ps

variable {α}

instance decidableClearEnds : (ps : List LinePart) → Decidable (ClearEnds α ps)
  | [] => .isTrue trivial
  | _ :: ps =>
    have := decidableClearEnds ps
    inferInstanceAs (Decidable ((_ → _) ∧ ClearEnds α ps))

def isEndKey (k : Char × α) : Bool := Word.isProgramEnd ⟨k.1, k.2, 0, 0⟩

theorem isEnd_eq (p : LinePart) : isEnd α p = p.key?.any (isEndKey (α := α)) := by
  cases p with
  | comment => rfl
  | token k => cases k <;> rfl

theorem isProgramEnd_eq_any (l : Line α) : l.isProgramEnd = l.keys.any isEndKey := by
  rw [Line.keys, List.any_map]
  rfl

theorem clearEnds_append {ps qs : List LinePart} (h : ClearEnds α (ps ++ qs)) :
    ClearEnds α qs := by
  induction ps with
  | nil => exact h
  | cons p ps ih => exact ih h.2

end Ending

namespace Numeral

def isPart (c : Char) : Bool := isDigit c || c = '.' || isSign c

theorem stops_of_not_isPart {c : Char} (h : isPart c = false) (t : Text) :
    Stops false (c :: t) := by
  rintro d ⟨⟩
  simp only [isPart, Bool.or_eq_false_iff, decide_eq_false_iff_not] at h
  exact ⟨h.1.1, fun _ ↦ h.1.2⟩

theorem not_begins_of_not_isPart {c : Char} (h : isPart c = false) (t : Text) :
    begins (c :: t) = false := by
  have hs : isSign c = false := (Bool.or_eq_false_iff.1 h).2
  rw [begins, if_neg (by simp [hs])]
  exact (stops_of_not_isPart h t).not_beginsUnsigned

theorem Shape.ne_nil {n : Text} {pointed : Bool} (h : Shape n pointed) : n ≠ [] := by
  cases h with
  | unsigned hu =>
    cases hu with
    | whole hne => exact hne
    | pointed => simp
  | signed => simp

end Numeral

open Ending

namespace Token

def isGap : Token → Bool
  | other c => Ending.isGap c
  | word _ _ => false

def kept : List Token → List Token
  | [] => []
  | k :: ts => if isEnd α (.token k) then (kept ts).dropWhile isGap else k :: kept ts

def Clear : List Token → Prop
  | [] => True
  | k :: ts =>
    (isEnd α (.token k) = true → Numeral.Stops false (textOf (ts.dropWhile isGap))) ∧ Clear ts

/-- Where what is left before an end word ends in a numeral, or in what one may begin with, neither
a digit nor a point moves up to it. The mark says whether the text before the tokens ends so. -/
def Apart : Bool → List Token → Prop
  | _, [] => True
  | near, k :: ts =>
    if Ending.isEnd α (.token k) = true then
      (near = true → Numeral.Stops false (textOf (kept α (k :: ts)))) ∧ Apart near ts
    else Apart (k.text.getLast?.any Numeral.isPart) ts

variable {α}

theorem kept_other (c : Char) (ts : List Token) :
    kept α (other c :: ts) = other c :: kept α ts := rfl

theorem kept_of_end {k : Token} (h : isEnd α (.token k) = true) (ts : List Token) :
    kept α (k :: ts) = (kept α ts).dropWhile isGap := if_pos h

theorem kept_of_not_end {k : Token} (h : isEnd α (.token k) = false) (ts : List Token) :
    kept α (k :: ts) = k :: kept α ts := if_neg (by simp [h])

instance decidableApart : (near : Bool) → (ts : List Token) → Decidable (Apart α near ts)
  | _, [] => .isTrue trivial
  | near, k :: ts =>
    have := decidableApart near ts
    have := decidableApart (k.text.getLast?.any Numeral.isPart) ts
    inferInstanceAs (Decidable (ite _ _ _))

theorem apart_of_end {near : Bool} {k : Token} {ts : List Token}
    (he : Ending.isEnd α (.token k) = true) : Apart α near (k :: ts) ↔
      (near = true → Numeral.Stops false (textOf (kept α (k :: ts)))) ∧ Apart α near ts := by
  rw [Apart, if_pos he]

theorem apart_of_not_end {near : Bool} {k : Token} {ts : List Token}
    (he : Ending.isEnd α (.token k) = false) :
    Apart α near (k :: ts) ↔ Apart α (k.text.getLast?.any Numeral.isPart) ts := by
  rw [Apart, if_neg (by simp [he])]

theorem apart_other {near : Bool} {c : Char} {ts : List Token} :
    Apart α near (other c :: ts) ↔ Apart α (Numeral.isPart c) ts := apart_of_not_end rfl

theorem kept_sublist (ts : List Token) : (kept α ts).Sublist ts := by
  induction ts with
  | nil => exact .slnil
  | cons k ts ih =>
    cases h : isEnd α (.token k) with
    | true =>
      rw [kept_of_end h]
      exact ((List.dropWhile_sublist _).trans ih).cons k
    | false =>
      rw [kept_of_not_end h]
      exact ih.cons_cons k

theorem filterMap_key?_dropWhile (ts : List Token) :
    ((ts.dropWhile isGap).map LinePart.token).filterMap (LinePart.key? (α := α)) =
      (ts.map LinePart.token).filterMap LinePart.key? := by
  induction ts with
  | nil => rfl
  | cons k ts ih =>
    cases h : isGap k with
    | false => rw [List.dropWhile_cons_of_neg (by simp [h])]
    | true =>
      rw [List.dropWhile_cons_of_pos h, ih]
      cases k with
      | other c => rfl
      | word => cases h

theorem filterMap_key?_kept (ts : List Token) :
    ((kept α ts).map LinePart.token).filterMap (LinePart.key? (α := α)) =
      ((ts.map LinePart.token).filterMap LinePart.key?).filter (!isEndKey ·) := by
  induction ts with
  | nil => rfl
  | cons k ts ih =>
    have he := isEnd_eq (α := α) (.token k)
    cases h : isEnd α (.token k) with
    | true =>
      rw [kept_of_end h, filterMap_key?_dropWhile, ih, List.map_cons]
      obtain ⟨v, hv, hev⟩ := (Option.any_eq_true _ _).1 (he.symm.trans h)
      rw [List.filterMap_cons_some hv, List.filter_cons_of_neg (by simp [hev])]
    | false =>
      rw [kept_of_not_end h, List.map_cons, List.map_cons]
      cases hv : (LinePart.token k).key? (α := α) with
      | none => rw [List.filterMap_cons_none hv, List.filterMap_cons_none hv, ih]
      | some v =>
        have hev : isEndKey v = false := by simpa [h, hv] using he.symm
        rw [List.filterMap_cons_some hv, List.filterMap_cons_some hv,
          List.filter_cons_of_pos (by simp [hev]), ih]

section Read

variable {glued : Bool} {ts : List Token}

theorem stops_dropWhile_kept (h : Fits glued ts) (hc : Clear α ts)
    (hs : Numeral.Stops false (textOf (ts.dropWhile isGap))) :
    Numeral.Stops false (textOf ((kept α ts).dropWhile isGap)) := by
  induction h with
  | nil => exact hs
  | @other _ c ts _ _ ih =>
    rw [kept_other]
    cases hg : isGap (other c) with
    | true =>
      rw [List.dropWhile_cons_of_pos hg] at hs ⊢
      exact ih hc.2 hs
    | false =>
      rw [List.dropWhile_cons_of_neg (by simp [hg])] at hs ⊢
      intro d hd
      exact hs d hd
  | @word l n _ ts hl _ _ _ ih =>
    cases he : isEnd α (.token (word l n)) with
    | true =>
      -- the gap reaches over the end word to the gap behind it
      rw [kept_of_end he, List.dropWhile_idempotent]
      exact ih hc.2 (hc.1 he)
    | false =>
      rw [kept_of_not_end he]
      exact .of_isLetter hl false _

theorem stops_kept_of_end (h : Fits glued ts) {k : Token} (hc : Clear α (k :: ts))
    (he : isEnd α (.token k) = true) : Numeral.Stops false (textOf (kept α (k :: ts))) := by
  rw [kept_of_end he]
  exact stops_dropWhile_kept h hc.2 (hc.1 he)

theorem Clear.apart (hc : Clear α ts) (h : Fits glued ts) (near : Bool) : Apart α near ts := by
  induction h generalizing near with
  | nil => trivial
  | other _ _ ih => exact apart_other.2 (ih hc.2 _)
  | @word l n _ ts _ _ _ hts ih =>
    cases he : isEnd α (.token (word l n)) with
    | true => exact (apart_of_end he).2 ⟨fun _ ↦ stops_kept_of_end hts hc he, ih hc.2 near⟩
    | false => exact (apart_of_not_end he).2 (ih hc.2 _)

theorem Fits.dropWhile (h : Fits false ts) : Fits false (ts.dropWhile isGap) := by
  induction ts with
  | nil => exact .nil
  | cons k ts ih =>
    cases hg : isGap k with
    | false =>
      rw [List.dropWhile_cons_of_neg (by simp [hg])]
      exact h
    | true =>
      rw [List.dropWhile_cons_of_pos hg]
      cases h with
      | word => cases hg
      | @other _ c _ _ hts =>
        have hl : isLetter c = false := by
          simp only [isGap, Ending.isGap, Bool.or_eq_true, decide_eq_true_eq] at hg
          rcases hg with rfl | rfl <;> decide
        exact ih (hl ▸ hts)

theorem Apart.follows (ha : Apart α true ts) (h : Fits glued ts) :
    Numeral.Follows (textOf ts) (textOf (kept α ts)) := by
  induction h with
  | nil => exact .stops (by simp [kept, Numeral.Stops])
  | @other _ c ts _ _ ih =>
    rw [apart_other] at ha
    rw [kept_other, textOf_other, textOf_other]
    cases hc : Numeral.isPart c with
    | true => exact .cons c (ih (hc ▸ ha))
    | false => exact .stops (Numeral.stops_of_not_isPart hc _)
  | @word l n _ ts hl _ _ _ _ =>
    cases he : Ending.isEnd α (.token (word l n)) with
    | true => exact .stops (((apart_of_end he).1 ha).1 rfl)
    | false =>
      rw [kept_of_not_end he]
      exact .stops (.of_isLetter hl false _)

theorem isPart_getLast_word {l : Char} {n : Text} {pointed : Bool} (h : Numeral.Shape n pointed) :
    (text (word l n)).getLast?.any Numeral.isPart = true := by
  have hlast : (text (word l n)).getLast? = some (n.getLast h.ne_nil) := by
    rw [text, List.getLast?_cons, List.getLast?_eq_some_getLast h.ne_nil]
    rfl
  rw [hlast, Option.any_some, Numeral.isPart]
  rcases h.mem (List.getLast_mem h.ne_nil) with hd | hp | hs
  · simp [hd]
  · simp [hp]
  · simp [hs]

theorem Apart.fits_kept {near : Bool} (ha : Apart α near ts) (h : Fits glued ts) :
    Fits glued (kept α ts) := by
  induction h generalizing near with
  | nil => exact .nil
  | @other glued c ts hn hts ih =>
    rw [apart_other] at ha
    rw [kept_other]
    refine .other (fun hl hg ↦ ?_) (ih ha)
    -- behind a letter stands no word, and a code point that no numeral holds shuts it off
    have hb := hn hl hg
    rw [hl] at hts
    cases hts with
    | nil => exact hb
    | @other _ d ts _ hts =>
      rw [apart_other] at ha
      rw [kept_other, textOf_other]
      cases hd : Numeral.isPart d with
      | true => exact ((hd ▸ ha : Apart α true ts).follows hts).not_begins hb
      | false => exact Numeral.not_begins_of_not_isPart hd _
  | @word l n pointed ts hl hn hr hts ih =>
    cases he : Ending.isEnd α (.token (word l n)) with
    | true =>
      rw [kept_of_end he]
      exact (ih ((apart_of_end he).1 ha).2).dropWhile
    | false =>
      rw [apart_of_not_end he, isPart_getLast_word hn] at ha
      rw [kept_of_not_end he]
      exact .word hl hn ((ha.follows hts).keepsStops hr) (ih ha)

theorem ofCode_textOf_kept {u : Text} (ha : Apart α false (ofCode u)) :
    ofCode (textOf (kept α (ofCode u))) = kept α (ofCode u) :=
  scanFrom_of_fits (ha.fits_kept (fits_scanFrom false u))

end Read

def Lettered (ts : List Token) : Prop := ∀ l n, word l n ∈ ts → isLetter l = true

theorem lettered_ofCode (u : Text) : Lettered (ofCode u) :=
  fun _ _ h ↦ (fits_scanFrom false u).isLetter_of_mem h

theorem Lettered.mono {ts ks : List Token} (h : Lettered ts) (hk : ks ⊆ ts) : Lettered ks :=
  fun l n hm ↦ h l n (hk hm)

theorem dropWhile_textOf {ts : List Token} (h : Lettered ts) :
    (textOf ts).dropWhile Ending.isGap = textOf (ts.dropWhile isGap) := by
  induction ts with
  | nil => rfl
  | cons k ts ih =>
    cases k with
    | other c =>
      rw [textOf_other]
      cases hg : Ending.isGap c with
      | true =>
        have hk : isGap (other c) = true := hg
        rw [List.dropWhile_cons_of_pos hg, List.dropWhile_cons_of_pos hk]
        exact ih fun l n hm ↦ h l n (by simp [hm])
      | false =>
        rw [List.dropWhile_cons_of_neg (by simp [hg]),
          List.dropWhile_cons_of_neg (by simp [isGap, hg]), textOf_other]
    | word l n =>
      have hl := h l n (by simp)
      have hg : Ending.isGap l = false := by
        have hs : l ≠ ' ' := isLetter_ne hl (by decide)
        have ht : l ≠ '\t' := isLetter_ne hl (by decide)
        simp [Ending.isGap, hs, ht]
      rw [textOf_word, List.dropWhile_cons_of_neg (by simp [hg]),
        List.dropWhile_cons_of_neg (by simp [isGap]), textOf_word]

end Token

namespace Ending

variable {α}

theorem dropWhile_append_of_head {t r : Text} (hr : ∀ c ∈ r.head?, isGap c = false) :
    (t ++ r).dropWhile isGap = t.dropWhile isGap ++ r := by
  rw [List.dropWhile_append]
  split
  next h =>
    rw [List.isEmpty_iff.1 h, List.nil_append]
    cases r with
    | nil => rfl
    | cons c r => rw [List.dropWhile_cons_of_neg (by simp [hr c rfl])]
  next => rfl

theorem withoutEnds_append {ts : List Token} (h : Token.Lettered ts) {ps : List LinePart}
    (hp : ∀ c ∈ (withoutEnds α ps).head?, isGap c = false) :
    withoutEnds α (ts.map .token ++ ps) = Token.textOf (Token.kept α ts) ++ withoutEnds α ps := by
  induction ts with
  | nil => rfl
  | cons k ts ih =>
    have hts : Token.Lettered ts := h.mono (List.subset_cons_self k ts)
    rw [List.map_cons, List.cons_append, withoutEnds, ih hts]
    cases he : isEnd α (.token k) with
    | true =>
      have hk := Token.dropWhile_textOf (hts.mono (Token.kept_sublist (α := α) ts).subset)
      rw [if_pos rfl, Token.kept_of_end he, ← hk]
      exact dropWhile_append_of_head hp
    | false =>
      rw [if_neg (by simp), Token.kept_of_not_end he, ← List.append_assoc]
      rfl

theorem clear_of_clearEnds {ts : List Token} (h : Token.Lettered ts) {ps : List LinePart}
    (hc : ClearEnds α (ts.map .token ++ ps)) : Token.Clear α ts := by
  induction ts with
  | nil => trivial
  | cons k ts ih =>
    have hts : Token.Lettered ts := h.mono (List.subset_cons_self k ts)
    refine ⟨fun he ↦ ?_, ih hts hc.2⟩
    have htext : (ts.map LinePart.token ++ ps).flatMap LinePart.text =
        Token.textOf ts ++ ps.flatMap LinePart.text := by
      rw [List.flatMap_append, List.flatMap_map]
      rfl
    have hs : Numeral.Stops false (((ts.map LinePart.token ++ ps).flatMap
        LinePart.text).dropWhile isGap) := hc.1 he
    rw [htext, List.dropWhile_append, Token.dropWhile_textOf hts] at hs
    split at hs
    next hn =>
      rw [List.isEmpty_iff.1 hn]
      simp [Numeral.Stops]
    next hn =>
      intro c hd
      refine hs c ?_
      rw [List.head?_append, Option.mem_def.1 hd]
      rfl

end Ending

namespace Piece

def kept : Piece → List Piece
  | comment t => [comment t]
  | code u =>
    if (Token.kept α (Token.ofCode u)).isEmpty then []
    else [code (Token.textOf (Token.kept α (Token.ofCode u)))]

variable {α}

theorem flatMap_text_kept_code (u : Text) :
    (kept α (code u)).flatMap text = Token.textOf (Token.kept α (Token.ofCode u)) := by
  rw [kept]
  split
  next h => rw [List.isEmpty_iff.1 h]; rfl
  next => exact List.flatMap_singleton ..

theorem mem_textOf_kept {u : Text} {c : Char}
    (h : c ∈ Token.textOf (Token.kept α (Token.ofCode u))) : c ∈ u := by
  rw [← textOf_ofCode u]
  obtain ⟨k, hk, hc⟩ := List.mem_flatMap.1 h
  exact List.mem_flatMap.2 ⟨k, (Token.kept_sublist _).subset hk, hc⟩

theorem Parted.kept {ps : List Piece} (h : Parted ps) (hn : '\n' ∉ ps.flatMap text) :
    Parted (ps.flatMap (kept α)) := by
  induction h with
  | nil => exact .nil
  | @code u ps _ hu hp _ ih =>
    rw [List.flatMap_cons] at hn ⊢
    have hrest := ih fun h ↦ hn (List.mem_append_right _ h)
    rw [Piece.kept]
    split
    · exact hrest
    next hk =>
      have hne : Token.kept α (Token.ofCode u) ≠ [] := fun e ↦ hk (List.isEmpty_iff.2 e)
      refine .code (textOf_ne_nil hne) (plain_of_marks (fun c hc ↦ ?_) _) ?_ hrest
      · exact hu.marks hn c (mem_textOf_kept hc)
      · cases ps with
        | nil => simp
        | cons p ps =>
          cases p with
          | code => simp [isCode, isComment] at hp
          | comment v =>
            rintro _ ⟨⟩
            rfl
  | @closed b ps hb _ ih =>
    rw [List.flatMap_cons] at hn ⊢
    exact .closed hb (ih fun h ↦ hn (List.mem_append_right _ h))
  | opened hb => exact .opened hb
  | trailing hb => exact .trailing hb
  | broken => simp [text] at hn

theorem withoutEnds_ofPieces {ps : List Piece} (h : Parted ps) :
    withoutEnds α (ps.flatMap LinePart.ofPiece) = (ps.flatMap (kept α)).flatMap text := by
  induction h with
  | nil => rfl
  | @code u ps _ _ hp hps ih =>
    rw [List.flatMap_cons, List.flatMap_cons, List.flatMap_append, flatMap_text_kept_code, ← ih]
    refine withoutEnds_append (Token.lettered_ofCode u) fun c hc ↦ ?_
    -- a comment, which begins with its mark, ends the gap
    cases hps with
    | nil => cases hc
    | code => simp [isCode, isComment] at hp
    | closed | opened | trailing | broken => cases hc; decide
  | @closed b ps hb _ ih =>
    rw [List.flatMap_cons, List.flatMap_cons, List.flatMap_append, ← ih, LinePart.ofPiece,
      List.singleton_append, withoutEnds, if_neg (by simp [isEnd])]
    simp [kept, LinePart.text, text]
  | opened => rfl
  | trailing => rfl
  | @broken b hb =>
    have hc : Token.ofCode ['\n'] = [.other '\n'] := by decide
    simp [LinePart.ofPiece, kept, hc, withoutEnds, isEnd, Token.kept, LinePart.text, Token.text,
      text]

variable (α) in
/-- What is left of the code among pieces is read as the tokens that are left. -/
def Rereads (ps : List Piece) : Prop := ∀ u, code u ∈ ps →
  Token.ofCode (Token.textOf (Token.kept α (Token.ofCode u))) = Token.kept α (Token.ofCode u)

theorem Rereads.keysOf_kept {ps : List Piece} (h : Rereads α ps) :
    keysOf α (ps.flatMap (kept α)) = (keysOf α ps).filter (!isEndKey ·) := by
  induction ps with
  | nil => rfl
  | cons p ps ih =>
    rw [List.flatMap_cons, keysOf, List.flatMap_append, List.filterMap_append, keysOf_cons,
      List.filter_append, ← ih fun u hu ↦ h u (by simp [hu])]
    congr 1
    cases p with
    | comment v => rfl
    | code u =>
      rw [keysOf, List.flatMap_singleton, LinePart.ofPiece, ← Token.filterMap_key?_kept, kept]
      split
      next h => rw [List.isEmpty_iff.1 h]; rfl
      next => rw [List.flatMap_singleton, LinePart.ofPiece, h u (by simp)]

theorem rereads_of_clearEnds {ps : List Piece} (hc : ClearEnds α (ps.flatMap LinePart.ofPiece)) :
    Rereads α ps := by
  induction ps with
  | nil => simp [Rereads]
  | cons p ps ih =>
    rw [List.flatMap_cons] at hc
    intro u hu
    rcases List.mem_cons.1 hu with rfl | hu
    · have hclear := clear_of_clearEnds (Token.lettered_ofCode u) hc
      exact Token.ofCode_textOf_kept (hclear.apart (Token.fits_scanFrom false u) false)
    · exact ih (clearEnds_append hc) u hu

end Piece

namespace Ending

variable {α}

/-- The text of a line without its end words is read as the other words. -/
theorem keysOf_withoutEnds {t : Text} (hn : '\n' ∉ t) (h : Piece.Rereads α (Piece.ofLine t)) :
    Piece.keysOf α (Piece.ofLine (withoutEnds α (LinePart.ofLine t))) =
      (Piece.keysOf α (Piece.ofLine t)).filter (!isEndKey ·) := by
  have hp := Piece.parted_ofLine t
  rw [← Piece.flatMap_text_ofLine t] at hn
  rw [← h.keysOf_kept, LinePart.ofLine, Piece.withoutEnds_ofPieces hp,
    Piece.ofLine_of_parted (hp.kept hn)]

theorem kind_of_isProgramEnd {l : Line α} (hl : l.IsRead) (h : l.isProgramEnd = true) :
    l.kind = .code := by
  rw [isProgramEnd_eq_any, Line.keys_of_readAt hl] at h
  rw [hl.kind_eq]
  split at h
  next hk => exact hk
  next => simp at h

theorem eq_of_strip {l : Line α} {t : Text} (h : strip l = some t) :
    t = trimEnd (withoutEnds α (LinePart.ofLine l.text)) := by
  unfold strip at h
  split at h
  · exact (Option.some_inj.1 h).symm
  · cases h

/-- What is left of a line of code has the other words, whatever kind of line it has become. -/
theorem keysOf_of_strip {l : Line α} {t : Text} (hl : l.IsSound)
    (h : Piece.Rereads α (Piece.ofLine l.text)) (hk : l.kind = .code) (hs : strip l = some t) :
    Piece.keysOf α (Piece.ofLine t) = l.keys.filter (!isEndKey ·) := by
  have hn : '\n' ∉ l.text := fun h ↦ absurd (hl.2 _ h) (by decide)
  have hw : '\n' ∉ withoutEnds α (LinePart.ofLine l.text) := fun h ↦
    hn (LinePart.flatMap_text_ofLine l.text ▸ subset_withoutEnds _ h)
  have hkeys := Line.keys_of_readAt hl.1
  rw [if_pos (hl.1.kind_eq.symm.trans hk)] at hkeys
  rw [eq_of_strip hs, Piece.keysOf_trimEnd hw, keysOf_withoutEnds hn h, hkeys]
  rfl

theorem keys_of_strip {l r : Line α} {t : Text} {i : Nat} (hl : l.IsSound)
    (hc : ClearEnds α (LinePart.ofLine l.text)) (hk : l.kind = .code) (hs : strip l = some t)
    (hr : Line.readAt i t = .ok r) :
    r.kind ≠ .code ∧ r.keys = [] ∨ r.kind = .code ∧ r.keys = l.keys.filter (!isEndKey ·) := by
  rw [(Line.readAt_fields hr).2.2.1, Line.keys_of_readAt hr]
  split
  next hcode => exact .inr ⟨hcode, keysOf_of_strip hl (Piece.rereads_of_clearEnds hc) hk hs⟩
  next hcode => exact .inl ⟨hcode, rfl⟩

theorem not_isProgramEnd_of_clean {l r : Line α} {rs : List (Line α)} (hl : l.IsSound)
    (hc : l.kind = .code → ClearEnds α (LinePart.ofLine l.text)) (h : clean l = .ok rs)
    (hr : r ∈ rs) : r.isProgramEnd = false := by
  rcases clean_cases h with ⟨he, rfl⟩ | ⟨-, -, rfl⟩ | ⟨t, s, he, hs, hread, rfl⟩
  · rwa [List.mem_singleton.1 hr]
  · simp at hr
  · have hk := kind_of_isProgramEnd hl.1 he
    rw [List.mem_singleton.1 hr, isProgramEnd_eq_any]
    rcases keys_of_strip hl (hc hk) hk hs hread with ⟨-, hkeys⟩ | ⟨-, hkeys⟩
    · rw [hkeys]
      rfl
    · rw [hkeys, List.any_filter, List.any_eq_false]
      simp

theorem not_isProgramEnd_of_cleanAll {ls rs : List (Line α)} (hs : ∀ l ∈ ls, l.IsSound)
    (hc : ∀ l ∈ ls, l.kind = .code → ClearEnds α (LinePart.ofLine l.text))
    (h : cleanAll ls = .ok rs) : ∀ r ∈ rs, r.isProgramEnd = false := by
  induction ls generalizing rs with
  | nil =>
    rw [← Except.ok.inj h]
    simp
  | cons l ls ih =>
    obtain ⟨ks, rs, hl, hls, rfl⟩ := cleanAll_cons h
    intro r hr
    rcases List.mem_append.1 hr with hr | hr
    · exact not_isProgramEnd_of_clean (hs l (by simp)) (hc l (by simp)) hl hr
    · exact ih (fun k hk ↦ hs k (by simp [hk])) (fun k hk ↦ hc k (by simp [hk])) hls r hr

end Ending

end StepAndRepeat
