import StepAndRepeat.Grid.SkipText
import StepAndRepeat.Proofs.Number.Digits
import StepAndRepeat.Proofs.Number.Numerals
import StepAndRepeat.Proofs.Program.Trailing
import StepAndRepeat.Proofs.Text.Trimming

namespace StepAndRepeat.SkipText

open Text

/-- A whole number written as digits of any script, with or without a plus sign. -/
inductive Writes : Text → Int → Prop
  | plain {ds : Text} : ds ≠ [] → (∀ c ∈ ds, isDigit c = true) → Writes ds (digitsToNat ds)
  | plus {ds : Text} : ds ≠ [] → (∀ c ∈ ds, isDigit c = true) → Writes ('+' :: ds) (digitsToNat ds)

structure Long (t : Text) : Prop where
  writes : ∃ n, Writes t n
  long : digitLimit < (t.filter isDigit).length

/-- What stands before and behind the one minus sign of a piece, blanks around it aside. -/
structure Sides (piece x y : Text) : Prop where
  ne_nil : x ≠ [] ∧ y ≠ []
  dash_not_mem : '-' ∉ x ∧ '-' ∉ y
  trimmed : Trimmed x ∧ Trimmed y
  joined : ∃ s s', (∀ c ∈ s, isBlank c = true) ∧ (∀ c ∈ s', isBlank c = true) ∧
    piece = x ++ s ++ '-' :: (s' ++ y)

/-- A piece names the parts from a first to a last one: a part of the grid, or a range that begins
in the grid and is cut off at its last cell. -/
inductive Names (cells : Int) (piece : Text) : Int → Int → Prop
  | single {n : Int} : Writes piece n → 1 ≤ n → n ≤ cells → Names cells piece n n
  | range {x y : Text} {m n : Int} : Sides piece x y → Writes x m → Writes y n →
      1 ≤ m → m ≤ n → m ≤ cells → Names cells piece m (min n cells)

def IsNamed (cells : Int) (piece : Text) : Prop := ∃ m n, Names cells piece m n

/-- A piece that cannot be read to its end: a number is too long, or the number of cells for the
message is, or the range has too many parts for a list. -/
inductive Stops (cells : Int) (piece : Text) : Prop
  | long : Long piece → Stops cells piece
  | longSide {x y : Text} : Sides piece x y → Long x ∨ Long y → Stops cells piece
  | single {n : Int} : Writes piece n → 1 ≤ n → cells < n → ¬ Short cells → Stops cells piece
  | range {x y : Text} {m n : Int} : Sides piece x y → Writes x m → Writes y n → 1 ≤ m → m ≤ n →
      cells < m → ¬ Short cells → Stops cells piece
  | items {x y : Text} {m n : Int} : Sides piece x y → Writes x m → Writes y n → 1 ≤ m → m ≤ n →
      m ≤ cells → itemLimit ≤ min n cells + 1 - m → Stops cells piece

variable {t piece x y : Text} {cells m n : Int}

section Numbers

theorem Writes.isNumeric (h : Writes t n) : ∀ c ∈ t, isDigit c = true ∨ c = '+' := by
  cases h with
  | plain _ hd => exact fun c hc ↦ .inl (hd c hc)
  | plus _ hd =>
    intro c hc
    rcases List.mem_cons.1 hc with rfl | hc
    · exact .inr rfl
    · exact .inl (hd c hc)

theorem Writes.ne_nil (h : Writes t n) : t ≠ [] := by
  cases h with
  | plain hn _ => exact hn
  | plus _ _ => simp

theorem Writes.not_isBlank (h : Writes t n) {c : Char} (hc : c ∈ t) : isBlank c = false := by
  rcases h.isNumeric c hc with hd | rfl
  · rw [Bool.eq_false_iff]
    intro hb
    simp [not_isDigit_of_isBlank hb] at hd
  · decide

theorem Writes.trimmed (h : Writes t n) : Trimmed t where
  head _ hc := h.not_isBlank (List.mem_of_mem_head? hc)
  last _ hc := h.not_isBlank (List.mem_of_mem_getLast? hc)

theorem Writes.dash_not_mem (h : Writes t n) : '-' ∉ t := by
  intro hm
  rcases h.isNumeric _ hm with hd | hd
  · exact absurd hd (by decide)
  · exact absurd hd (by decide)

theorem Writes.unique (h : Writes t m) (h' : Writes t n) : m = n := by
  have hplus {ds : Text} (hd : ∀ c ∈ '+' :: ds, isDigit c = true) : False :=
    absurd (hd '+' (by simp)) (by decide)
  cases h with
  | plain hne hd =>
    cases h' with
    | plain => rfl
    | plus => exact (hplus hd).elim
  | plus hne hd =>
    cases h' with
    | plain _ hd' => exact (hplus hd').elim
    | plus => rfl

theorem Writes.nonneg (h : Writes t n) : 0 ≤ n := by
  cases h <;> exact Int.natCast_nonneg _

theorem Writes.short (h : Writes t n) (hl : ¬ Long t) : Short n := by
  have hle : (t.filter isDigit).length ≤ digitLimit := by
    by_contra hlt
    exact hl ⟨⟨n, h⟩, by omega⟩
  cases h with
  | plain _ hd =>
    rw [List.filter_eq_self.2 hd] at hle
    exact short_of_digits hle
  | @plus ds _ hd =>
    have hsign : isDigit '+' = false := by decide
    rw [List.filter_cons_of_neg (by simp [hsign]), List.filter_eq_self.2 hd] at hle
    exact short_of_digits hle

theorem map_readDigits {ds : Text} (hf : t.filter isDigit = ds) (hw : Writes t (digitsToNat ds)) :
    Long t ∧ (readDigits ds).map (fun (n : Nat) ↦ some (n : Int)) = .error .digits ∨
      ¬ Long t ∧
        (readDigits ds).map (fun (n : Nat) ↦ some (n : Int)) = .ok (some (digitsToNat ds)) := by
  rw [readDigits]
  split
  next h => exact .inl ⟨⟨⟨_, hw⟩, hf ▸ h⟩, rfl⟩
  next h => exact .inr ⟨fun hl ↦ h (hf ▸ hl.long), rfl⟩

theorem number?_eq_none {c : Char} {ds : Text}
    (hds : (if c = '+' ∨ c = '-' then t else c :: t) = ds)
    (hbad : ds = [] ∨ ¬ ∀ d ∈ ds, isDigit d = true) : number? (c :: t) = .ok none := by
  have hb : (ds.isEmpty || !ds.all isDigit) = true := by simpa using hbad
  rw [number?]
  simp only [hds, hb, ↓reduceIte]

theorem number?_eq_map {c : Char} {ds : Text} (hc : c ≠ '-')
    (hds : (if c = '+' ∨ c = '-' then t else c :: t) = ds) (hne : ds ≠ [])
    (hd : ∀ d ∈ ds, isDigit d = true) :
    number? (c :: t) = (readDigits ds).map fun (n : Nat) ↦ some (n : Int) := by
  have hb : (ds.isEmpty || !ds.all isDigit) = false := by simpa using ⟨hne, hd⟩
  rw [number?]
  simp only [hds, hb, Bool.false_eq_true, ↓reduceIte]
  simp only [hc, ↓reduceIte]

theorem number?_cases (h : '-' ∉ t) :
    Long t ∧ number? t = .error .digits ∨
      (∃ n, Writes t n ∧ ¬ Long t ∧ number? t = .ok (some n)) ∨
      (∀ n, ¬ Writes t n) ∧ number? t = .ok none := by
  have hread {ds : Text} (hf : t.filter isDigit = ds) (hw : Writes t (digitsToNat ds))
      (hn : number? t = (readDigits ds).map fun (n : Nat) ↦ some (n : Int)) :
      Long t ∧ number? t = .error .digits ∨
        (∃ n, Writes t n ∧ ¬ Long t ∧ number? t = .ok (some n)) ∨
        (∀ n, ¬ Writes t n) ∧ number? t = .ok none := by
    rw [hn]
    rcases map_readDigits hf hw with ⟨hl, hr⟩ | ⟨hl, hr⟩
    · exact .inl ⟨hl, hr⟩
    · exact .inr (.inl ⟨_, hw, hl, hr⟩)
  cases t with
  | nil => exact .inr (.inr ⟨fun n hn ↦ hn.ne_nil rfl, rfl⟩)
  | cons c t =>
    have hc : c ≠ '-' := fun he ↦ h (by simp [he])
    by_cases hp : c = '+'
    · subst hp
      by_cases hgood : t ≠ [] ∧ ∀ d ∈ t, isDigit d = true
      · have hsign : isDigit '+' = false := by decide
        refine hread ?_ (.plus hgood.1 hgood.2) (number?_eq_map hc (by simp) hgood.1 hgood.2)
        rw [List.filter_cons_of_neg (by simp [hsign]), List.filter_eq_self.2 hgood.2]
      · refine .inr (.inr ⟨fun n hn ↦ ?_, number?_eq_none (if_pos (.inl rfl)) (by tauto)⟩)
        cases hn with
        | plain _ hd => exact absurd (hd '+' (by simp)) (by decide)
        | plus hne hd => exact hgood ⟨hne, hd⟩
    · by_cases hgood : ∀ d ∈ c :: t, isDigit d = true
      · exact hread (List.filter_eq_self.2 hgood) (.plain (by simp) hgood)
          (number?_eq_map hc (by simp [hp, hc]) (by simp) hgood)
      · refine .inr (.inr ⟨fun n hn ↦ ?_, number?_eq_none (by simp [hp, hc]) (.inr hgood)⟩)
        cases hn with
        | plain _ hd => exact hgood hd
        | plus => exact hp rfl

end Numbers

theorem mem_upTo {m k : Int} : k ∈ upTo m n ↔ m ≤ k ∧ k ≤ n := by
  simp only [upTo, List.mem_map, List.mem_range]
  constructor
  · rintro ⟨i, hi, rfl⟩
    omega
  · rintro ⟨hm, hn⟩
    exact ⟨(k - m).toNat, by omega, by omega⟩

theorem pairwise_upTo (m n : Int) : (upTo m n).Pairwise (· < ·) := by
  rw [upTo, List.pairwise_map]
  exact List.pairwise_lt_range.imp fun h ↦ by omega

theorem upTo_self (n : Int) : upTo n n = [n] := by
  have hlen : (n + 1 - n).toNat = 1 := by omega
  rw [upTo, hlen]
  simp

section Pieces

theorem map_trim_cut_of_sides (h : Sides piece x y) : (cut '-' piece).map trim = [x, y] := by
  obtain ⟨s, s', hs, hs', rfl⟩ := h.joined
  have hblank {b : Text} (hb : ∀ c ∈ b, isBlank c = true) : '-' ∉ b := by
    intro hm
    exact absurd (hb _ hm) (by decide)
  have hleft : '-' ∉ x ++ s := by simp [h.dash_not_mem.1, hblank hs]
  have hright : '-' ∉ s' ++ y := by simp [h.dash_not_mem.2, hblank hs']
  have hfirst : trim (x ++ s) = x := trim_append (s := []) (by simp) hs h.trimmed.1
  have hsecond : trim (s' ++ y) = y := by
    have := trim_append (u := []) hs' (by simp) h.trimmed.2
    rwa [List.append_nil] at this
  rw [cut_append hleft, cut_of_not_mem hright, List.map_cons, List.map_singleton, hfirst, hsecond]

theorem Sides.dash_mem (h : Sides piece x y) : '-' ∈ piece := by
  obtain ⟨s, s', -, -, rfl⟩ := h.joined
  simp

theorem Sides.unique {x' y' : Text} (h : Sides piece x y) (h' : Sides piece x' y') :
    x = x' ∧ y = y' := by
  have hcut := (map_trim_cut_of_sides h).symm.trans (map_trim_cut_of_sides h')
  simpa using hcut

theorem sides_of_map_trim_cut (hp : Trimmed piece) (hx : x ≠ []) (hy : y ≠ [])
    (h : (cut '-' piece).map trim = [x, y]) : Sides piece x y := by
  have hlen : (cut '-' piece).length = 2 := by simpa using congrArg List.length h
  obtain ⟨u, v, hcut⟩ := List.length_eq_two.1 hlen
  obtain ⟨rfl, rfl⟩ : trim u = x ∧ trim v = y := by simpa [hcut] using h
  have hu : '-' ∉ u := not_mem_of_mem_cut (t := piece) (by simp [hcut])
  have hv : '-' ∉ v := not_mem_of_mem_cut (t := piece) (by simp [hcut])
  have hjoin : piece = u ++ ['-'] ++ v := by
    have := join_cut '-' piece
    rw [hcut] at this
    exact this.symm
  obtain ⟨a, s, ha, hs, hua⟩ := exists_trim_append u
  obtain ⟨s', b, hs', hb, hvb⟩ := exists_trim_append v
  -- the piece has no blanks at its ends, so none stand before the first side or behind the second
  have ha : a = [] := by
    cases a with
    | nil => rfl
    | cons c a =>
      have hc : isBlank c = false := hp.head c (by rw [hjoin, hua]; rfl)
      simp [ha c (by simp)] at hc
  have hb : b = [] := by
    rcases List.eq_nil_or_concat' b with rfl | ⟨b, c, rfl⟩
    · rfl
    · have hc : isBlank c = false := by
        refine hp.last c ?_
        rw [hjoin, hvb]
        simp [← List.append_assoc]
      simp [hb c (by simp)] at hc
  subst ha hb
  rw [List.nil_append] at hua
  rw [List.append_nil] at hvb
  rw [hua] at hu
  rw [hvb] at hv
  refine ⟨⟨hx, hy⟩, ⟨fun hm ↦ hu (by simp [hm]), fun hm ↦ hv (by simp [hm])⟩,
    ⟨trimmed_trim u, trimmed_trim v⟩, s, s', hs, hs', ?_⟩
  rw [hjoin, ← hua, ← hvb, List.append_assoc]
  rfl

theorem Writes.not_sides (h : Writes piece n) : ¬ Sides piece x y :=
  fun hs ↦ h.dash_not_mem hs.dash_mem

theorem Names.unique {m' n' : Int} (h : Names cells piece m n) (h' : Names cells piece m' n') :
    m = m' ∧ n = n' := by
  cases h with
  | single hw =>
    cases h' with
    | single hw' => exact ⟨hw.unique hw', hw.unique hw'⟩
    | range hs => exact absurd hs hw.not_sides
  | range hs hx hy =>
    cases h' with
    | single hw => exact absurd hs hw.not_sides
    | range hs' hx' hy' =>
      obtain ⟨rfl, rfl⟩ := hs.unique hs'
      obtain rfl := hx.unique hx'
      obtain rfl := hy.unique hy'
      exact ⟨rfl, rfl⟩

inductive Outcome (cells : Int) (piece : Text) : Except Overrun Parts → Prop
  | stops (f : Overrun) : Stops cells piece → Outcome cells piece (.error f)
  | named {m n : Int} : ¬ Stops cells piece → Names cells piece m n →
      Outcome cells piece (.ok (.ok (upTo m n)))
  | faulty (f : Fault) : ¬ Stops cells piece → ¬ IsNamed cells piece →
      Outcome cells piece (.ok (.error f))

theorem Stops.of_writes (hs : Stops cells piece) (hw : Writes piece n) (hl : ¬ Long piece) :
    1 ≤ n ∧ cells < n ∧ ¬ Short cells := by
  cases hs with
  | long hl' => exact absurd hl' hl
  | single hw' hlow hhigh hc => exact hw.unique hw' ▸ ⟨hlow, hhigh, hc⟩
  | longSide hs | range hs | items hs => exact absurd hs hw.not_sides

theorem IsNamed.of_writes (hs : IsNamed cells piece) (hw : Writes piece n) : 1 ≤ n ∧ n ≤ cells := by
  obtain ⟨_, _, hs⟩ := hs
  cases hs with
  | single hw' hlow hhigh => exact hw.unique hw' ▸ ⟨hlow, hhigh⟩
  | range hs => exact absurd hs hw.not_sides

theorem Stops.of_sides (hs : Stops cells piece) (h : Sides piece x y) (hx : ¬ Long x)
    (hy : ¬ Long y) : ∃ m n, Writes x m ∧ Writes y n ∧ 1 ≤ m ∧ m ≤ n ∧
      (cells < m ∧ ¬ Short cells ∨ m ≤ cells ∧ itemLimit ≤ min n cells + 1 - m) := by
  cases hs with
  | long hl => exact hl.writes.elim fun _ hw ↦ absurd h hw.not_sides
  | single hw => exact absurd h hw.not_sides
  | longSide hs hl =>
    obtain ⟨rfl, rfl⟩ := h.unique hs
    exact absurd hl (not_or.2 ⟨hx, hy⟩)
  | range hs hm hn hlow hend hstart hc =>
    obtain ⟨rfl, rfl⟩ := h.unique hs
    exact ⟨_, _, hm, hn, hlow, hend, .inl ⟨hstart, hc⟩⟩
  | items hs hm hn hlow hend hstart hitems =>
    obtain ⟨rfl, rfl⟩ := h.unique hs
    exact ⟨_, _, hm, hn, hlow, hend, .inr ⟨hstart, hitems⟩⟩

theorem IsNamed.of_sides (hs : IsNamed cells piece) (h : Sides piece x y) :
    ∃ m n, Writes x m ∧ Writes y n ∧ 1 ≤ m ∧ m ≤ n ∧ m ≤ cells := by
  obtain ⟨_, _, hs⟩ := hs
  cases hs with
  | single hw => exact absurd h hw.not_sides
  | range hs hm hn hlow hend hstart =>
    obtain ⟨rfl, rfl⟩ := h.unique hs
    exact ⟨_, _, hm, hn, hlow, hend, hstart⟩

theorem outcome_of_neither (hw : ∀ n, ¬ Writes piece n) (hs : ∀ x y, ¬ Sides piece x y)
    (f : Fault) : Outcome cells piece (.ok (.error f)) := by
  refine .faulty f (fun h ↦ ?_) fun ⟨_, _, h⟩ ↦ ?_
  · cases h with
    | long hl => exact hl.writes.elim hw
    | single h => exact hw _ h
    | longSide h | range h | items h => exact hs _ _ h
  · cases h with
    | single h => exact hw _ h
    | range h => exact hs _ _ h

theorem outcome_of_unread (h : Sides piece x y) (hx : ¬ Long x) (hy : ¬ Long y)
    (hno : ∀ m n, Writes x m → ¬ Writes y n) (f : Fault) :
    Outcome cells piece (.ok (.error f)) := by
  refine .faulty f (fun hs ↦ ?_) fun hs ↦ ?_
  · obtain ⟨m, n, hm, hn, -⟩ := hs.of_sides h hx hy
    exact hno m n hm hn
  · obtain ⟨m, n, hm, hn, -⟩ := hs.of_sides h
    exact hno m n hm hn

theorem outcome_of_writes (hw : Writes piece n) (hl : ¬ Long piece) : Outcome cells piece
    (if n < 1 then .ok (.error .belowOne)
      else if cells < n then (writeInt cells).map fun t ↦ .error (.beyond t)
      else .ok (.ok [n])) := by
  have hstops (hs : Stops cells piece) := hs.of_writes hw hl
  have hnames (hs : IsNamed cells piece) := hs.of_writes hw
  split
  next hlow =>
    exact .faulty _ (fun hs ↦ by have := hstops hs; omega) fun hs ↦ by have := hnames hs; omega
  split
  next hhigh =>
    by_cases hc : Short cells
    · rw [writeInt_of_short hc]
      exact .faulty _ (fun hs ↦ (hstops hs).2.2 hc) fun hs ↦ by have := hnames hs; omega
    · obtain ⟨e, he⟩ := exists_writeInt_error.2 hc
      rw [he]
      exact .stops _ (.single hw (by omega) hhigh hc)
  next hhigh =>
    rw [← upTo_self]
    exact .named (fun hs ↦ by have := hstops hs; omega) (.single hw (by omega) (by omega))

theorem outcome_single (h : '-' ∉ piece) : Outcome cells piece (single piece cells) := by
  unfold single
  rcases number?_cases h with ⟨hl, hn⟩ | ⟨n, hw, hl, hn⟩ | ⟨hno, hn⟩
  · rw [hn]
    exact .stops _ (.long hl)
  · rw [hn]
    exact outcome_of_writes hw hl
  · rw [hn]
    exact outcome_of_neither hno (fun x y hs ↦ h hs.dash_mem) _

/-- The reading of a piece whose sides are read. -/
theorem outcome_of_sides (h : Sides piece x y) (hx : ¬ Long x) (hy : ¬ Long y) (hm : Writes x m)
    (hn : Writes y n) : Outcome cells piece
      (if m < 1 then .ok (.error .rangeStartBelowOne)
        else if n < m then .ok (.error .rangeEndBelowStart)
        else if cells < m then (writeInt cells).map fun t ↦ .error (.rangeStartBeyond t)
        else (listUpTo m (min n cells)).map .ok) := by
  have hstops (hs : Stops cells piece) : 1 ≤ m ∧ m ≤ n ∧
      (cells < m ∧ ¬ Short cells ∨ m ≤ cells ∧ itemLimit ≤ min n cells + 1 - m) := by
    obtain ⟨m', n', hm', hn', hs⟩ := hs.of_sides h hx hy
    exact hm.unique hm' ▸ hn.unique hn' ▸ hs
  have hnames (hs : IsNamed cells piece) : 1 ≤ m ∧ m ≤ n ∧ m ≤ cells := by
    obtain ⟨m', n', hm', hn', hs⟩ := hs.of_sides h
    exact hm.unique hm' ▸ hn.unique hn' ▸ hs
  split
  next hlow =>
    exact .faulty _ (fun hs ↦ by have := hstops hs; omega) fun hs ↦ by have := hnames hs; omega
  split
  next hend =>
    exact .faulty _ (fun hs ↦ by have := hstops hs; omega) fun hs ↦ by have := hnames hs; omega
  split
  next hstart =>
    by_cases hc : Short cells
    · rw [writeInt_of_short hc]
      refine .faulty _ (fun hs ↦ ?_) fun hs ↦ by have := hnames hs; omega
      rcases (hstops hs).2.2 with ⟨-, hlong⟩ | ⟨hin, -⟩
      · exact hlong hc
      · omega
    · obtain ⟨e, he⟩ := exists_writeInt_error.2 hc
      rw [he]
      exact .stops _ (.range h hm hn (by omega) (by omega) hstart hc)
  next hstart =>
    rw [listUpTo]
    split
    next hitems => exact .stops _ (.items h hm hn (by omega) (by omega) (by omega) hitems)
    next hitems =>
      refine .named (fun hs ↦ ?_) (.range h hm hn (by omega) (by omega) (by omega))
      rcases (hstops hs).2.2 with ⟨hout, -⟩ | ⟨-, hmany⟩
      · omega
      · exact hitems hmany

theorem outcome_range (hp : Trimmed piece) (h : '-' ∈ piece) :
    Outcome cells piece (range piece cells) := by
  have hwrites (k : Int) : ¬ Writes piece k := fun hw ↦ hw.dash_not_mem h
  unfold range
  split
  next x y hcut =>
    split
    next hempty =>
      refine outcome_of_neither hwrites (fun u v hs ↦ ?_) _
      have hsame := (map_trim_cut_of_sides hs).symm.trans hcut
      obtain ⟨rfl, rfl⟩ : u = x ∧ v = y := by simpa using hsame
      simp [hs.ne_nil] at hempty
    next hne =>
      simp only [Bool.or_eq_true, List.isEmpty_iff, not_or] at hne
      have hs := sides_of_map_trim_cut hp hne.1 hne.2 hcut
      have hshort {u : Text} (hu : ∀ n, ¬ Writes u n) : ¬ Long u := fun hl ↦ hl.writes.elim hu
      rcases number?_cases hs.dash_not_mem.1 with ⟨hl, hx⟩ | ⟨m, hm, hl, hx⟩ | ⟨hm, hx⟩
      · rw [hx]
        exact .stops _ (.longSide hs (.inl hl))
      · rw [hx]
        rcases number?_cases hs.dash_not_mem.2 with ⟨hl', hy⟩ | ⟨n, hn, hl', hy⟩ | ⟨hn, hy⟩
        · rw [hy]
          exact .stops _ (.longSide hs (.inr hl'))
        · rw [hy]
          exact outcome_of_sides hs hl hl' hm hn
        · rw [hy]
          exact outcome_of_unread hs hl (hshort hn) (fun _ n _ ↦ hn n) _
      · rw [hx]
        rcases number?_cases hs.dash_not_mem.2 with ⟨hl', hy⟩ | ⟨n, hn, hl', hy⟩ | ⟨hn, hy⟩
        · rw [hy]
          exact .stops _ (.longSide hs (.inr hl'))
        · rw [hy]
          exact outcome_of_unread hs (hshort hm) hl' (fun m _ hw ↦ absurd hw (hm m)) _
        · rw [hy]
          exact outcome_of_unread hs (hshort hm) (hshort hn) (fun m _ hw ↦ absurd hw (hm m)) _
  next hother =>
    exact outcome_of_neither hwrites (fun u v hs ↦ hother u v (map_trim_cut_of_sides hs)) _

theorem outcome_parts (cells : Int) (hp : Trimmed piece) :
    Outcome cells piece (parts piece cells) := by
  unfold parts
  split
  next h => exact outcome_range hp (by simpa using h)
  next h => exact outcome_single (by simpa using h)

theorem exists_parts_error (hp : Trimmed piece) :
    (∃ f, parts piece cells = .error f) ↔ Stops cells piece := by
  have h := outcome_parts cells hp
  generalize parts piece cells = r at *
  cases h with
  | stops f hs => simpa using hs
  | named hs | faulty _ hs => simpa using hs

/-- A piece that is read gives the parts that it names. -/
theorem parts_eq_ok_ok (hp : Trimmed piece) {ns : List Int} :
    parts piece cells = .ok (.ok ns) ↔
      ¬ Stops cells piece ∧ ∃ m n, Names cells piece m n ∧ ns = upTo m n := by
  have h := outcome_parts cells hp
  generalize parts piece cells = r at *
  cases h with
  | stops f hs => simp [hs]
  | named hs hn =>
    constructor
    · rintro ⟨⟩
      exact ⟨hs, _, _, hn, rfl⟩
    · rintro ⟨-, m, n, hn', rfl⟩
      obtain ⟨rfl, rfl⟩ := hn.unique hn'
      rfl
  | faulty f hs hno =>
    constructor
    · rintro ⟨⟩
    · rintro ⟨-, m, n, hn, -⟩
      exact absurd ⟨m, n, hn⟩ hno

theorem exists_parts_ok_error (hp : Trimmed piece) :
    (∃ f, parts piece cells = .ok (.error f)) ↔ ¬ Stops cells piece ∧ ¬ IsNamed cells piece := by
  have h := outcome_parts cells hp
  generalize parts piece cells = r at *
  cases h with
  | stops f hs => simp [hs]
  | named hs hn =>
    simp only [Except.ok.injEq, reduceCtorEq, exists_false, false_iff, not_and, not_not]
    exact fun _ ↦ ⟨_, _, hn⟩
  | faulty f hs hno => simp [hs, hno]

theorem trimmed_of_mem_pieces (h : piece ∈ pieces t) : Trimmed piece := by
  obtain ⟨u, -, rfl⟩ := List.mem_map.1 (List.mem_filter.1 h).1
  exact trimmed_trim u

theorem Names.bounds {k : Int} (h : Names cells piece m n) (hm : m ≤ k) (hn : k ≤ n) :
    1 ≤ k ∧ k ≤ cells := by
  cases h with
  | single => omega
  | range => omega

end Pieces

section Ordered

theorem mem_insert {k : Int} {ns : List Int} : k ∈ insert n ns ↔ k = n ∨ k ∈ ns := by
  induction ns with
  | nil => simp [insert]
  | cons m ns ih =>
    rw [insert]
    split
    next => simp
    next =>
      split
      next h => simp [h]
      next => simp only [List.mem_cons, ih, or_left_comm]

theorem mem_ordered {k : Int} {ns : List Int} : k ∈ ordered ns ↔ k ∈ ns := by
  induction ns with
  | nil => simp [ordered]
  | cons n ns ih =>
    have hstep : ordered (n :: ns) = insert n (ordered ns) := rfl
    rw [hstep, mem_insert, ih, List.mem_cons]

theorem pairwise_insert {ns : List Int} (h : ns.Pairwise (· < ·)) :
    (insert n ns).Pairwise (· < ·) := by
  induction ns with
  | nil => simp [insert]
  | cons m ns ih =>
    obtain ⟨hm, hns⟩ := List.pairwise_cons.1 h
    rw [insert]
    split
    next hlt =>
      refine List.pairwise_cons.2 ⟨fun k hk ↦ ?_, h⟩
      rcases List.mem_cons.1 hk with rfl | hk
      · exact hlt
      · exact Int.lt_trans hlt (hm k hk)
    next hle =>
      split
      next => exact h
      next hne =>
        refine List.pairwise_cons.2 ⟨fun k hk ↦ ?_, ih hns⟩
        rcases mem_insert.1 hk with rfl | hk
        · omega
        · exact hm k hk

theorem pairwise_ordered (ns : List Int) : (ordered ns).Pairwise (· < ·) := by
  induction ns with
  | nil => exact .nil
  | cons n ns ih => exact pairwise_insert ih

end Ordered

section Readings

/-- What is read of a text is what is read of each piece. -/
theorem read_eq_ok {ps : List (Text × Parts)} (h : read t cells = .ok ps) :
    ps.map Prod.fst = pieces t ∧ ∀ p ∈ ps, Trimmed p.1 ∧ parts p.1 cells = .ok p.2 := by
  have hall := mapM_eq_ok.1 h
  have hpair {p : Text} {q : Text × Parts} (hq : (parts p cells).map (p, ·) = .ok q) :
      p = q.1 ∧ parts p cells = .ok q.2 := by
    obtain ⟨r, hr, rfl⟩ := map_eq_ok.1 hq
    exact ⟨rfl, hr⟩
  have hfst : ps.map Prod.fst = pieces t := by
    refine List.forall₂_eq_eq_eq ▸ ?_
    rw [List.forall₂_map_left_iff]
    exact hall.flip.imp fun _ _ hq ↦ (hpair hq).1.symm
  refine ⟨hfst, fun p hp ↦ ⟨trimmed_of_mem_pieces (hfst ▸ List.mem_map_of_mem hp), ?_⟩⟩
  rw [← hfst, List.forall₂_map_left_iff, List.forall₂_same] at hall
  exact (hpair (hall p hp)).2

theorem exists_parse_error :
    (∃ f, parse t cells = .error f) ↔ ∃ p ∈ pieces t, Stops cells p := by
  rw [parse, exists_map_error, read, exists_mapM_error]
  refine exists_congr fun p ↦ and_congr_right fun hp ↦ ?_
  rw [exists_map_error, exists_parts_error (trimmed_of_mem_pieces hp)]

theorem parse_eq_ok {r : Reading} (h : parse t cells = .ok r) :
    ∃ ps, read t cells = .ok ps ∧ r = .ofPieces ps := by
  obtain ⟨ps, hps, rfl⟩ := map_eq_ok.1 h
  exact ⟨ps, hps, rfl⟩

variable {r : Reading}

theorem mem_skipped (h : parse t cells = .ok r) {k : Int} :
    k ∈ r.skipped ↔ ∃ p ∈ pieces t, ∃ m n, Names cells p m n ∧ m ≤ k ∧ k ≤ n := by
  obtain ⟨ps, hps, rfl⟩ := parse_eq_ok h
  obtain ⟨hfst, hparts⟩ := read_eq_ok hps
  rw [Reading.ofPieces, mem_ordered, List.mem_flatMap, ← hfst]
  constructor
  · rintro ⟨⟨p, q⟩, hp, hk⟩
    refine ⟨p, List.mem_map_of_mem hp, ?_⟩
    dsimp only at hk
    split at hk
    next ns =>
      obtain ⟨htrim, hns⟩ := hparts _ hp
      obtain ⟨-, m, n, hnames, rfl⟩ := (parts_eq_ok_ok htrim).1 hns
      exact ⟨m, n, hnames, mem_upTo.1 hk⟩
    next => simp at hk
  · rintro ⟨p, hp, m, n, hnames, hk⟩
    obtain ⟨⟨p, q⟩, hq, rfl⟩ := List.mem_map.1 hp
    refine ⟨_, hq, ?_⟩
    obtain ⟨htrim, hq⟩ := hparts _ hq
    have hstop : ¬ Stops cells p := fun hs ↦ by
      obtain ⟨f, hf⟩ := (exists_parts_error htrim).2 hs
      rw [hq] at hf
      cases hf
    have hns := (parts_eq_ok_ok htrim).2 ⟨hstop, m, n, hnames, rfl⟩
    obtain rfl := Except.ok.inj (hq.symm.trans hns)
    exact mem_upTo.2 hk

theorem mem_skipped_bounds (h : parse t cells = .ok r) {k : Int} (hk : k ∈ r.skipped) :
    1 ≤ k ∧ k ≤ cells := by
  obtain ⟨p, -, m, n, hnames, hm, hn⟩ := (mem_skipped h).1 hk
  exact hnames.bounds hm hn

theorem pairwise_skipped (h : parse t cells = .ok r) : r.skipped.Pairwise (· < ·) := by
  obtain ⟨ps, -, rfl⟩ := parse_eq_ok h
  exact pairwise_ordered _

theorem isNamed_iff {p : Text × Parts} (ht : Trimmed p.1) (h : parts p.1 cells = .ok p.2) :
    IsNamed cells p.1 ↔ ∃ ns, p.2 = .ok ns := by
  obtain ⟨p, q⟩ := p
  cases q with
  | ok ns =>
    obtain ⟨-, m, n, hnames, -⟩ := (parts_eq_ok_ok ht).1 h
    exact ⟨fun _ ↦ ⟨ns, rfl⟩, fun _ ↦ ⟨m, n, hnames⟩⟩
  | error f =>
    have hno := ((exists_parts_ok_error ht).1 ⟨f, h⟩).2
    simpa using hno

theorem fault?_eq_none_iff (h : parse t cells = .ok r) :
    r.fault? = none ↔ ∀ p ∈ pieces t, IsNamed cells p := by
  obtain ⟨ps, hps, rfl⟩ := parse_eq_ok h
  obtain ⟨hfst, hparts⟩ := read_eq_ok hps
  rw [Reading.ofPieces, List.findSome?_eq_none_iff, ← hfst, List.forall_mem_map]
  refine forall₂_congr fun p hp ↦ ?_
  rw [isNamed_iff (hparts p hp).1 (hparts p hp).2]
  obtain ⟨p, q⟩ := p
  cases q <;> simp

theorem exists_of_fault? (h : parse t cells = .ok r) {f : Fault} (hf : r.fault? = some (piece, f)) :
    ∃ before after, pieces t = before ++ piece :: after ∧ (∀ p ∈ before, IsNamed cells p) ∧
      ¬ IsNamed cells piece := by
  obtain ⟨ps, hps, rfl⟩ := parse_eq_ok h
  obtain ⟨hfst, hparts⟩ := read_eq_ok hps
  obtain ⟨before, ⟨p, q⟩, after, rfl, hp, hbefore⟩ := List.findSome?_eq_some_iff.1 hf
  have hnamed (x : Text × Parts) (hx : x ∈ before ++ (p, q) :: after) :=
    isNamed_iff (hparts x hx).1 (hparts x hx).2
  cases q with
  | ok ns => cases hp
  | error g =>
    obtain ⟨rfl, rfl⟩ : p = piece ∧ g = f := by simpa using hp
    refine ⟨before.map Prod.fst, after.map Prod.fst, by simpa using hfst.symm, ?_, ?_⟩
    · rintro x hx
      obtain ⟨y, hy, rfl⟩ := List.mem_map.1 hx
      rw [hnamed y (by simp [hy])]
      have hnone := hbefore y hy
      cases hparts : y.2 with
      | ok ns => exact ⟨ns, rfl⟩
      | error g => simp [hparts] at hnone
    · rw [hnamed (p, .error g) (by simp)]
      simp

theorem firstMessage?_eq {ps : List (Text × Parts)} (h : ∀ p ∈ ps, parts p.1 cells = .ok p.2) :
    firstMessage? cells (ps.map Prod.fst) =
      .ok ((Reading.ofPieces ps).fault?.map fun (p, f) ↦ f.message p) := by
  induction ps with
  | nil => rfl
  | cons p ps ih =>
    obtain ⟨p, q⟩ := p
    rw [List.map_cons, firstMessage?, h (p, q) (by simp)]
    cases q with
    | ok ns => exact ih fun p hp ↦ h p (by simp [hp])
    | error f => rfl

theorem message?_eq (h : parse t cells = .ok r) :
    message? t cells = .ok (r.fault?.map fun (p, f) ↦ f.message p) := by
  obtain ⟨ps, hps, rfl⟩ := parse_eq_ok h
  obtain ⟨hfst, hparts⟩ := read_eq_ok hps
  rw [message?, ← hfst]
  exact firstMessage?_eq fun p hp ↦ (hparts p hp).2

theorem exists_firstMessage?_error {ps : List Text} (h : ∀ p ∈ ps, Trimmed p) :
    (∃ f, firstMessage? cells ps = .error f) ↔ ∃ before p after, ps = before ++ p :: after ∧
      (∀ q ∈ before, IsNamed cells q ∧ ¬ Stops cells q) ∧ Stops cells p := by
  induction ps with
  | nil => simp [firstMessage?]
  | cons p ps ih =>
    have hp := h p (by simp)
    have ih := ih fun q hq ↦ h q (by simp [hq])
    rw [firstMessage?]
    cases hread : parts p cells with
    | error f =>
      have hs := (exists_parts_error hp).1 ⟨f, hread⟩
      exact ⟨fun _ ↦ ⟨[], p, ps, rfl, by simp, hs⟩, fun _ ↦ ⟨f, rfl⟩⟩
    | ok q =>
      have hgo : ¬ Stops cells p := fun hs ↦ by
        obtain ⟨f, hf⟩ := (exists_parts_error hp).2 hs
        rw [hread] at hf
        cases hf
      have hnamed := isNamed_iff (p := (p, q)) hp hread
      cases q with
      | error f =>
        have hno : ¬ IsNamed cells p := by simpa using hnamed
        constructor
        · rintro ⟨_, h⟩
          cases h
        rintro ⟨before, x, after, heq, hbefore, hx⟩
        cases before with
        | nil => exact absurd ((List.cons.inj heq).1 ▸ hx) hgo
        | cons y before => exact absurd ((List.cons.inj heq).1 ▸ (hbefore y (by simp)).1) hno
      | ok ns =>
        have hyes : IsNamed cells p := hnamed.2 ⟨ns, rfl⟩
        refine ih.trans ⟨?_, ?_⟩
        · rintro ⟨before, x, after, rfl, hbefore, hx⟩
          exact ⟨p :: before, x, after, rfl,
            List.forall_mem_cons.2 ⟨⟨hyes, hgo⟩, hbefore⟩, hx⟩
        · rintro ⟨before, x, after, heq, hbefore, hx⟩
          cases before with
          | nil => exact absurd ((List.cons.inj heq).1 ▸ hx) hgo
          | cons y before =>
            exact ⟨before, x, after, (List.cons.inj heq).2, fun q hq ↦ hbefore q (by simp [hq]), hx⟩

theorem exists_message?_error : (∃ f, message? t cells = .error f) ↔
    ∃ before p after, pieces t = before ++ p :: after ∧
      (∀ q ∈ before, IsNamed cells q ∧ ¬ Stops cells q) ∧ Stops cells p :=
  exists_firstMessage?_error fun _ ↦ trimmed_of_mem_pieces

/-- The reader of skip texts fails just on texts with a piece that cannot be read to its end. In all
others no fault is found just if every piece names parts; in any case exactly the parts named by
pieces are skipped, all of them parts of the grid; a fault is that of the first piece that names
nothing, and the message is about it. To find the message only the pieces up to that one are read. -/
theorem reads_pieces (t : Text) (cells : Int) :
    ((∃ f, parse t cells = .error f) ↔ ∃ p ∈ pieces t, Stops cells p) ∧
      ((∃ f, message? t cells = .error f) ↔ ∃ before p after, pieces t = before ++ p :: after ∧
        (∀ q ∈ before, IsNamed cells q ∧ ¬ Stops cells q) ∧ Stops cells p) ∧
      ∀ r, parse t cells = .ok r →
        (r.fault? = none ↔ ∀ p ∈ pieces t, IsNamed cells p) ∧
          (∀ k, k ∈ r.skipped ↔ ∃ p ∈ pieces t, ∃ m n, Names cells p m n ∧ m ≤ k ∧ k ≤ n) ∧
          r.skipped.Pairwise (· < ·) ∧ (∀ k ∈ r.skipped, 1 ≤ k ∧ k ≤ cells) ∧
          (∀ p f, r.fault? = some (p, f) →
            ∃ before after, pieces t = before ++ p :: after ∧ (∀ q ∈ before, IsNamed cells q) ∧
              ¬ IsNamed cells p) ∧
          message? t cells = .ok (r.fault?.map fun (p, f) ↦ f.message p) := by
  refine ⟨exists_parse_error, exists_message?_error, fun r h ↦ ?_⟩
  exact ⟨fault?_eq_none_iff h, fun k ↦ mem_skipped h, pairwise_skipped h,
    fun k ↦ mem_skipped_bounds h, fun p f ↦ exists_of_fault? h, message?_eq h⟩

def mixed : Text := "8-12,, 2 - 4 ,+3, 4-5, x".toList

theorem reads_pieces_mixed : ∃ r, parse mixed 10 = .ok r ∧ r.skipped = [2, 3, 4, 5, 8, 9, 10] ∧
    message? mixed 10 = .ok (some "Invalid number: x".toList) ∧
    ¬ ∀ p ∈ pieces mixed, IsNamed 10 p := by
  have hread : parse mixed 10 = .ok ⟨[2, 3, 4, 5, 8, 9, 10], some (['x'], .number)⟩ := by decide
  obtain ⟨hnone, -, -, -, -, hmessage⟩ := (reads_pieces mixed 10).2.2 _ hread
  refine ⟨_, hread, rfl, hmessage, fun hall ↦ ?_⟩
  cases hnone.2 hall

def AlwaysReads : Prop := ∀ t cells, ∃ r, parse t cells = .ok r ∧
  (r.fault? = none ↔ ∀ p ∈ pieces t, IsNamed cells p)

def tooLong : Text := List.replicate 5000 '1'

theorem tooLong_ne_nil : tooLong ≠ [] := by
  rw [tooLong, Ne, List.replicate_eq_nil_iff]
  decide

theorem long_tooLong : Long tooLong := by
  have hdigits : ∀ c ∈ tooLong, isDigit c = true := by
    intro c hc
    rw [List.eq_of_mem_replicate hc]
    decide
  refine ⟨⟨_, .plain tooLong_ne_nil hdigits⟩, ?_⟩
  rw [List.filter_eq_self.2 hdigits, tooLong, List.length_replicate]
  decide

theorem not_alwaysReads : ¬ AlwaysReads := by
  intro h
  obtain ⟨r, hr, -⟩ := h tooLong 10
  have hcomma : ',' ∉ tooLong := by
    intro hc
    exact absurd (List.eq_of_mem_replicate hc) (by decide)
  have htrim : Trimmed tooLong := long_tooLong.writes.elim fun _ hw ↦ hw.trimmed
  have hpiece : tooLong ∈ pieces tooLong := by
    rw [pieces, cut_of_not_mem hcomma, List.map_singleton, htrim.trim_eq]
    simpa using tooLong_ne_nil
  obtain ⟨f, hf⟩ := exists_parse_error.2 ⟨_, hpiece, .long long_tooLong⟩
  rw [hr] at hf
  cases hf

end Readings

end StepAndRepeat.SkipText
