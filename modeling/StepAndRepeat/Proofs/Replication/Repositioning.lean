import StepAndRepeat.Proofs.Replication.Labels

namespace StepAndRepeat

section Since

variable {P Q : Nat → Prop} {n : Nat}

def Since (P Q : Nat → Prop) (n : Nat) : Prop := ∃ k < n, P k ∧ ∀ m, k < m → m < n → Q m

theorem not_since_zero : ¬ Since P Q 0 := by
  rintro ⟨k, hk, -⟩
  exact Nat.not_lt_zero k hk

theorem since_succ : Since P Q (n + 1) ↔ P n ∨ Q n ∧ Since P Q n := by
  constructor
  · rintro ⟨k, hk, hP, hQ⟩
    rcases Nat.lt_succ_iff_lt_or_eq.1 hk with hlt | rfl
    · exact .inr ⟨hQ n hlt n.lt_succ_self, k, hlt, hP, fun m hm hn ↦ hQ m hm (by omega)⟩
    · exact .inl hP
  · rintro (hP | ⟨hQ, k, hk, hP, hrest⟩)
    · exact ⟨n, n.lt_succ_self, hP, fun m hm hn ↦ by omega⟩
    · refine ⟨k, by omega, hP, fun m hm hn ↦ ?_⟩
      rcases Nat.lt_succ_iff_lt_or_eq.1 hn with hlt | rfl
      · exact hrest m hm hlt
      · exact hQ

end Since

structure Feed (α : Type) where
  copy : Copy α
  leaveOut : Bool

variable {α : Type} [Coordinate α]

namespace Feed

variable (f : Feed α)

def isLabel : Bool := !f.leaveOut && f.copy.line.isComment && Label.isLabel f.copy.text

def isStart : Bool := !f.leaveOut && f.copy.line.isOperationStart

def isRetract : Bool := f.copy.line.isCode && f.copy.line.isMachineMove

/-- Code that is heeded. What is left out is heeded only as a retract. -/
def isHeeded : Bool := f.copy.line.isCode && (!f.leaveOut || f.copy.line.isMachineMove)

theorem isHeeded_of_isRetract {f : Feed α} (h : f.isRetract = true) : f.isHeeded = true := by
  simp only [isRetract, Bool.and_eq_true] at h
  simp [isHeeded, h]

end Feed

namespace Line.IsRead

variable {l : Line α}

theorem isCode_of_words_ne_nil (hl : l.IsRead) (h : l.words ≠ []) : l.isCode = true := by
  rw [isCode_iff, hl.kind_eq]
  by_contra hk
  exact h (by rw [(readAt_fields hl).2.2.2, if_neg hk])

theorem isCode_of_has (hl : l.IsRead) {c : Char} {n : Nat} (h : l.has c n = true) :
    l.isCode = true := by
  refine hl.isCode_of_words_ne_nil fun hw ↦ ?_
  simp [has, hw] at h

theorem isCode_of_isMachineMove (hl : l.IsRead) (h : l.isMachineMove = true) :
    l.isCode = true := hl.isCode_of_has h

theorem isCode_of_isOperationStart (hl : l.IsRead) (h : l.isOperationStart = true) :
    l.isCode = true := by
  refine hl.isCode_of_words_ne_nil fun hw ↦ ?_
  simp [isOperationStart, isSpindleStart, has, hw] at h

end Line.IsRead

namespace LabelHold

/-- What a feed does, told apart by what it is: a held label, the start of an operation, a retract,
other code, or none of these. -/
theorem feed_eq (h : LabelHold α) {f : Feed α} (hf : f.copy.line.IsRead) :
    h.feed f.copy f.leaveOut =
      (⟨if f.isLabel && h.afterRetract then some f.copy else if f.isStart then none else h.held,
        if f.isRetract then !(f.isStart && h.held.isSome)
        else !f.isHeeded && h.afterRetract⟩,
      if f.leaveOut || f.isLabel && h.afterRetract then []
      else (if f.isStart then h.held.toList else []) ++ [f.copy]) := by
  obtain ⟨held, afterRetract⟩ := h
  by_cases hcode : f.copy.line.isCode = true
  · have hidle : f.copy.line.isComment = false ∧ f.copy.line.isBlank = false := by
      simp [Line.isComment, Line.isBlank, Line.isCode_iff.1 hcode]
    cases hleave : f.leaveOut with
    | true =>
      cases hmove : f.copy.line.isMachineMove <;>
        simp [feed, Feed.isLabel, Feed.isStart, Feed.isRetract, Feed.isHeeded, hleave, hcode,
          hmove]
    | false =>
      cases held <;> cases hmove : f.copy.line.isMachineMove <;>
        cases hstart : f.copy.line.isOperationStart <;>
        simp [feed, Feed.isLabel, Feed.isStart, Feed.isRetract, Feed.isHeeded, hleave, hcode,
          hmove, hstart, hidle]
  · rw [Bool.not_eq_true] at hcode
    have hmove : f.copy.line.isMachineMove = false :=
      Bool.eq_false_iff.2 fun h ↦ by simp [hf.isCode_of_isMachineMove h] at hcode
    have hstart : f.copy.line.isOperationStart = false :=
      Bool.eq_false_iff.2 fun h ↦ by simp [hf.isCode_of_isOperationStart h] at hcode
    have hidle : (f.copy.line.isComment || f.copy.line.isBlank) = true := by
      cases hk : f.copy.line.kind <;>
        simp [Line.isComment, Line.isBlank, Line.isCode, hk] at hcode ⊢
    cases hleave : f.leaveOut with
    | true =>
      simp [feed, Feed.isLabel, Feed.isStart, Feed.isRetract, Feed.isHeeded, hleave, hcode, hmove]
    | false =>
      have hlabel : (afterRetract && f.copy.line.isComment && Label.isLabel f.copy.text) =
          (f.isLabel && afterRetract) := by
        simp [Feed.isLabel, hleave, Bool.and_comm, Bool.and_left_comm]
      simp only [feed, hmove, hstart, hidle, Bool.or_false, Bool.and_true, hlabel]
      cases held <;> cases hhold : f.isLabel && afterRetract <;>
        simp_all [Feed.isStart, Feed.isRetract, Feed.isHeeded]

def feeds (h : LabelHold α) : List (Feed α) → LabelHold α × List (Copy α)
  | [] => (h, [])
  | f :: fs =>
    let r := h.feed f.copy f.leaveOut
    let t := feeds r.1 fs
    (t.1, r.2 ++ t.2)

theorem feeds_append (h : LabelHold α) (fs gs : List (Feed α)) :
    h.feeds (fs ++ gs) = (((h.feeds fs).1.feeds gs).1,
      (h.feeds fs).2 ++ ((h.feeds fs).1.feeds gs).2) := by
  induction fs generalizing h with
  | nil => rfl
  | cons f fs ih => simp only [List.cons_append, feeds, ih, List.append_assoc]

theorem feeds_singleton (h : LabelHold α) (f : Feed α) :
    h.feeds [f] = h.feed f.copy f.leaveOut := by
  simp only [feeds, List.append_nil]

end LabelHold

def Offset.feeds (o : Offset α) (dropStops : Bool) (m : Modes) (ls : List (Line α)) :
    List (Feed α) :=
  (o.rewrites m ls).map fun c ↦ ⟨c, dropStops && c.line.isSpindleStop⟩

theorem Offset.isRead_feeds (o : Offset α) (dropStops : Bool) (m : Modes) {ls : List (Line α)}
    (hls : ∀ l ∈ ls, l.IsRead) : ∀ f ∈ o.feeds dropStops m ls, f.copy.line.IsRead := by
  intro f hf
  obtain ⟨c, hc, rfl⟩ := List.mem_map.1 hf
  exact hls c.line (o.line_mem hc)

/-- Copying lines feeds them shifted. -/
theorem Replay.run_eq_feeds {o : Offset α} {dropStops : Bool} (r : Replay α) (ls : List (Line α)) :
    ((run o dropStops r ls).1.hold, (run o dropStops r ls).2) =
      r.hold.feeds (o.feeds dropStops r.modes ls) := by
  induction ls generalizing r with
  | nil => rfl
  | cons l ls ih =>
    have hfeeds : o.feeds dropStops r.modes (l :: ls) =
        ⟨⟨l, (o.step r.modes l).2⟩, dropStops && l.isSpindleStop⟩ ::
          o.feeds dropStops (o.step r.modes l).1 ls := rfl
    rw [hfeeds, LabelHold.feeds, run]
    exact congrArg (fun q : LabelHold α × List (Copy α) ↦
      (q.1, (step o dropStops r l).2 ++ q.2)) (ih (step o dropStops r l).1)

section Places

def At (fs : List (Feed α)) (p : Feed α → Bool) (i : Nat) : Prop := ∃ f ∈ fs[i]?, p f = true

variable (fs : List (Feed α))

mutual

/-- A label is held if the last code heeded before it is a retract that releases no label. -/
def IsHeld (i : Nat) : Prop :=
  At fs Feed.isLabel i ∧ ∃ j, ∃ _ : j < i, (At fs Feed.isRetract j ∧ ¬ Releases j) ∧
    ∀ k, j < k → k < i → ¬ At fs Feed.isHeeded k
termination_by i

/-- The start of an operation releases a label if one is held and no operation has begun since. -/
def Releases (j : Nat) : Prop :=
  At fs Feed.isStart j ∧ ∃ i, ∃ _ : i < j, IsHeld i ∧ ∀ k, i < k → k < j → ¬ At fs Feed.isStart k
termination_by j

end

/-- A retract is the last code heeded before a place, and it has released no label. -/
def Retracted : Nat → Prop :=
  Since (fun j ↦ At fs Feed.isRetract j ∧ ¬ Releases fs j) fun k ↦ ¬ At fs Feed.isHeeded k

/-- A label is held before a place, and no operation has begun since. -/
def Waits : Nat → Prop := Since (IsHeld fs) fun k ↦ ¬ At fs Feed.isStart k

/-- A held label names the operation that begins at a place: the first one behind the label, with no
other held label between. -/
def Heads (i j : Nat) : Prop :=
  IsHeld fs i ∧ i < j ∧ At fs Feed.isStart j ∧
    ∀ k, i < k → k < j → ¬ At fs Feed.isStart k ∧ ¬ IsHeld fs k

variable {fs}

theorem isHeld_iff {i : Nat} : IsHeld fs i ↔ At fs Feed.isLabel i ∧ Retracted fs i := by
  rw [IsHeld, Retracted, Since]
  simp only [exists_prop]

theorem releases_iff {j : Nat} : Releases fs j ↔ At fs Feed.isStart j ∧ Waits fs j := by
  rw [Releases, Waits, Since]
  simp only [exists_prop]

omit [Coordinate α] in
theorem at_iff {p : Feed α → Bool} {i : Nat} {f : Feed α} (h : fs[i]? = some f) :
    At fs p i ↔ p f = true := by
  simp [At, h]

omit [Coordinate α] in
theorem At.lt_length {p : Feed α → Bool} {i : Nat} (h : At fs p i) : i < fs.length := by
  obtain ⟨f, hf, -⟩ := h
  exact (List.getElem?_eq_some_iff.1 hf).1

section Waiting

variable (fs)

open Classical in
noncomputable def waiting : Nat → Option Nat
  | 0 => none
  | n + 1 => if IsHeld fs n then some n else if At fs Feed.isStart n then none else waiting n

variable {fs}

theorem waiting_eq_some_iff {n i : Nat} : waiting fs n = some i ↔
    Since (fun k ↦ k = i ∧ IsHeld fs k) (fun k ↦ ¬ At fs Feed.isStart k ∧ ¬ IsHeld fs k) n := by
  induction n with
  | zero => simp [waiting, not_since_zero]
  | succ n ih =>
    rw [since_succ, waiting, ← ih]
    split
    next hheld => simp [hheld]
    next hheld =>
      split
      next hstart => simp [hheld, hstart]
      next hstart => simp [hheld, hstart]

theorem isHeld_of_waiting {n i : Nat} (h : waiting fs n = some i) : IsHeld fs i := by
  obtain ⟨k, -, ⟨rfl, hheld⟩, -⟩ := waiting_eq_some_iff.1 h
  exact hheld

theorem isSome_waiting_iff {n : Nat} : (waiting fs n).isSome = true ↔ Waits fs n := by
  unfold Waits
  induction n with
  | zero => simp [waiting, not_since_zero]
  | succ n ih =>
    rw [since_succ, waiting, ← ih]
    split
    next hheld => simp [hheld]
    next hheld =>
      split
      next hstart => simp [hheld, hstart]
      next hstart => simp [hheld, hstart]

theorem heads_iff {i j : Nat} :
    Heads fs i j ↔ At fs Feed.isStart j ∧ waiting fs j = some i := by
  rw [waiting_eq_some_iff]
  constructor
  · rintro ⟨hheld, hlt, hstart, hbetween⟩
    exact ⟨hstart, i, hlt, ⟨rfl, hheld⟩, hbetween⟩
  · rintro ⟨hstart, k, hlt, ⟨rfl, hheld⟩, hbetween⟩
    exact ⟨hheld, hlt, hstart, hbetween⟩

end Waiting

section Order

variable (fs)

omit [Coordinate α] in
def copyAt (i : Nat) : Option (Copy α) := fs[i]?.map Feed.copy

open Classical in
noncomputable def turn (n : Nat) : List Nat :=
  if At fs Feed.leaveOut n ∨ IsHeld fs n then []
  else (if At fs Feed.isStart n then (waiting fs n).toList else []) ++ [n]

noncomputable def order : List Nat := (List.range fs.length).flatMap (turn fs)

/-- What is remembered at a place: the label that waits, and whether the tool is retracted. -/
structure Remembers (h : LabelHold α) (n : Nat) : Prop where
  held : h.held = (waiting fs n).bind (copyAt fs)
  afterRetract : h.afterRetract = true ↔ Retracted fs n

variable {fs}

theorem Remembers.zero : Remembers fs {} 0 where
  held := rfl
  afterRetract := iff_of_false Bool.false_ne_true not_since_zero

theorem isSome_copyAt {n i : Nat} (h : waiting fs n = some i) :
    (copyAt fs i).isSome = true := by
  obtain ⟨f, hf, -⟩ := (isHeld_iff.1 (isHeld_of_waiting h)).1
  rw [copyAt, Option.mem_def.1 hf]
  rfl

variable {h : LabelHold α} {n : Nat} {f : Feed α}

theorem Remembers.isSome_held (hr : Remembers fs h n) : h.held.isSome = true ↔ Waits fs n := by
  rw [hr.held, ← isSome_waiting_iff]
  cases hw : waiting fs n with
  | none => rfl
  | some i => exact iff_of_true (isSome_copyAt hw) rfl

theorem Remembers.isHeld_iff (hr : Remembers fs h n) (hf : fs[n]? = some f) :
    IsHeld fs n ↔ (f.isLabel && h.afterRetract) = true := by
  rw [StepAndRepeat.isHeld_iff, at_iff hf, Bool.and_eq_true, hr.afterRetract]

theorem Remembers.releases_iff (hr : Remembers fs h n) (hf : fs[n]? = some f) :
    Releases fs n ↔ (f.isStart && h.held.isSome) = true := by
  rw [StepAndRepeat.releases_iff, at_iff hf, Bool.and_eq_true, hr.isSome_held]

theorem Remembers.feed (hr : Remembers fs h n) (hf : fs[n]? = some f)
    (hread : f.copy.line.IsRead) : Remembers fs (h.feed f.copy f.leaveOut).1 (n + 1) := by
  rw [LabelHold.feed_eq h hread]
  constructor
  · dsimp only
    rw [waiting]
    by_cases hheld : IsHeld fs n
    · rw [if_pos hheld, if_pos ((hr.isHeld_iff hf).1 hheld)]
      simp [copyAt, hf]
    · rw [if_neg hheld, if_neg fun h ↦ hheld ((hr.isHeld_iff hf).2 h)]
      by_cases hstart : f.isStart = true
      · rw [if_pos hstart, if_pos ((at_iff hf).2 hstart)]
        rfl
      · rw [if_neg hstart, if_neg fun h ↦ hstart ((at_iff hf).1 h), hr.held]
  · dsimp only
    unfold Retracted
    rw [since_succ, at_iff hf, at_iff hf, hr.releases_iff hf, ← Retracted, ← hr.afterRetract]
    by_cases hretract : f.isRetract = true
    · cases f.isStart <;> simp [hretract, Feed.isHeeded_of_isRetract hretract]
    · simp [hretract]

theorem Remembers.written (hr : Remembers fs h n) (hf : fs[n]? = some f)
    (hread : f.copy.line.IsRead) :
    (h.feed f.copy f.leaveOut).2 = (turn fs n).filterMap (copyAt fs) := by
  rw [LabelHold.feed_eq h hread, turn]
  dsimp only
  have hidle : (At fs Feed.leaveOut n ∨ IsHeld fs n) ↔
      (f.leaveOut || f.isLabel && h.afterRetract) = true := by
    rw [at_iff hf, hr.isHeld_iff hf, Bool.or_eq_true]
  by_cases hi : (f.leaveOut || f.isLabel && h.afterRetract) = true
  · rw [if_pos hi, if_pos (hidle.2 hi)]
    rfl
  · rw [if_neg hi, if_neg fun h ↦ hi (hidle.1 h), List.filterMap_append]
    have hself : [n].filterMap (copyAt fs) = [f.copy] := by simp [copyAt, hf]
    have hlabel : (waiting fs n).toList.filterMap (copyAt fs) = h.held.toList := by
      rw [hr.held]
      cases waiting fs n with
      | none => rfl
      | some i => cases hc : copyAt fs i <;> simp [hc]
    rw [hself]
    by_cases hstart : f.isStart = true
    · rw [if_pos hstart, if_pos ((at_iff hf).2 hstart), hlabel]
    · rw [if_neg hstart, if_neg fun h ↦ hstart ((at_iff hf).1 h)]
      rfl

/-- Feeding the lines before a place writes what their turns say. -/
theorem feeds_take (hread : ∀ f ∈ fs, f.copy.line.IsRead) {n : Nat} (hn : n ≤ fs.length) :
    Remembers fs (LabelHold.feeds {} (fs.take n)).1 n ∧
      (LabelHold.feeds {} (fs.take n)).2 =
        ((List.range n).flatMap (turn fs)).filterMap (copyAt fs) := by
  induction n with
  | zero => exact ⟨.zero, rfl⟩
  | succ n ih =>
    obtain ⟨hr, hw⟩ := ih (Nat.le_of_succ_le hn)
    have hf : fs[n]? = some fs[n] := List.getElem?_eq_getElem hn
    have hl := hread _ (List.getElem_mem hn)
    rw [List.take_add_one, hf, Option.toList_some, LabelHold.feeds_append,
      LabelHold.feeds_singleton]
    refine ⟨hr.feed hf hl, ?_⟩
    rw [hw, hr.written hf hl, List.range_succ, List.flatMap_append, List.filterMap_append,
      List.flatMap_singleton]

theorem feeds_eq_order (hread : ∀ f ∈ fs, f.copy.line.IsRead) :
    (LabelHold.feeds {} fs).2 = (order fs).filterMap (copyAt fs) := by
  have h := (feeds_take hread (le_refl fs.length)).2
  rwa [List.take_length] at h

end Order

section Positions

open Classical in
/-- Places whose lines are written, in an order in which only held labels have moved. -/
structure Repositions (fs : List (Feed α)) (ps : List Nat) : Prop where
  /-- The rest is what is not left out, in its order. -/
  rest : ps.filter (fun i ↦ ¬ IsHeld fs i) =
    (List.range fs.length).filter fun i ↦ ¬ At fs Feed.leaveOut i ∧ ¬ IsHeld fs i
  nodup : ps.Nodup
  held_mem_iff : ∀ i, IsHeld fs i → (i ∈ ps ↔ ∃ j, Heads fs i j)
  before : ∀ i j, Heads fs i j → ∃ as bs, ps = as ++ i :: j :: bs

variable {fs : List (Feed α)} {i j n : Nat}

theorem mem_turn : i ∈ turn fs n ↔
    (¬ At fs Feed.leaveOut n ∧ ¬ IsHeld fs n) ∧ (i = n ∨ Heads fs i n) := by
  rw [heads_iff, turn, ← not_or]
  split
  next hidle => simp [hidle]
  next hidle =>
    rw [and_iff_right hidle, List.mem_append, List.mem_singleton, or_comm]
    split
    next hstart => simp [hstart]
    next hstart => simp [hstart]

theorem Heads.inj_right {k : Nat} (h : Heads fs i j) (h' : Heads fs i k) : j = k := by
  obtain ⟨-, hij, hj, hbefore⟩ := h
  obtain ⟨-, hik, hk, hbefore'⟩ := h'
  rcases lt_trichotomy j k with hlt | heq | hlt
  · exact absurd hj (hbefore' j hij hlt).1
  · exact heq
  · exact absurd hk (hbefore k hik hlt).1

open Classical in
theorem filter_turn (n : Nat) : (turn fs n).filter (fun i ↦ ¬ IsHeld fs i) =
    [n].filter fun i ↦ ¬ At fs Feed.leaveOut i ∧ ¬ IsHeld fs i := by
  rw [turn]
  by_cases hidle : At fs Feed.leaveOut n ∨ IsHeld fs n
  · rw [if_pos hidle, List.filter_cons_of_neg (by simpa [or_iff_not_imp_left] using hidle)]
    rfl
  · have hlabel : (waiting fs n).toList.filter (fun i ↦ ¬ IsHeld fs i) = [] := by
      rw [List.filter_eq_nil_iff]
      intro i hi
      simpa using isHeld_of_waiting (Option.mem_toList.1 hi)
    rw [if_neg hidle, List.filter_append]
    rw [not_or] at hidle
    split
    next =>
      rw [hlabel]
      simp [hidle]
    next => simp [hidle]

theorem not_isHeld_of_isStart (hread : ∀ f ∈ fs, f.copy.line.IsRead)
    (h : At fs Feed.isStart n) : ¬ At fs Feed.leaveOut n ∧ ¬ IsHeld fs n := by
  obtain ⟨f, hf, hstart⟩ := h
  have hl := hread f (List.mem_of_getElem? hf)
  rw [at_iff hf, isHeld_iff, at_iff hf]
  simp only [Feed.isStart, Bool.and_eq_true, Bool.not_eq_true'] at hstart
  have hcomment := hl.not_isComment_of_isOperationStart hstart.2
  simp [Feed.isLabel, hstart.1, hcomment]

open Classical in
theorem filter_turns (n : Nat) :
    ((List.range n).flatMap (turn fs)).filter (fun i ↦ ¬ IsHeld fs i) =
      (List.range n).filter fun i ↦ ¬ At fs Feed.leaveOut i ∧ ¬ IsHeld fs i := by
  induction n with
  | zero => rfl
  | succ n ih =>
    rw [List.range_succ, List.flatMap_append, List.filter_append, List.filter_append, ih,
      List.flatMap_singleton, filter_turn]

theorem nodup_turn (n : Nat) : (turn fs n).Nodup := by
  rw [turn]
  split
  next => exact List.nodup_nil
  next hidle =>
    split
    next =>
      cases hwaiting : waiting fs n with
      | none => simp
      | some i =>
        have hne : i ≠ n := fun h ↦ hidle (.inr (h ▸ isHeld_of_waiting hwaiting))
        simp [hne]
    next => simp

theorem eq_of_mem_turn {m : Nat} (hm : i ∈ turn fs m) (hn : i ∈ turn fs n) : m = n := by
  obtain ⟨⟨-, hnot⟩, hcase⟩ := mem_turn.1 hm
  obtain ⟨⟨-, hnot'⟩, hcase'⟩ := mem_turn.1 hn
  rcases hcase with rfl | hheads <;> rcases hcase' with rfl | hheads'
  · rfl
  · exact absurd hheads'.1 hnot
  · exact absurd hheads.1 hnot'
  · exact hheads.inj_right hheads'

theorem repositions_order (hread : ∀ f ∈ fs, f.copy.line.IsRead) : Repositions fs (order fs) where
  rest := filter_turns fs.length
  nodup := by
    refine List.nodup_flatMap.2 ⟨fun n _ ↦ nodup_turn n, List.nodup_range.imp fun hne ↦ ?_⟩
    exact fun i hm hn ↦ hne (eq_of_mem_turn hm hn)
  held_mem_iff i hi := by
    rw [order, List.mem_flatMap]
    constructor
    · rintro ⟨n, -, hn⟩
      obtain ⟨⟨-, hnot⟩, rfl | hheads⟩ := mem_turn.1 hn
      · exact absurd hi hnot
      · exact ⟨n, hheads⟩
    · rintro ⟨j, hheads⟩
      have hstart := hheads.2.2.1
      exact ⟨j, List.mem_range.2 hstart.lt_length,
        mem_turn.2 ⟨not_isHeld_of_isStart hread hstart, .inr hheads⟩⟩
  before i j hheads := by
    obtain ⟨hstart, hwaiting⟩ := heads_iff.1 hheads
    obtain ⟨as, bs, hrange⟩ := List.append_of_mem (List.mem_range.2 hstart.lt_length)
    have hturn : turn fs j = [i, j] := by
      rw [turn, if_neg (not_or.2 (not_isHeld_of_isStart hread hstart)), if_pos hstart, hwaiting]
      rfl
    refine ⟨as.flatMap (turn fs), bs.flatMap (turn fs), ?_⟩
    rw [order, hrange, List.flatMap_append, List.flatMap_cons, hturn]
    rfl

end Positions

theorem Replay.exists_repositions (o : Offset α) (dropStops : Bool) (m : Modes) {ls : List (Line α)}
    (hls : ∀ l ∈ ls, l.IsRead) :
    ∃ ps, (Replay.lines o dropStops m ls).2 = ps.filterMap (copyAt (o.feeds dropStops m ls)) ∧
      Repositions (o.feeds dropStops m ls) ps := by
  have hread := Offset.isRead_feeds o dropStops m hls
  refine ⟨_, ?_, repositions_order hread⟩
  rw [← feeds_eq_order hread]
  exact congrArg Prod.snd (run_eq_feeds { modes := m } ls)

end Places

inductive LabelState where
  | idle
  | buffering
  deriving DecidableEq

structure Repositioner (α : Type) where
  state : LabelState := .idle
  pending : Option (Copy α) := none
  afterRetract : Bool := false

namespace Repositioner

def feed (r : Repositioner α) (f : Feed α) : Repositioner α × List (Copy α) :=
  let l := f.copy.line
  let r : Repositioner α := { r with afterRetract := r.afterRetract || l.isMachineMove }
  if f.leaveOut then (r, [])
  else if r.afterRetract && l.isComment && Label.isLabel f.copy.text then
    ({ r with state := .buffering, pending := some f.copy }, [])
  else
    let idle := l.isComment || l.isBlank || l.isMachineMove
    if r.state = .buffering ∧ l.isOperationStart = true then
      ({}, r.pending.toList ++ [f.copy])
    else ({ r with afterRetract := r.afterRetract && idle }, [f.copy])

def feeds (r : Repositioner α) : List (Feed α) → Repositioner α × List (Copy α)
  | [] => (r, [])
  | f :: fs =>
    let q := r.feed f
    let t := feeds q.1 fs
    (t.1, q.2 ++ t.2)

def finish (_ : Repositioner α) : Repositioner α := {}

/-- The state tells whether there is a label, and the rest is what a hold remembers. -/
structure Tracks (r : Repositioner α) (h : LabelHold α) : Prop where
  state_iff : r.state = .buffering ↔ r.pending.isSome = true
  held : h.held = r.pending
  afterRetract : h.afterRetract = r.afterRetract

theorem Tracks.feed {r : Repositioner α} {h : LabelHold α} (ht : r.Tracks h) (f : Feed α) :
    (r.feed f).1.Tracks (h.feed f.copy f.leaveOut).1 ∧
      (r.feed f).2 = (h.feed f.copy f.leaveOut).2 := by
  obtain ⟨held, retracted⟩ := h
  obtain ⟨hstate, rfl, rfl⟩ := ht
  unfold Repositioner.feed LabelHold.feed
  dsimp only
  split
  next => exact ⟨⟨hstate, rfl, rfl⟩, rfl⟩
  next =>
    split
    next => exact ⟨⟨by simp, rfl, rfl⟩, rfl⟩
    next =>
      cases hpending : r.pending with
      | none =>
        have hidle : ¬ (r.state = .buffering ∧ f.copy.line.isOperationStart = true) := by
          simp [hstate, hpending]
        rw [hpending] at hstate
        rw [if_neg hidle]
        exact ⟨⟨hstate, rfl, rfl⟩, rfl⟩
      | some label =>
        rw [hpending] at hstate
        have hbuffering : r.state = .buffering := hstate.2 rfl
        dsimp only
        by_cases hstart : f.copy.line.isOperationStart = true
        · rw [if_pos hstart, if_pos ⟨hbuffering, hstart⟩]
          exact ⟨⟨by simp, rfl, rfl⟩, rfl⟩
        · rw [if_neg hstart, if_neg fun h ↦ hstart h.2]
          exact ⟨⟨hstate, rfl, rfl⟩, rfl⟩

theorem Tracks.feeds {r : Repositioner α} {h : LabelHold α} (ht : r.Tracks h)
    (fs : List (Feed α)) :
    (r.feeds fs).1.Tracks (h.feeds fs).1 ∧ (r.feeds fs).2 = (h.feeds fs).2 := by
  induction fs generalizing r h with
  | nil => exact ⟨ht, rfl⟩
  | cons f fs ih =>
    obtain ⟨hstep, hwritten⟩ := ht.feed f
    obtain ⟨hrun, hrest⟩ := ih hstep
    refine ⟨hrun, ?_⟩
    rw [Repositioner.feeds, LabelHold.feeds]
    dsimp only
    rw [hwritten, hrest]

omit [Coordinate α] in
theorem Tracks.empty : ({} : Repositioner α).Tracks {} := ⟨by simp, rfl, rfl⟩

end Repositioner

variable {fs : List (Feed α)}

/-- However copies are fed, each label that is held moves in front of the operation it heads, or is
never written, and all else that is not left out is written in order. A label is kept just while
the bookkeeping says so. -/
theorem Repositioner.repositions_feeds (hread : ∀ f ∈ fs, f.copy.line.IsRead) :
    (∃ ps, (LabelHold.feeds {} fs).2 = ps.filterMap (copyAt fs) ∧ Repositions fs ps) ∧
      (Repositioner.feeds {} fs).2 = (LabelHold.feeds {} fs).2 ∧
      (∀ n, (Repositioner.feeds {} (fs.take n)).1.Tracks (LabelHold.feeds {} (fs.take n)).1) ∧
      (Repositioner.feeds {} fs).1.finish.Tracks (LabelHold.feeds {} fs).1.finish :=
  ⟨⟨order fs, feeds_eq_order hread, repositions_order hread⟩, (Tracks.empty.feeds fs).2,
    fun n ↦ (Tracks.empty.feeds (fs.take n)).1, .empty⟩

section Pocket

def relabelled : Text :=
  "G53 G0 Z0 M5\n(Bore)\n(Pocket)\nG53 G0 Z0 M3\n(Slot)\nM5\nG53 G0 Z0\n(Drill)\nG4 P1".toList

def relabelledCopies : List Text :=
  ["(Pocket)", "G53 G0 Z0 M3", "(Slot)", "G53 G0 Z0", "G4 P1"].map String.toList

def copiesTo (program : Text) (copies : List Text) : Bool :=
  match (Line.readAll program : Except LineFault (List (Line Float))) with
  | .ok ls => (LabelHold.feeds {} (Offset.feeds ⟨10, 0⟩ true {} ls)).2.map Copy.text = copies
  | .error _ => false

theorem copiesTo_relabelled : copiesTo relabelled relabelledCopies = true := by
  decide +kernel

theorem repositions_relabelled :
    ∃ fs : List (Feed Float), (∀ f ∈ fs, f.copy.line.IsRead) ∧
      (LabelHold.feeds {} fs).2.map Copy.text = relabelledCopies ∧
      (∃ ps, (LabelHold.feeds {} fs).2 = ps.filterMap (copyAt fs) ∧ Repositions fs ps) ∧
      ∀ n, (Repositioner.feeds {} (fs.take n)).1.Tracks (LabelHold.feeds {} (fs.take n)).1 := by
  have h := copiesTo_relabelled
  unfold copiesTo at h
  split at h
  next ls hls =>
    have hread := Offset.isRead_feeds ⟨10, 0⟩ true {} (Line.isRead_of_readFrom hls)
    obtain ⟨hps, -, htracks, -⟩ := Repositioner.repositions_feeds hread
    exact ⟨_, hread, of_decide_eq_true h, hps, htracks⟩
  next => cases h

end Pocket

end StepAndRepeat
