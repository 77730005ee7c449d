import StepAndRepeat.Proofs.Json.Numbers
import StepAndRepeat.Proofs.Json.Strings

namespace StepAndRepeat

namespace Json

/-- What a document can hold: no number is too long, all pairs are put together, and no object names a
key twice. -/
inductive Held : Json → Prop
  | null : Held null
  | bool (b : Bool) : Held (bool b)
  | int {n : ℤ} (h : Text.Short n) : Held (int n)
  | num (x : Float) : Held (num x)
  | str {t : CodeText} (h : CodeText.Settled t) : Held (str t)
  | list {vs : List Json} (h : ∀ v ∈ vs, Held v) : Held (list vs)
  | object {ms : List (CodeText × Json)} (hkeys : (ms.map Prod.fst).Nodup)
      (hsettled : ∀ m ∈ ms, CodeText.Settled m.1) (h : ∀ m ∈ ms, Held m.2) : Held (object ms)

theorem held_int_iff {n : ℤ} : Held (int n) ↔ Text.Short n :=
  ⟨fun h ↦ by cases h with | int h => exact h, .int⟩

theorem held_str_iff {t : CodeText} : Held (str t) ↔ CodeText.Settled t :=
  ⟨fun h ↦ by cases h with | str h => exact h, .str⟩

theorem held_list_iff {vs : List Json} : Held (list vs) ↔ ∀ v ∈ vs, Held v :=
  ⟨fun h ↦ by cases h with | list h => exact h, .list⟩

theorem held_object_iff {ms : List (CodeText × Json)} : Held (object ms) ↔
    (ms.map Prod.fst).Nodup ∧ (∀ m ∈ ms, CodeText.Settled m.1) ∧ ∀ m ∈ ms, Held m.2 :=
  ⟨fun h ↦ by cases h with | object hkeys hsettled h => exact ⟨hkeys, hsettled, h⟩,
    fun ⟨hkeys, hsettled, h⟩ ↦ .object hkeys hsettled h⟩

mutual

/-- How many values lie within each other, a scalar aside. -/
def depth : Json → ℕ
  | list vs => itemsDepth vs + 1
  | object ms => membersDepth ms + 1
  | _ => 0

def itemsDepth : List Json → ℕ
  | [] => 0
  | v :: vs => max v.depth (itemsDepth vs)

def membersDepth : List (CodeText × Json) → ℕ
  | [] => 0
  | (_, v) :: ms => max v.depth (membersDepth ms)

end

section Space

variable {s t : Text} {c : Char}

def Blank (s : Text) : Prop := ∀ c ∈ s, isSpace c = true

theorem skipSpace_append (hs : Blank s) (hc : isSpace c = false) (t : Text) :
    skipSpace (s ++ c :: t) = c :: t := by
  refine (Text.span_append hs ?_).2
  rintro d ⟨⟩
  exact hc

theorem blank_newline (indent : Option ℕ) (depth : ℕ) : Blank (newline indent depth) := by
  unfold newline
  cases indent with
  | none => exact fun c hc ↦ absurd hc List.not_mem_nil
  | some n =>
    intro c hc
    rcases List.mem_cons.1 hc with rfl | hc
    · rfl
    · rw [List.eq_of_mem_replicate hc]
      rfl

theorem exists_separator (indent : Option ℕ) (depth : ℕ) :
    ∃ s, separator indent depth = ',' :: s ∧ Blank s := by
  cases indent with
  | none => exact ⟨[' '], rfl, fun c hc ↦ by rw [List.mem_singleton.1 hc]; rfl⟩
  | some n => exact ⟨_, rfl, blank_newline _ _⟩

theorem isSpace_iff : isSpace c = true ↔ c = ' ' ∨ c = '\t' ∨ c = '\n' ∨ c = '\r' := by
  simp [isSpace, or_assoc]

theorem ends_append (hs : Blank s) (hc : c = ',' ∨ c = ']' ∨ c = '\x7d') (t : Text) :
    Ends (s ++ c :: t) := by
  have hends {d : Char} (hd : d = ' ' ∨ d = '\t' ∨ d = '\n' ∨ d = '\r' ∨ d = ',' ∨ d = ']' ∨
      d = '\x7d') (u : Text) : Ends (d :: u) := by
    refine ⟨fun a ha ↦ ?_, fun h ↦ ?_, fun h ↦ ?_, fun h ↦ ?_⟩
    · cases ha
      rcases hd with rfl | rfl | rfl | rfl | rfl | rfl | rfl <;> rfl
    all_goals
      cases h
      revert hd
      decide
  cases s with
  | nil => exact hends (.inr (.inr (.inr (.inr hc)))) t
  | cons d s =>
    rcases isSpace_iff.1 (hs d List.mem_cons_self) with h | h | h | h
    all_goals exact hends (by simp [h]) _

theorem ends_mark (hc : c = ',' ∨ c = ']' ∨ c = '\x7d') (t : Text) : Ends (c :: t) :=
  ends_append (s := []) (fun _ h ↦ absurd h List.not_mem_nil) hc t

theorem ends_nil : Ends [] := by
  refine ⟨fun c hc ↦ ?_, fun h ↦ ?_, fun h ↦ ?_, fun h ↦ ?_⟩
  · cases hc
  · cases h
  · cases h
  · cases h

end Space

section Heads

variable {n room : ℕ} {s t : Text} {p : Json × Text}

theorem value_of_scalar (h : scalar t = some p) (n room : ℕ) : value (n + 1) room t = .ok p := by
  rw [value, h]
  · rintro u rfl
    cases h
  · rintro u rfl
    cases h

theorem exists_head_of_value (h : value n room t = .ok p) :
    ∃ c u, t = c :: u ∧ isSpace c = false ∧ c ≠ ']' := by
  cases n with
  | zero => cases h
  | succ n =>
    cases t with
    | nil => cases h
    | cons c u =>
      refine ⟨c, u, rfl, Bool.eq_false_iff.2 fun hc ↦ ?_, ?_⟩
      · rcases isSpace_iff.1 hc with rfl | rfl | rfl | rfl <;> cases h
      · rintro rfl
        cases h

theorem skipSpace_of_value (hs : Blank s) (h : value n room t = .ok p) : skipSpace (s ++ t) = t := by
  obtain ⟨c, u, rfl, hc, -⟩ := exists_head_of_value h
  exact skipSpace_append hs hc u

theorem exists_value_of_items {q : List Json × Text} (h : items n room t = .ok q) :
    ∃ m p, value m room t = .ok p := by
  cases n with
  | zero => cases h
  | succ n =>
    rw [items] at h
    cases hvalue : value n room t with
    | error f => rw [hvalue] at h; cases h
    | ok p => exact ⟨n, p, hvalue⟩

theorem skipSpace_of_items {q : List Json × Text} (hs : Blank s) (h : items n room t = .ok q) :
    skipSpace (s ++ t) = t := by
  obtain ⟨m, p, hvalue⟩ := exists_value_of_items h
  exact skipSpace_of_value hs hvalue

end Heads

section Steps

variable {n room : ℕ} {k : CodeText} {s t r : Text} {v : Json} {vs : List Json}
  {done ms : List (CodeText × Json)}

theorem value_list (hs : Blank s) (h : items n room t = .ok (vs, r)) :
    value (n + 1) (room + 1) ('[' :: (s ++ t)) = .ok (list vs, r) := by
  obtain ⟨m, p, hvalue⟩ := exists_value_of_items h
  obtain ⟨c, u, rfl, -, hc⟩ := exists_head_of_value hvalue
  rw [value, deeper]
  dsimp only
  rw [skipSpace_of_value hs hvalue]
  split
  next heq => exact absurd (List.cons.inj heq).1 hc
  next => rw [h]; rfl

theorem items_last (hs : Blank s) (h : value n room t = .ok (v, s ++ ']' :: r)) :
    items (n + 1) room t = .ok ([v], r) := by
  rw [items, h]
  dsimp only
  rw [skipSpace_append hs rfl]
  rfl

theorem items_more {u : Text} (hs : Blank s) (h : value n room t = .ok (v, ',' :: (s ++ u)))
    (hmore : items n room u = .ok (vs, r)) : items (n + 1) room t = .ok (v :: vs, r) := by
  rw [items, h]
  change (items n room (skipSpace (s ++ u))).map _ = _
  rw [skipSpace_of_items hs hmore, hmore]
  rfl

theorem set_of_not_mem (hk : k ∉ done.map Prod.fst) : set k v done = done ++ [(k, v)] := by
  induction done with
  | nil => rfl
  | cons m done ih =>
    obtain ⟨key, w⟩ := m
    rw [List.map_cons, List.mem_cons, not_or] at hk
    rw [set, if_neg (Ne.symm hk.1), ih hk.2, List.cons_append]

def memberText (k : CodeText) (t : Text) : Text := quote k ++ ':' :: ' ' :: t

theorem exists_memberText (k : CodeText) (t : Text) : ∃ u, memberText k t = '"' :: u ∧
    stringFrom [] none u = some (k.joined, ':' :: ' ' :: t) :=
  ⟨k.flatMap escapePoint ++ '"' :: ':' :: ' ' :: t, by simp [memberText, quote],
    stringFrom_quote _ k⟩

theorem value_object (hs : Blank s) (h : members n room [] (memberText k t) = .ok (ms, r)) :
    value (n + 1) (room + 1) ('\x7b' :: (s ++ memberText k t)) = .ok (object ms, r) := by
  obtain ⟨u, hu, -⟩ := exists_memberText k t
  rw [hu] at h ⊢
  rw [value, deeper]
  dsimp only
  rw [skipSpace_append hs rfl]
  exact congrArg (Except.map _) h

def membersEnd (n room : ℕ) (done : List (CodeText × Json)) :
    Text → Except Refusal (List (CodeText × Json) × Text)
  | '\x7d' :: t => .ok (done, t)
  | ',' :: t => members n room done (skipSpace t)
  | _ => .error .malformed

theorem members_value {p : Json × Text} (hk : CodeText.Settled k) (h : value n room t = .ok p) :
    members (n + 1) room done (memberText k t) =
      membersEnd n room (set k p.1 done) (skipSpace p.2) := by
  obtain ⟨u, hu, hkey⟩ := exists_memberText k t
  rw [CodeText.joined_of_settled hk] at hkey
  have hblank : Blank [' '] := fun c hc ↦ by rw [List.mem_singleton.1 hc]; rfl
  have hskip : skipSpace (' ' :: t) = t := skipSpace_of_value hblank h
  have hcolon : skipSpace (':' :: ' ' :: t) = ':' :: ' ' :: t := rfl
  rw [hu, members, hkey]
  simp only [hcolon, hskip, h]
  rfl

theorem members_last (done : List (CodeText × Json)) (hs : Blank s) (hk : CodeText.Settled k)
    (h : value n room t = .ok (v, s ++ '\x7d' :: r)) :
    members (n + 1) room done (memberText k t) = .ok (set k v done, r) := by
  rw [members_value hk h, skipSpace_append hs rfl]
  rfl

theorem members_more {k' : CodeText} {u : Text} (hs : Blank s) (hk : CodeText.Settled k)
    (h : value n room t = .ok (v, ',' :: (s ++ memberText k' u)))
    (hmore : members n room (set k v done) (memberText k' u) = .ok (ms, r)) :
    members (n + 1) room done (memberText k t) = .ok (ms, r) := by
  obtain ⟨w, hw, -⟩ := exists_memberText k' u
  rw [members_value hk h]
  change members n room (set k v done) (skipSpace (s ++ memberText k' u)) = _
  rw [← hmore, hw, skipSpace_append hs rfl]

end Steps

section Run

variable {indent : Option ℕ} {n : ℕ}

/-- With a bound on what can still begin, and room for what lies within, values, items and members
are read back. -/
structure ReadsBack (indent : Option ℕ) (n : ℕ) : Prop where
  value : ∀ {v : Json} (depth : ℕ) {room : ℕ} {r : Text}, v.Held → Ends r → v.depth ≤ room →
    (textAt indent depth v).length < n → value n room (textAt indent depth v ++ r) = .ok (v, r)
  items : ∀ {v : Json} {vs : List Json} (depth : ℕ) {room : ℕ} {s r : Text},
    (∀ w ∈ v :: vs, Held w) → Blank s → itemsDepth (v :: vs) ≤ room →
    (textAt indent depth v).length + (itemsText indent depth vs).length + 1 < n →
    items n room (textAt indent depth v ++ (itemsText indent depth vs ++ (s ++ ']' :: r))) =
      .ok (v :: vs, r)
  members : ∀ {k : CodeText} {v : Json} {ms : List (CodeText × Json)}
    (done : List (CodeText × Json)) (depth : ℕ) {room : ℕ} {s r : Text},
    (∀ m ∈ (k, v) :: ms, CodeText.Settled m.1) → (∀ m ∈ (k, v) :: ms, Held m.2) →
    ((done ++ (k, v) :: ms).map Prod.fst).Nodup → Blank s → membersDepth ((k, v) :: ms) ≤ room →
    (memberText k (textAt indent depth v)).length + (membersText indent depth ms).length + 1 < n →
    members n room done (memberText k (textAt indent depth v ++
        (membersText indent depth ms ++ (s ++ '\x7d' :: r)))) =
      .ok (done ++ (k, v) :: ms, r)

def isScalar : Json → Bool
  | list _ | object _ => false
  | _ => true

theorem scalar_scalarText {v : Json} {r : Text} (hv : v.isScalar = true) (h : v.Held)
    (hr : Ends r) : scalar (scalarText v ++ r) = some (v, r) := by
  cases h with
  | null => exact congrArg (·.map (null, ·)) (after?_append "ull".toList r)
  | bool b =>
    cases b with
    | true => exact congrArg (·.map (bool true, ·)) (after?_append "rue".toList r)
    | false => exact congrArg (·.map (bool false, ·)) (after?_append "alse".toList r)
  | int hn => exact scalar_ofInt hn hr
  | num x => exact scalar_render x hr
  | @str t ht =>
    have hread := stringFrom_quote r t
    rw [CodeText.joined_of_settled ht] at hread
    rw [scalarText, quote, List.append_assoc, List.cons_append, scalar]
    exact congrArg (Option.map _) hread
  | list => cases hv
  | object => cases hv

theorem value_succ (ih : ReadsBack indent n) {v : Json} (depth : ℕ) {room : ℕ} {r : Text}
    (hv : v.Held) (hr : Ends r) (hroom : v.depth ≤ room)
    (hn : (textAt indent depth v).length < n + 1) :
    Json.value (n + 1) room (textAt indent depth v ++ r) = .ok (v, r) := by
  cases v with
  | list vs =>
    have h := held_list_iff.1 hv
    obtain ⟨room, rfl⟩ := Nat.exists_eq_add_of_le' (show 1 ≤ room by rw [Json.depth] at hroom; omega)
    cases vs with
    | nil => rfl
    | cons w vs =>
      rw [textAt] at hn ⊢
      rw [Json.depth] at hroom
      simp only [List.length_append, List.length_cons, List.length_nil] at hn
      have hread := ih.items (r := r) (depth + 1) h (blank_newline indent depth)
        (Nat.le_of_succ_le_succ hroom) (by omega)
      have hvalue := value_list (blank_newline indent (depth + 1)) hread
      simpa only [List.cons_append, List.append_assoc, List.nil_append] using hvalue
  | object ms =>
    obtain ⟨hkeys, hsettled, h⟩ := held_object_iff.1 hv
    obtain ⟨room, rfl⟩ := Nat.exists_eq_add_of_le' (show 1 ≤ room by rw [Json.depth] at hroom; omega)
    cases ms with
    | nil => rfl
    | cons m ms =>
      obtain ⟨k, w⟩ := m
      rw [textAt] at hn ⊢
      rw [Json.depth] at hroom
      simp only [List.length_append, List.length_cons, List.length_nil] at hn
      have hread := ih.members (r := r) [] (depth + 1) hsettled h hkeys
        (blank_newline indent depth) (Nat.le_of_succ_le_succ hroom)
        (by simp only [memberText, List.length_append, List.length_cons]; omega)
      have hvalue := value_object (blank_newline indent (depth + 1)) hread
      simpa only [memberText, List.cons_append, List.append_assoc, List.nil_append] using hvalue
  | _ => exact value_of_scalar (scalar_scalarText rfl hv hr) n room

theorem items_succ (ih : ReadsBack indent n) {v : Json} {vs : List Json} (depth : ℕ) {room : ℕ}
    {s r : Text} (hvs : ∀ w ∈ v :: vs, Held w) (hs : Blank s) (hroom : itemsDepth (v :: vs) ≤ room)
    (hn : (textAt indent depth v).length + (itemsText indent depth vs).length + 1 < n + 1) :
    Json.items (n + 1) room
        (textAt indent depth v ++ (itemsText indent depth vs ++ (s ++ ']' :: r))) =
      .ok (v :: vs, r) := by
  have hv := hvs v List.mem_cons_self
  rw [itemsDepth, max_le_iff] at hroom
  cases vs with
  | nil => exact items_last hs (ih.value depth hv (ends_append hs (by simp) r) hroom.1 (by omega))
  | cons w vs =>
    obtain ⟨gap, hgap, hblank⟩ := exists_separator indent depth
    rw [itemsText, hgap] at hn ⊢
    simp only [List.length_append, List.length_cons] at hn
    have hmore := ih.items (r := r) depth (fun a ha ↦ hvs a (List.mem_cons_of_mem _ ha))
      hs hroom.2 (by omega)
    have hread (t : Text) := ih.value depth hv (ends_mark (.inl rfl) t) hroom.1 (by omega)
    simpa only [List.cons_append, List.append_assoc] using items_more hblank (hread _) hmore

theorem members_succ (ih : ReadsBack indent n) {k : CodeText} {v : Json}
    {ms : List (CodeText × Json)} (done : List (CodeText × Json)) (depth : ℕ) {room : ℕ}
    {s r : Text} (hsettled : ∀ m ∈ (k, v) :: ms, CodeText.Settled m.1)
    (hms : ∀ m ∈ (k, v) :: ms, Held m.2)
    (hkeys : ((done ++ (k, v) :: ms).map Prod.fst).Nodup) (hs : Blank s)
    (hroom : membersDepth ((k, v) :: ms) ≤ room)
    (hn : (memberText k (textAt indent depth v)).length +
      (membersText indent depth ms).length + 1 < n + 1) :
    Json.members (n + 1) room done (memberText k (textAt indent depth v ++
        (membersText indent depth ms ++ (s ++ '\x7d' :: r)))) =
      .ok (done ++ (k, v) :: ms, r) := by
  have hk : CodeText.Settled k := hsettled (k, v) List.mem_cons_self
  have hv : v.Held := hms (k, v) List.mem_cons_self
  rw [membersDepth, max_le_iff] at hroom
  have hset : set k v done = done ++ [(k, v)] := by
    refine set_of_not_mem fun hk ↦ ?_
    rw [List.map_append, List.map_cons] at hkeys
    exact (List.nodup_append.1 hkeys).2.2 k hk k List.mem_cons_self rfl
  simp only [memberText, List.length_append, List.length_cons] at hn
  cases ms with
  | nil =>
    have hread := members_last done hs hk
      (ih.value depth hv (ends_append hs (by simp) r) hroom.1 (by omega))
    rwa [hset] at hread
  | cons m ms =>
    obtain ⟨k', w⟩ := m
    obtain ⟨gap, hgap, hblank⟩ := exists_separator indent depth
    rw [membersText, hgap] at hn ⊢
    simp only [List.length_append, List.length_cons] at hn
    have hmore := ih.members (r := r) (done ++ [(k, v)]) depth
      (fun a ha ↦ hsettled a (List.mem_cons_of_mem _ ha))
      (fun a ha ↦ hms a (List.mem_cons_of_mem _ ha)) (by simpa using hkeys) hs hroom.2
      (by simp only [memberText, List.length_append, List.length_cons]; omega)
    have hread (t : Text) := ih.value depth hv (ends_mark (.inl rfl) t) hroom.1 (by omega)
    rw [← hset] at hmore
    have hwhole := members_more hblank hk (hread _) hmore
    rw [hset] at hwhole
    simpa only [memberText, List.cons_append, List.append_assoc, List.nil_append] using hwhole

theorem readsBack (indent : Option ℕ) (n : ℕ) : ReadsBack indent n := by
  induction n with
  | zero =>
    refine ⟨fun _ _ _ _ _ _ h ↦ ?_, fun _ _ _ _ _ _ _ h ↦ ?_, fun _ _ _ _ _ _ _ _ _ _ h ↦ ?_⟩
    all_goals exact absurd h (Nat.not_lt_zero _)
  | succ n ih => exact ⟨value_succ ih, items_succ ih, members_succ ih⟩

/-- What is written of a value is read as the value, if there is room. -/
theorem read_textAt {v : Json} {room : ℕ} (h : v.Held) (hroom : v.depth ≤ room + 1) :
    read room (textAt indent 0 v) = .ok v := by
  have hread := (readsBack indent (2 * (textAt indent 0 v).length + 1)).value 0 h ends_nil hroom
    (by omega)
  rw [List.append_nil] at hread
  have hskip : skipSpace (textAt indent 0 v) = textAt indent 0 v :=
    skipSpace_of_value (s := []) (fun _ h ↦ absurd h List.not_mem_nil) hread
  rw [read, hskip, hread]
  rfl

end Run

end Json

end StepAndRepeat
