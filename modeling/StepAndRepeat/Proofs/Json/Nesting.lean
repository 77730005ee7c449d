import StepAndRepeat.Proofs.Json.Documents

namespace StepAndRepeat.Json

variable {β γ : Type} {f : ℕ → Except Refusal β} {k : ℕ} {a : Except Refusal β} {t : Text}

/-- The reading takes so much room: with less it goes too deep, and with enough it has one answer. -/
structure Takes (f : ℕ → Except Refusal β) (k : ℕ) (a : Except Refusal β) : Prop where
  answer_ne : a ≠ .error .tooDeep
  eq_ite : ∀ room, f room = if room < k then .error .tooDeep else a

theorem takes_const (h : a ≠ .error .tooDeep) : Takes (fun _ ↦ a) 0 a := ⟨h, fun _ ↦ rfl⟩

theorem Takes.deeper (h : Takes f k a) : Takes (fun room ↦ Json.deeper room f) (k + 1) a where
  answer_ne := h.answer_ne
  eq_ite room := by
    cases room with
    | zero => rw [if_pos (Nat.succ_pos k)]; rfl
    | succ room =>
      rw [Json.deeper, h.eq_ite room]
      simp only [Nat.add_lt_add_iff_right]

theorem Takes.bind {g : β → ℕ → Except Refusal γ} {P : ℕ → Except Refusal γ → Prop}
    (h : Takes f k a) (herror : P k (.error .malformed))
    (hg : ∀ b, a = .ok b → ∃ k' a', Takes (g b) k' a' ∧ P (max k k') a') :
    ∃ k' a', Takes (fun room ↦ (f room).bind fun b ↦ g b room) k' a' ∧ P k' a' := by
  cases a with
  | error e =>
    cases e with
    | tooDeep => exact absurd rfl h.answer_ne
    | malformed =>
      refine ⟨k, .error .malformed, ⟨by simp, fun room ↦ ?_⟩, herror⟩
      rw [h.eq_ite room]
      split <;> rfl
  | ok b =>
    obtain ⟨k', a', hb, hP⟩ := hg b rfl
    refine ⟨max k k', a', ⟨hb.answer_ne, fun room ↦ ?_⟩, hP⟩
    rw [h.eq_ite room]
    by_cases hk : room < k
    · rw [if_pos hk, if_pos (lt_max_of_lt_left hk)]
      rfl
    · rw [if_neg hk]
      change g b room = _
      rw [hb.eq_ite room]
      have hmax : room < max k k' ↔ room < k' := by omega
      simp only [hmax]

theorem Takes.map (h : Takes f k a) (g : β → γ) : Takes (fun room ↦ (f room).map g) k (a.map g) where
  answer_ne hne := by
    cases a with
    | error e =>
      obtain rfl : e = .tooDeep := Except.error.inj hne
      exact h.answer_ne rfl
    | ok b => cases hne
  eq_ite room := by
    rw [h.eq_ite room]
    split <;> rfl

/-- The room taken is bounded, and the answer lies no deeper than it, or than what was there before. -/
structure Fits {β : Type} (depth : β → ℕ) (before bound k : ℕ) (a : Except Refusal (β × Text)) :
    Prop where
  le_bound : k ≤ bound
  depth_le : ∀ b r, a = .ok (b, r) → depth b ≤ max before k

theorem fits_malformed {depth : β → ℕ} {before bound : ℕ} (h : k ≤ bound) :
    Fits depth before bound k (.error .malformed) := ⟨h, fun _ _ ha ↦ by cases ha⟩

/-- The room that a reading takes, and what it answers. -/
def Settles (f : ℕ → Except Refusal (β × Text)) (depth : β → ℕ) (before bound : ℕ) : Prop :=
  ∃ k a, Takes f k a ∧ Fits depth before bound k a

theorem settles_malformed {depth : β → ℕ} {before bound : ℕ} :
    Settles (fun _ ↦ .error .malformed) depth before bound :=
  ⟨0, _, takes_const (by simp), fits_malformed (Nat.zero_le _)⟩

theorem settles_ok {depth : β → ℕ} {before bound : ℕ} {b : β} (r : Text) (h : depth b ≤ before) :
    Settles (fun _ ↦ .ok (b, r)) depth before bound := by
  refine ⟨0, _, takes_const (by simp), Nat.zero_le _, fun c u hc ↦ ?_⟩
  obtain ⟨rfl, -⟩ := Prod.mk.inj (Except.ok.inj hc)
  exact le_max_of_le_left h

structure TakesRoom (n : ℕ) : Prop where
  value : ∀ t, Settles (fun room ↦ value n room t) depth 0 ((n + 1) / 2)
  items : ∀ t, Settles (fun room ↦ items n room t) itemsDepth 0 (n / 2)
  members : ∀ done t,
    Settles (fun room ↦ members n room done t) membersDepth (membersDepth done) (n / 2)

variable {n : ℕ}

theorem membersDepth_set_le (key : CodeText) (v : Json) (done : List (CodeText × Json)) :
    membersDepth (set key v done) ≤ max v.depth (membersDepth done) := by
  induction done with
  | nil => simp [set, membersDepth]
  | cons d done ih =>
    obtain ⟨k, w⟩ := d
    rw [set]
    split
    next => rw [membersDepth, membersDepth]; omega
    next => rw [membersDepth, membersDepth]; omega

theorem settles_of_opening {f : ℕ → Except Refusal (Json × Text)} (ih : TakesRoom n)
    (hf : Opening n t f) : Settles f depth 0 ((n + 1 + 1) / 2) := by
  -- a level of a value takes one level of room
  have hlevel {β : Type} {d : β → ℕ} {g : ℕ → Except Refusal (β × Text)} {make : β → Json}
      (hg : Settles g d 0 (n / 2)) (hd : ∀ b, (make b).depth = d b + 1) :
      Settles (fun room ↦ Json.deeper room fun room ↦ (g room).map fun (b, r) ↦ (make b, r))
        depth 0 ((n + 1 + 1) / 2) := by
    obtain ⟨k, a, htakes, hfits⟩ := hg
    refine ⟨k + 1, _, (htakes.map _).deeper, by have := hfits.le_bound; omega, fun v r hv ↦ ?_⟩
    obtain ⟨⟨b, u⟩, hb, heq⟩ := map_eq_ok.1 hv
    obtain ⟨rfl, -⟩ := Prod.mk.inj heq
    have hle := hfits.depth_le b u hb
    rw [hd]
    omega
  cases hf with
  | @nothing v r hv =>
    refine ⟨1, _, (takes_const (a := .ok (v, r)) (by simp)).deeper, by omega, fun w u hw ↦ ?_⟩
    obtain ⟨rfl, -⟩ := Prod.mk.inj (Except.ok.inj hw)
    rcases hv with rfl | rfl
    · exact le_rfl
    · exact le_rfl
  | items u => exact hlevel (ih.items u) fun vs ↦ by rw [depth]
  | members u => exact hlevel (ih.members [] u) fun ms ↦ by rw [depth]
  | @scalar v r hs => exact settles_ok r (scalar_spec hs).2.le
  | malformed => exact settles_malformed

theorem Settles.mono {depth : β → ℕ} {before before' bound : ℕ}
    {f : ℕ → Except Refusal (β × Text)} (h : Settles f depth before bound)
    (hle : before ≤ before') : Settles f depth before' bound := by
  obtain ⟨k, a, htakes, hfits⟩ := h
  refine ⟨k, a, htakes, hfits.le_bound, fun b r hb ↦ ?_⟩
  have := hfits.depth_le b r hb
  omega

theorem settles_itemsEnd (ih : TakesRoom n) (v : Json) (t : Text) :
    Settles (fun room ↦ itemsEnd n room v t) itemsDepth v.depth (n / 2) := by
  cases t with
  | nil => exact settles_malformed
  | cons c u =>
    by_cases hend : c = ']'
    · subst hend
      exact settles_ok u (by rw [itemsDepth, itemsDepth, Nat.max_zero])
    by_cases hmore : c = ','
    · subst hmore
      obtain ⟨k, a, htakes, hfits⟩ := ih.items (skipSpace u)
      have hmap := htakes.map fun p ↦ (v :: p.1, p.2)
      refine ⟨k, _, hmap, hfits.le_bound, fun ws r hws ↦ ?_⟩
      obtain ⟨⟨vs, x⟩, hvs, heq⟩ := map_eq_ok.1 hws
      obtain ⟨rfl, -⟩ := Prod.mk.inj heq
      have hle : itemsDepth vs ≤ max 0 k := hfits.depth_le vs x hvs
      change itemsDepth (v :: vs) ≤ _
      rw [itemsDepth]
      omega
    · have hnone : (fun room ↦ itemsEnd n room v (c :: u)) = fun _ ↦ .error .malformed := by
        funext room
        unfold itemsEnd
        split
        next heq => exact absurd (List.cons.inj heq).1 hend
        next heq => exact absurd (List.cons.inj heq).1 hmore
        next => rfl
      exact hnone ▸ settles_malformed

theorem settles_membersEnd (ih : TakesRoom n) (done : List (CodeText × Json)) (t : Text) :
    Settles (fun room ↦ membersEnd n room done t) membersDepth (membersDepth done) (n / 2) := by
  cases t with
  | nil => exact settles_malformed
  | cons c u =>
    by_cases hend : c = '\x7d'
    · subst hend
      exact settles_ok u le_rfl
    by_cases hmore : c = ','
    · subst hmore
      exact ih.members done (skipSpace u)
    · have hnone : (fun room ↦ membersEnd n room done (c :: u)) = fun _ ↦ .error .malformed := by
        funext room
        unfold membersEnd
        split
        next heq => exact absurd (List.cons.inj heq).1 hend
        next heq => exact absurd (List.cons.inj heq).1 hmore
        next => rfl
      exact hnone ▸ settles_malformed

theorem Settles.bind {depth : γ → ℕ} {before : ℕ} {f : ℕ → Except Refusal (Json × Text)}
    {g : Json × Text → ℕ → Except Refusal (γ × Text)} (h : Settles f Json.depth 0 ((n + 1) / 2))
    (hg : ∀ p, Settles (g p) depth (max p.1.depth before) (n / 2)) :
    Settles (fun room ↦ (f room).bind fun p ↦ g p room) depth before ((n + 1) / 2) := by
  obtain ⟨k, a, htakes, hfits⟩ := h
  refine htakes.bind (fits_malformed hfits.le_bound) fun p hp ↦ ?_
  obtain ⟨k', a', htakes', hfits'⟩ := hg p
  have hvalue := hfits.depth_le p.1 p.2 hp
  refine ⟨k', a', htakes', ?_, fun b r hb ↦ ?_⟩
  · have := hfits.le_bound
    have := hfits'.le_bound
    omega
  · have := hfits'.depth_le b r hb
    omega

theorem settles_of_naming {done : List (CodeText × Json)}
    {f : ℕ → Except Refusal (List (CodeText × Json) × Text)} (ih : TakesRoom n)
    (hf : Naming n done f) : Settles f membersDepth (membersDepth done) ((n + 1) / 2) := by
  cases hf with
  | member u _ =>
    exact (ih.value u).bind fun p ↦ (settles_membersEnd ih _ _).mono (membersDepth_set_le _ _ _)
  | malformed => exact settles_malformed

theorem takesRoom (n : ℕ) : TakesRoom n := by
  induction n with
  | zero =>
    refine ⟨fun t ↦ settles_malformed, fun t ↦ settles_malformed, fun done t ↦ ?_⟩
    have hnone : (fun room ↦ members 0 room done t) = fun _ ↦ .error .malformed := by
      funext room
      rw [members]
      exact fun _ _ hn _ ↦ by cases hn
    exact hnone ▸ settles_malformed
  | succ n ih =>
    refine ⟨fun t ↦ settles_of_opening ih (opening_value n t), fun t ↦ ?_,
      fun done t ↦ settles_of_naming ih (naming_members n done t)⟩
    simp only [items_succ_eq]
    exact (ih.value t).bind fun p ↦
      (settles_itemsEnd ih p.1 (skipSpace p.2)).mono (Nat.le_max_left _ _)

/-- A text takes so much room, no more than it is long: with less the reading goes too deep, and with
enough it has one answer, in which no value lies deeper. -/
theorem read_eq_ite (t : Text) : ∃ k a, k ≤ t.length ∧ a ≠ .error .tooDeep ∧
    (∀ v, a = .ok v → v.depth ≤ k + 1) ∧
    ∀ room, read room t = if room < k then .error .tooDeep else a := by
  obtain ⟨k, a, htakes, hfits⟩ := (takesRoom (2 * t.length + 1)).value (skipSpace t)
  refine ⟨k - 1, a.bind fun p ↦ if (skipSpace p.2).isEmpty then .ok p.1 else .error .malformed,
    ?_, ?_, ?_, ?_⟩
  · have := hfits.le_bound
    omega
  · cases a with
    | error e =>
      rintro ⟨⟩
      exact htakes.answer_ne rfl
    | ok p =>
      change (if _ then _ else _) ≠ _
      split <;> simp
  · intro v hv
    obtain ⟨⟨w, r⟩, hw, heq⟩ := bind_eq_ok.1 hv
    have hle := hfits.depth_le w r hw
    dsimp only at heq
    split at heq
    next =>
      obtain rfl := Except.ok.inj heq
      omega
    next => cases heq
  · intro room
    have hroom : room + 1 < k ↔ room < k - 1 := by omega
    have hread : read room t = (value (2 * t.length + 1) (room + 1) (skipSpace t)).bind
        fun p ↦ if (skipSpace p.2).isEmpty then .ok p.1 else .error .malformed := by
      rw [read]
      cases value (2 * t.length + 1) (room + 1) (skipSpace t) <;> rfl
    rw [hread, htakes.eq_ite (room + 1)]
    simp only [hroom]
    split <;> rfl

end StepAndRepeat.Json
