import StepAndRepeat.Proofs.Attempts
import StepAndRepeat.Proofs.Json.Values

namespace StepAndRepeat.Json

variable {k : CodeText} {t r : Text} {v : Json} {done ms : List (CodeText × Json)}

section Steps

variable {n : ℕ}

/-- What an item leaves: the end of the list, or more items. -/
def itemsEnd (n room : ℕ) (v : Json) : Text → Except Refusal (List Json × Text)
  | ']' :: t => .ok ([v], t)
  | ',' :: t => (items n room (skipSpace t)).map fun (vs, t) ↦ (v :: vs, t)
  | _ => .error .malformed

/-- What a text can begin with: a list, an object, or a scalar. -/
inductive Opening (n : ℕ) (t : Text) : (ℕ → Except Refusal (Json × Text)) → Prop
  | nothing {v : Json} (r : Text) : v = list [] ∨ v = object [] →
      Opening n t fun room ↦ deeper room fun _ ↦ .ok (v, r)
  | items (u : Text) :
      Opening n t fun room ↦ deeper room fun room ↦ (items n room u).map fun (vs, r) ↦ (list vs, r)
  | members (u : Text) : Opening n t fun room ↦
      deeper room fun room ↦ (members n room [] u).map fun (ms, r) ↦ (object ms, r)
  | scalar {v : Json} {r : Text} : Json.scalar t = some (v, r) → Opening n t fun _ ↦ .ok (v, r)
  | malformed : Opening n t fun _ ↦ .error .malformed

theorem opening_list (n : ℕ) (u : Text) :
    Opening n ('[' :: u) fun room ↦ value (n + 1) room ('[' :: u) := by
  by_cases hend : ∃ w, skipSpace u = ']' :: w
  · obtain ⟨w, hw⟩ := hend
    have heq : (fun room ↦ value (n + 1) room ('[' :: u)) =
        fun room ↦ deeper room fun _ ↦ .ok (list [], w) := by
      funext room
      rw [value, hw]
      rfl
    exact heq ▸ .nothing w (.inl rfl)
  · have heq : (fun room ↦ value (n + 1) room ('[' :: u)) = fun room ↦
        deeper room fun room ↦ (items n room (skipSpace u)).map fun (vs, r) ↦ (list vs, r) := by
      funext room
      rw [value]
      congr 1
      funext room
      split
      next w hw => exact absurd ⟨w, hw⟩ hend
      next => rfl
    exact heq ▸ .items _

theorem opening_object (n : ℕ) (u : Text) :
    Opening n ('\x7b' :: u) fun room ↦ value (n + 1) room ('\x7b' :: u) := by
  by_cases hend : ∃ w, skipSpace u = '\x7d' :: w
  · obtain ⟨w, hw⟩ := hend
    have heq : (fun room ↦ value (n + 1) room ('\x7b' :: u)) =
        fun room ↦ deeper room fun _ ↦ .ok (object [], w) := by
      funext room
      rw [value, hw]
      rfl
    exact heq ▸ .nothing w (.inr rfl)
  · have heq : (fun room ↦ value (n + 1) room ('\x7b' :: u)) = fun room ↦
        deeper room fun room ↦
          (members n room [] (skipSpace u)).map fun (ms, r) ↦ (object ms, r) := by
      funext room
      rw [value]
      congr 1
      funext room
      split
      next w hw => exact absurd ⟨w, hw⟩ hend
      next => rfl
    exact heq ▸ .members _

theorem opening_scalar (n : ℕ) (hlist : ∀ u, t ≠ '[' :: u) (hobject : ∀ u, t ≠ '\x7b' :: u) :
    Opening n t fun room ↦ value (n + 1) room t := by
  have heq (room : ℕ) :
      value (n + 1) room t = ((scalar t).map Except.ok).getD (.error .malformed) := by
    rw [value]
    · cases scalar t <;> rfl
    · exact hlist
    · exact hobject
  simp only [heq]
  cases h : scalar t with
  | none => exact .malformed
  | some p => exact .scalar h

theorem opening_value (n : ℕ) (t : Text) : Opening n t fun room ↦ value (n + 1) room t := by
  by_cases hlist : ∃ u, t = '[' :: u
  · obtain ⟨u, rfl⟩ := hlist
    exact opening_list n u
  by_cases hobject : ∃ u, t = '\x7b' :: u
  · obtain ⟨u, rfl⟩ := hobject
    exact opening_object n u
  · exact opening_scalar n (not_exists.1 hlist) (not_exists.1 hobject)

theorem items_succ_eq (n room : ℕ) (t : Text) : items (n + 1) room t =
    (value n room t).bind fun (v, r) ↦ itemsEnd n room v (skipSpace r) := by
  rw [items]
  cases value n room t <;> rfl

/-- What a member can begin with: a key and a value. -/
inductive Naming (n : ℕ) (done : List (CodeText × Json)) :
    (ℕ → Except Refusal (List (CodeText × Json) × Text)) → Prop
  | member {k : CodeText} (u : Text) : CodeText.Settled k → Naming n done fun room ↦
      (value n room u).bind fun (v, r) ↦ membersEnd n room (set k v done) (skipSpace r)
  | malformed : Naming n done fun _ ↦ .error .malformed

theorem naming_members (n : ℕ) (done : List (CodeText × Json)) (t : Text) :
    Naming n done fun room ↦ members (n + 1) room done t := by
  by_cases hquote : ∃ u, t = '"' :: u
  · obtain ⟨u, rfl⟩ := hquote
    cases hkey : stringFrom [] none u with
    | none =>
      simp only [members, hkey]
      exact .malformed
    | some p =>
      obtain ⟨k, w⟩ := p
      by_cases hcolon : ∃ x, skipSpace w = ':' :: x
      · obtain ⟨x, hx⟩ := hcolon
        have heq : (fun room ↦ members (n + 1) room done ('"' :: u)) = fun room ↦
            (value n room (skipSpace x)).bind fun (v, r) ↦
              membersEnd n room (set k v done) (skipSpace r) := by
          funext room
          rw [members, hkey]
          simp only [hx]
          cases value n room (skipSpace x) <;> rfl
        exact heq ▸ .member _ (settled_of_read hkey)
      · have heq : (fun room ↦ members (n + 1) room done ('"' :: u)) =
            fun _ ↦ .error .malformed := by
          funext room
          rw [members, hkey]
          dsimp only
          split
          next x hx => exact absurd ⟨x, hx⟩ hcolon
          next => rfl
        exact heq ▸ .malformed
  · have heq : (fun room ↦ members (n + 1) room done t) = fun _ ↦ .error .malformed := by
      funext room
      rw [members]
      exact fun _ u _ hu ↦ hquote ⟨u, hu⟩
    exact heq ▸ .malformed

end Steps

section Held

theorem mem_set {m : CodeText × Json} (h : m ∈ set k v done) : m = (k, v) ∨ m ∈ done := by
  induction done with
  | nil => exact .inl (List.mem_singleton.1 h)
  | cons d done ih =>
    obtain ⟨key, w⟩ := d
    rw [set] at h
    split at h
    next hk =>
      rcases List.mem_cons.1 h with rfl | h
      · exact .inl (by rw [hk])
      · exact .inr (List.mem_cons_of_mem _ h)
    next =>
      rcases List.mem_cons.1 h with rfl | h
      · exact .inr List.mem_cons_self
      · exact (ih h).imp_right (List.mem_cons_of_mem _)

theorem nodup_set (h : (done.map Prod.fst).Nodup) : ((set k v done).map Prod.fst).Nodup := by
  by_cases hk : k ∈ done.map Prod.fst
  · have hkeys : (set k v done).map Prod.fst = done.map Prod.fst := by
      clear h
      induction done with
      | nil => cases hk
      | cons d done ih =>
        obtain ⟨key, w⟩ := d
        rw [set]
        split
        next => rfl
        next hne =>
          rw [List.map_cons, List.map_cons, ih]
          exact (List.mem_cons.1 hk).resolve_left (Ne.symm hne)
    rwa [hkeys]
  · rw [set_of_not_mem hk, List.map_append]
    refine List.nodup_append.2 ⟨h, List.nodup_singleton k, fun a ha b hb heq ↦ hk ?_⟩
    rw [List.map_singleton, List.mem_singleton] at hb
    have hak : a = k := heq.trans hb
    exact hak ▸ ha

theorem held_set (hk : CodeText.Settled k) (hv : v.Held) (h : Held (object done)) :
    Held (object (set k v done)) := by
  obtain ⟨hkeys, hsettled, hms⟩ := held_object_iff.1 h
  refine held_object_iff.2 ⟨nodup_set hkeys, fun m hm ↦ ?_, fun m hm ↦ ?_⟩
  · rcases mem_set hm with rfl | hm
    · exact hk
    · exact hsettled m hm
  · rcases mem_set hm with rfl | hm
    · exact hv
    · exact hms m hm

theorem number_spec {negative : Bool} (h : number negative t = some (v, r)) :
    v.Held ∧ v.depth = 0 := by
  rcases number_cases h with ⟨n, rfl, hn⟩ | ⟨x, rfl⟩
  · exact ⟨.int hn, by simp [depth]⟩
  · exact ⟨.num x, by simp [depth]⟩

theorem scalar_spec (h : scalar t = some (v, r)) : v.Held ∧ v.depth = 0 := by
  have hmap {o : Option Text} {w : Json} (hw : w.Held ∧ w.depth = 0)
      (ho : o.map (w, ·) = some (v, r)) : v.Held ∧ v.depth = 0 := by
    obtain ⟨u, -, hu⟩ := Option.map_eq_some_iff.1 ho
    obtain ⟨rfl, -⟩ := Prod.mk.inj hu
    exact hw
  have hnum (x : Float) : (num x).Held ∧ (num x).depth = 0 := ⟨.num x, by simp [depth]⟩
  unfold scalar at h
  split at h
  next => cases h
  next t =>
    obtain ⟨⟨s, u⟩, hs, hv⟩ := Option.map_eq_some_iff.1 h
    obtain ⟨rfl, -⟩ := Prod.mk.inj hv
    exact ⟨.str (settled_of_read hs), by simp [depth]⟩
  next t =>
    split at h
    next =>
      obtain ⟨rfl, -⟩ := Prod.mk.inj (Option.some_inj.1 h)
      exact hnum _
    next => exact number_spec h
  next t => exact hmap ⟨.null, by simp [depth]⟩ h
  next t => exact hmap ⟨.bool true, by simp [depth]⟩ h
  next t => exact hmap ⟨.bool false, by simp [depth]⟩ h
  next t => exact hmap (hnum _) h
  next t => exact hmap (hnum _) h
  next => exact number_spec h

/-- With a bound on what can still begin, what is read can be held. -/
structure GivesHeld (n : ℕ) : Prop where
  value : ∀ {room t v r}, value n room t = .ok (v, r) → v.Held
  items : ∀ {room t vs r}, items n room t = .ok (vs, r) → Held (list vs)
  members : ∀ {room done t ms r}, Held (object done) →
    members n room done t = .ok (ms, r) → Held (object ms)

theorem deeper_eq_ok {β : Type} {room : ℕ} {f : ℕ → Except Refusal β} {b : β}
    (h : deeper room f = .ok b) : ∃ room, f room = .ok b := by
  cases room with
  | zero => cases h
  | succ room => exact ⟨room, h⟩

theorem held_of_opening {n room : ℕ} {f : ℕ → Except Refusal (Json × Text)} (ih : GivesHeld n)
    (hf : Opening n t f) (h : f room = .ok (v, r)) : v.Held := by
  have hnil : Held (object []) := .object List.nodup_nil (by simp) (by simp)
  cases hf with
  | nothing u hw =>
    obtain ⟨_, h⟩ := deeper_eq_ok h
    obtain ⟨rfl, -⟩ := Prod.mk.inj (Except.ok.inj h)
    rcases hw with rfl | rfl
    · exact .list (by simp)
    · exact hnil
  | items u =>
    obtain ⟨_, h⟩ := deeper_eq_ok h
    obtain ⟨⟨vs, u⟩, hvs, hw⟩ := map_eq_ok.1 h
    obtain ⟨rfl, -⟩ := Prod.mk.inj hw
    exact ih.items hvs
  | members u =>
    obtain ⟨_, h⟩ := deeper_eq_ok h
    obtain ⟨⟨ms, u⟩, hms, hw⟩ := map_eq_ok.1 h
    obtain ⟨rfl, -⟩ := Prod.mk.inj hw
    exact ih.members hnil hms
  | scalar hs =>
    obtain ⟨rfl, rfl⟩ := Prod.mk.inj (Except.ok.inj h)
    exact (scalar_spec hs).1
  | malformed => cases h

theorem held_itemsEnd {n room : ℕ} {vs : List Json} (ih : GivesHeld n) (hv : v.Held)
    (h : itemsEnd n room v t = .ok (vs, r)) : Held (list vs) := by
  unfold itemsEnd at h
  split at h
  next =>
    obtain ⟨rfl, -⟩ := Prod.mk.inj (Except.ok.inj h)
    exact .list fun w hw ↦ List.mem_singleton.1 hw ▸ hv
  next =>
    obtain ⟨⟨ws, u⟩, hws, heq⟩ := map_eq_ok.1 h
    obtain ⟨rfl, -⟩ := Prod.mk.inj heq
    exact .list (List.forall_mem_cons.2 ⟨hv, held_list_iff.1 (ih.items hws)⟩)
  next => cases h

theorem held_membersEnd {n room : ℕ} (ih : GivesHeld n) (hdone : Held (object done))
    (h : membersEnd n room done t = .ok (ms, r)) : Held (object ms) := by
  unfold membersEnd at h
  split at h
  next =>
    obtain ⟨rfl, -⟩ := Prod.mk.inj (Except.ok.inj h)
    exact hdone
  next => exact ih.members hdone h
  next => cases h

theorem held_of_naming {n room : ℕ} {f : ℕ → Except Refusal (List (CodeText × Json) × Text)}
    (ih : GivesHeld n) (hf : Naming n done f) (hdone : Held (object done))
    (h : f room = .ok (ms, r)) : Held (object ms) := by
  cases hf with
  | member u hk =>
    obtain ⟨⟨w, x⟩, hw, hend⟩ := bind_eq_ok.1 h
    exact held_membersEnd ih (held_set hk (ih.value hw) hdone) hend
  | malformed => cases h

theorem givesHeld (n : ℕ) : GivesHeld n := by
  induction n with
  | zero =>
    refine ⟨fun h ↦ ?_, fun h ↦ ?_, fun _ h ↦ ?_⟩
    · cases h
    · cases h
    · rw [members] at h
      · cases h
      · exact fun _ _ hn _ ↦ by cases hn
  | succ n ih =>
    refine ⟨fun h ↦ held_of_opening ih (opening_value n _) h, fun h ↦ ?_,
      fun hdone h ↦ held_of_naming ih (naming_members n _ _) hdone h⟩
    rw [items_succ_eq] at h
    obtain ⟨⟨w, u⟩, hw, hend⟩ := bind_eq_ok.1 h
    exact held_itemsEnd ih (ih.value hw) hend

theorem held_of_read {room : ℕ} (h : read room t = .ok v) : v.Held := by
  unfold read at h
  split at h
  next v u hv =>
    split at h
    next => exact Except.ok.inj h ▸ (givesHeld _).value hv
    next => cases h
  next => cases h

end Held

end StepAndRepeat.Json
