import Mathlib.Data.List.Destutter
import StepAndRepeat.Extent.Survey
import StepAndRepeat.Proofs.Replication.Output

namespace StepAndRepeat

section Trail

variable {σ τ ρ : Type} (g : σ → τ → σ)

def Still (keep : τ → Bool) (a : σ) : List τ → Prop
  | [] => True
  | t :: ts => (keep t = false → g a t = a) ∧ Still keep (g a t) ts

variable {g} {keep : τ → Bool} {a : σ} {ts : List τ}

theorem still_of_forall (h : ∀ t ∈ ts, keep t = false → ∀ b, g b t = b) : Still g keep a ts := by
  induction ts generalizing a with
  | nil => trivial
  | cons t ts ih => exact ⟨fun hk ↦ h t (by simp) hk a, ih fun u hu ↦ h u (by simp [hu])⟩

theorem foldl_filter_still (h : Still g keep a ts) :
    (ts.filter keep).foldl g a = ts.foldl g a := by
  induction ts generalizing a with
  | nil => rfl
  | cons t ts ih =>
    obtain ⟨ht, hts⟩ := h
    cases hk : keep t with
    | true => rw [List.filter_cons_of_pos hk, List.foldl_cons, List.foldl_cons, ih hts]
    | false =>
      have hg := ht hk
      rw [hg] at hts
      rw [List.filter_cons_of_neg (by simp [hk]), List.foldl_cons, hg, ih hts]

variable [DecidableEq ρ] (f : σ → ρ)

theorem destutter_scanl_cons (a b : σ) (ts : List τ) :
    (f a :: (ts.scanl g b).map f).destutter (· ≠ ·) =
      if f a ≠ f b then f a :: ((ts.scanl g b).map f).destutter (· ≠ ·)
      else ((ts.scanl g b).map f).destutter (· ≠ ·) := by
  obtain ⟨r, hr⟩ : ∃ r, (ts.scanl g b).map f = f b :: r := by
    cases ts with
    | nil => exact ⟨[], by simp⟩
    | cons t ts => exact ⟨_, by rw [List.scanl_cons, List.map_cons]⟩
  rw [hr, List.destutter_cons_cons, List.destutter_cons']
  by_cases h : f a = f b
  · rw [h]
  · rw [if_pos h, if_pos h]

/-- What the states that are passed through show, repeats aside, is shown by the kept items. -/
theorem destutter_scanl_filter (h : Still g keep a ts) :
    (((ts.filter keep).scanl g a).map f).destutter (· ≠ ·) =
      ((ts.scanl g a).map f).destutter (· ≠ ·) := by
  induction ts generalizing a with
  | nil => rfl
  | cons t ts ih =>
    obtain ⟨ht, hts⟩ := h
    cases hk : keep t with
    | true =>
      rw [List.filter_cons_of_pos hk, List.scanl_cons, List.scanl_cons, List.map_cons,
        List.map_cons, destutter_scanl_cons, destutter_scanl_cons, ih hts]
    | false =>
      have hg := ht hk
      rw [hg] at hts
      rw [List.filter_cons_of_neg (by simp [hk]), List.scanl_cons, hg, List.map_cons,
        destutter_scanl_cons, if_neg (not_not.2 rfl), ih hts]

end Trail

structure Place (α : Type) where
  modes : Modes
  position : Position α

namespace Place

variable {α : Type} [Coordinate α]

def step (p : Place α) (l : Line α) : Place α where
  modes := p.modes.read l
  position :=
    if l.isCode && !l.isMachineMove then p.position.target (p.modes.read l).distance l
    else p.position

theorem step_of_not_code {l : Line α} (h : l.kind ≠ .code) (p : Place α) : p.step l = p := by
  simp [step, Modes.read, Line.isCode, h]

def readText (p : Place α) (t : Text) : Place α :=
  match (Line.readAt 0 t : Except LineFault (Line α)) with
  | .ok l => p.step l
  | .error _ => p

theorem readText_eq {i : Nat} {t : Text} {l : Line α} (h : Line.readAt i t = .ok l)
    (p : Place α) : p.readText t = p.step l := by
  rw [readText, Line.readAt_zero h]
  rfl

theorem readText_of_not_code {t : Text} (h : Line.kindOf t ≠ .code) (p : Place α) :
    p.readText t = p := by
  obtain ⟨l, hl, hk⟩ := Line.exists_readAt_of_not_code (α := α) h 0
  rw [readText_eq hl, step_of_not_code hk]

def readCopy (p : Place α) (c : Copy α) : Place α := p.readText c.text

end Place

namespace Survey

variable {α : Type} [Circular α]

def place (s : Survey α) : Place α := ⟨s.modes, s.position⟩

theorem place_step (s : Survey α) (l : Line α) : (s.step l).place = s.place.step l := by
  unfold step place Place.step Modes.read Line.isCode
  by_cases hk : l.kind = .code
  · cases l.isMachineMove <;> simp [hk]
  · simp [hk]

def positions (s : Survey α) (ls : List (Line α)) : List (Position α) :=
  (ls.scanl step s).map position

/-- Where they are read, the lines written for spindle stops change neither modes nor position. -/
def StopsAreStill (s : Survey α) : List (Copy α) → List (Line α) → Prop
  | c :: cs, l :: ls =>
    (c.line.isSpindleStop = true → (s.step l).modes = s.modes ∧ (s.step l).position = s.position) ∧
      (s.step l).StopsAreStill cs ls
  | _, _ => True

variable {s : Survey α} {j : Nat} {cs : List (Copy α)} {rs : List (Line α)}

theorem place_foldl (h : Line.readFrom j (cs.map Copy.text) = .ok rs) :
    (rs.foldl step s).place = cs.foldl Place.readCopy s.place := by
  induction cs generalizing s j rs with
  | nil =>
    cases Except.ok.inj h
    rfl
  | cons c cs ih =>
    obtain ⟨r, rs, hr, hrs, rfl⟩ := Line.readFrom_cons h
    rw [List.foldl_cons, List.foldl_cons, ih hrs, place_step, Place.readCopy,
      Place.readText_eq hr]

theorem positions_eq (h : Line.readFrom j (cs.map Copy.text) = .ok rs) :
    s.positions rs = (cs.scanl Place.readCopy s.place).map Place.position := by
  induction cs generalizing s j rs with
  | nil =>
    cases Except.ok.inj h
    simp [positions, place]
  | cons c cs ih =>
    obtain ⟨r, rs, hr, hrs, rfl⟩ := Line.readFrom_cons h
    have hp : Place.readCopy s.place c = (s.step r).place := by
      rw [place_step, Place.readCopy, Place.readText_eq hr]
    rw [positions, List.scanl_cons, List.map_cons, List.scanl_cons, List.map_cons, hp,
      ← ih hrs]
    rfl

/-- Lines that are not code are still, and so are the spindle stops by assumption. -/
theorem StopsAreStill.still (hs : s.StopsAreStill cs rs)
    (h : Line.readFrom j (cs.map Copy.text) = .ok rs)
    (hc : ∀ c ∈ cs, c.line.isCode = false → Line.kindOf c.text ≠ .code) :
    Still Place.readCopy (fun c ↦ c.line.isCode && !c.line.isSpindleStop) s.place cs := by
  induction cs generalizing s j rs with
  | nil => trivial
  | cons c cs ih =>
    obtain ⟨r, rs, hr, hrs, rfl⟩ := Line.readFrom_cons h
    have hp : Place.readCopy s.place c = (s.step r).place := by
      rw [place_step, Place.readCopy, Place.readText_eq hr]
    refine ⟨fun hk ↦ ?_, ?_⟩
    · rw [Bool.and_eq_false_iff, Bool.not_eq_false'] at hk
      rcases hk with hk | hk
      · exact Place.readText_of_not_code (hc c (by simp) hk) _
      · obtain ⟨hm, hpos⟩ := hs.1 hk
        rw [hp, place, hm, hpos, place]
    · rw [hp]
      exact ih hs.2 hrs fun d hd ↦ hc d (by simp [hd])

end Survey

namespace Replay

variable {α : Type} [Circular α] {o : Offset α} {m : Modes} {i j : Nat} {ts : List Text}
  {ls rs : List (Line α)}

theorem kindOf_of_mem_lines (hl : Line.readFrom i ts = .ok ls) {dropStops : Bool} {c : Copy α}
    (hc : c ∈ (lines o dropStops m ls).2) (hk : c.line.isCode = false) :
    Line.kindOf c.text ≠ .code := by
  obtain ⟨ps, ks, he, ht⟩ := o.mem_rewrites (mem_lines hc)
  have hread : c.line.IsRead := Line.isRead_of_readFrom hl _ (by simp [he])
  have hn : c.line.kind ≠ .code := fun h ↦ by simp [Line.isCode, h] at hk
  have hsame : c.text = c.line.text := by rw [ht, Offset.copyText, Offset.applies]; simp [hn]
  rw [hsame, ← hread.kind_eq]
  exact hn

theorem code_lines_dropStops (m : Modes) (ls : List (Line α)) :
    (lines o true m ls).2.filter (·.line.isCode) =
      (lines o false m ls).2.filter fun c ↦ c.line.isCode && !c.line.isSpindleStop := by
  have hall : (lines o false m ls).2.filter (·.line.isCode) =
      (o.rewrites m ls).filter fun c ↦ c.line.isCode && !(false && c.line.isSpindleStop) :=
    code_lines m ls
  have hf := congrArg (List.filter fun c ↦ !c.line.isSpindleStop) hall
  rw [List.filter_filter, List.filter_filter] at hf
  rw [code_lines]
  simp only [Bool.true_and, Bool.false_and, Bool.not_false, Bool.and_true] at hf ⊢
  simp only [Bool.and_comm] at hf ⊢
  exact hf.symm

/-- Without spindle stops that do nothing else, the tool walks as it does with them. -/
theorem survey_dropStops [DecidableEq α] {s : Survey α} (hl : Line.readFrom i ts = .ok ls)
    (hr : Line.readFrom j ((lines o false m ls).2.map Copy.text) = .ok rs)
    (hs : s.StopsAreStill (lines o false m ls).2 rs) :
    ∃ ks, Line.readFrom j ((lines o true m ls).2.map Copy.text) = .ok ks ∧
      (ks.foldl Survey.step s).modes = (rs.foldl Survey.step s).modes ∧
      (s.positions ks).destutter (· ≠ ·) = (s.positions rs).destutter (· ≠ ·) := by
  have hcode := code_lines_dropStops (o := o) m ls
  obtain ⟨ks, hk⟩ : ∃ ks : List (Line α),
      Line.readFrom j ((lines o true m ls).2.map Copy.text) = .ok ks := by
    refine Line.exists_readFrom_of_forall (fun t ht ↦ ?_) j
    obtain ⟨c, hc, rfl⟩ := List.mem_map.1 ht
    cases hk : c.line.isCode with
    | false =>
      obtain ⟨l, hl, -⟩ := Line.exists_readAt_of_not_code (α := α) (kindOf_of_mem_lines hl hc hk) 0
      exact ⟨l, hl⟩
    | true =>
      have hm : c ∈ (lines o true m ls).2.filter (·.line.isCode) := List.mem_filter.2 ⟨hc, hk⟩
      rw [hcode] at hm
      exact Line.exists_readAt_of_readFrom hr (List.mem_map_of_mem (List.mem_filter.1 hm).1) 0
  have hstops : Still Place.readCopy (fun c ↦ c.line.isCode && !c.line.isSpindleStop) s.place
      (lines o false m ls).2 := hs.still hr fun c hc ↦ kindOf_of_mem_lines hl hc
  have hnotes : Still Place.readCopy (fun c ↦ c.line.isCode) s.place (lines o true m ls).2 :=
    still_of_forall fun c hc hk p ↦ Place.readText_of_not_code (kindOf_of_mem_lines hl hc hk) p
  have hplace : (ks.foldl Survey.step s).place = (rs.foldl Survey.step s).place := by
    rw [Survey.place_foldl hk, Survey.place_foldl hr, ← foldl_filter_still hnotes, hcode,
      foldl_filter_still hstops]
  refine ⟨ks, hk, congrArg Place.modes hplace, ?_⟩
  rw [Survey.positions_eq hk, Survey.positions_eq hr, ← destutter_scanl_filter _ hnotes, hcode,
    destutter_scanl_filter _ hstops]

section Stops

instance decidableStopsAreStill (s : Survey Float) (cs : List (Copy Float))
    (ls : List (Line Float)) : Decidable (s.StopsAreStill cs ls) :=
  match cs, ls with
  | [], _ => .isTrue trivial
  | _ :: _, [] => .isTrue trivial
  | _ :: cs, l :: ls =>
    have := decidableStopsAreStill (s.step l) cs ls
    inferInstanceAs (Decidable ((_ → _ ∧ _) ∧ (s.step l).StopsAreStill cs ls))

def partShift : Offset Float := ⟨10, 0⟩

def partLines (dropStops : Bool) (ls : List (Line Float)) :
    Except LineFault (List (Line Float)) :=
  Line.readFrom 0 ((lines partShift dropStops {} ls).2.map Copy.text)

def stillStops (program : Text) : Bool :=
  match Line.readAll program with
  | .ok ls =>
    match partLines false ls with
    | .ok rs => decide (Survey.start.StopsAreStill (lines partShift false {} ls).2 rs)
    | .error _ => false
  | .error _ => false

def bareStops : Text := "G0 X1\nM5\nG1 X2\nG53 Z0 M5\n(Bore2)\nG0 X3 M3".toList

theorem stillStops_bareStops : stillStops bareStops = true := by decide +kernel

theorem survey_dropStops_bareStops :
    ∃ ls rs ks : List (Line Float), Line.readAll bareStops = .ok ls ∧
      partLines false ls = .ok rs ∧ partLines true ls = .ok ks ∧
      (ks.foldl Survey.step .start).modes = (rs.foldl Survey.step .start).modes ∧
      (Survey.start.positions ks).destutter (· ≠ ·) =
        (Survey.start.positions rs).destutter (· ≠ ·) := by
  have h := stillStops_bareStops
  unfold stillStops at h
  split at h
  next ls hl =>
    split at h
    next rs hr =>
      obtain ⟨ks, hk, hm, hp⟩ := survey_dropStops hl hr (of_decide_eq_true h)
      exact ⟨ls, rs, ks, hl, hr, hk, hm, hp⟩
    next => cases h
  next => cases h

def KeepsWalk (program : Text) : Prop :=
  ∀ ls ∈ (Line.readAll program).toOption, ∀ rs ∈ (partLines false ls).toOption,
    ∀ ks ∈ (partLines true ls).toOption,
      (ks.foldl Survey.step .start).modes = (rs.foldl Survey.step .start).modes ∧
        (Survey.start.positions ks).destutter (· ≠ ·) =
          (Survey.start.positions rs).destutter (· ≠ ·)

instance (program : Text) : Decidable (KeepsWalk program) := by
  unfold KeepsWalk
  infer_instance

def movingStop : Text := "G1 X5 M5".toList

def steppingStop : Text := "G1 X1\nG91 M5\nX5".toList

def turningStop : Text := "G2 M5".toList

theorem not_keepsWalk :
    ¬ KeepsWalk movingStop ∧ ¬ KeepsWalk steppingStop ∧ ¬ KeepsWalk turningStop := by
  decide +kernel

end Stops

end Replay

end StepAndRepeat
