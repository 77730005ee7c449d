import StepAndRepeat.Proofs.Machine.Codes
import StepAndRepeat.Proofs.Replication.Suppression

namespace StepAndRepeat

/-- The letters of the words that lead the tool. -/
def drivers : List Char := ['G', 'X', 'Y', 'Z', 'I', 'J']

namespace Line

variable {α : Type}

def drive (l : Line α) : List (Char × α) := l.keys.filter fun k ↦ drivers.contains k.1

section Drive

variable {l r : Line α} (h : r.drive = l.drive) {c : Char} (hc : c ∈ drivers)
include h hc

theorem values_of_drive : r.values c = l.values c := by
  have hf (l : Line α) : l.values c = (l.drive.filter (·.1 = c)).map (·.2) := by
    rw [values_eq, drive, List.filter_filter]
    congr 1
    refine List.filter_congr fun k _ ↦ ?_
    by_cases hk : k.1 = c
    · simp [hk, hc]
    · simp [hk]
  rw [hf, hf, h]

theorem value?_of_drive : r.value? c = l.value? c := by
  have hf (l : Line α) : l.value? c = (l.values c).head? := by
    rw [value?_eq, values_eq, List.head?_map, List.head?_filter]
  rw [hf, hf, values_of_drive h hc]

end Drive

theorem axis?_of_drive {l r : Line α} (h : r.drive = l.drive) (a : Axis) : r.axis? a = l.axis? a :=
  value?_of_drive h (by cases a <;> decide)

theorem values_of_drive_nil {l : Line α} (h : l.drive = []) {c : Char} (hc : c ∈ drivers) :
    l.values c = [] := by
  rw [values_eq_nil]
  rintro k hk rfl
  have hd := List.filter_eq_nil_iff.1 h k hk
  simp [hc] at hd

theorem drive_eq_nil_iff {l : Line α} : l.drive = [] ↔ ∀ w ∈ l.words, w.letter ∉ drivers := by
  simp [drive, keys, List.filter_eq_nil_iff, Word.key]

def ofDrive (ks : List (Char × α)) : Line α :=
  { index := 0, text := [], kind := .code, words := ks.map fun k ↦ ⟨k.1, k.2, 0, 0⟩, tool := none }

theorem drive_ofDrive (l : Line α) : (ofDrive l.drive).drive = l.drive := by
  have hk : (ofDrive l.drive).keys = l.drive := by
    simp [ofDrive, keys, Word.key, Function.comp_def]
  rw [drive, hk, drive, List.filter_filter]
  simp

def drives (ls : List (Line α)) : List (List (Char × α)) := (ls.map drive).filter (!·.isEmpty)

theorem drives_filter {ls : List (Line α)} {p : Line α → Bool}
    (h : ∀ l ∈ ls, p l = false → l.drive = []) : drives (ls.filter p) = drives ls := by
  rw [drives, drives, List.filter_map, List.filter_map, List.filter_filter]
  congr 1
  refine List.filter_congr fun l hl ↦ ?_
  cases hp : p l with
  | true => rw [Bool.and_true]
  | false => simp [h l hl hp]

end Line

namespace Survey

variable {α : Type} [Circular α] {l r : Line α}

theorem step_of_drive (hk : r.kind = l.kind) (h : r.drive = l.drive) (s : Survey α) :
    s.step r = s.step l := by
  have hg := Line.values_of_drive h (c := 'G') (by decide)
  have ha := Line.axis?_of_drive h
  have hi : r.i? = l.i? := Line.value?_of_drive h (by decide)
  have hj : r.j? = l.j? := Line.value?_of_drive h (by decide)
  have hmove : r.isMachineMove = l.isMachineMove := Line.has_of_values hg 53
  have hcenter : r.hasArcCenter = l.hasArcCenter := by rw [Line.hasArcCenter, hi, hj]; rfl
  have haxis : r.hasAxisWord = l.hasAxisWord := by simp only [Line.hasAxisWord, ha]
  have htarget (d : Distance) (p : Position α) : p.target d r = p.target d l := by
    simp only [Position.target, ha]
  have harc (m : Modes) (p q : Position α) : arcOf m p q r = arcOf m p q l := by
    rw [arcOf, arcOf, hi, hj]
  have hcut (p q : Position α) (b : Box α) : gatherCut p q r b = gatherCut p q l b := by
    simp only [gatherCut, ha]
  simp only [step, hk, Modes.after_of_values hg, hmove, hcenter, haxis, htarget, harc, hcut]

theorem step_of_drive_nil (h : l.drive = []) (s : Survey α) : s.step l = s := by
  have hg := Line.values_of_drive_nil h (c := 'G') (by decide)
  have hvalue {c : Char} (hc : c ∈ drivers) : l.value? c = none := by
    rw [Line.value?_eq, Option.map_eq_none_iff, List.find?_eq_none]
    exact fun k hk ↦ by simpa using Line.values_eq_nil.1 (Line.values_of_drive_nil h hc) k hk
  have ha (a : Axis) : l.axis? a = none := hvalue (by cases a <;> decide)
  have hi : l.i? = none := hvalue (by decide)
  have hj : l.j? = none := hvalue (by decide)
  have hmodes : s.modes.after l = s.modes := by
    simp [Modes.after, Line.distance?, Line.motion?, Line.arcDistance?, Line.hasFraction_eq, hg,
      Line.has_of_values_eq_nil hg]
  have hmove : l.isMachineMove = false := Line.has_of_values_eq_nil hg 53
  have htarget (d : Distance) (p : Position α) : p.target d l = p := by
    simp [Position.target, ha, Position.moved]
  have hcut (p q : Position α) (b : Box α) : gatherCut p q l b = b := by
    simp [gatherCut, ha, Axis.all]
  unfold step
  simp [hmodes, hmove, htarget, hcut, Line.hasArcCenter, Line.hasAxisWord, ha, hi, hj]

def stepDrive (s : Survey α) (ks : List (Char × α)) : Survey α := s.step (.ofDrive ks)

theorem stepDrive_drive (hl : l.IsRead) (s : Survey α) : s.stepDrive l.drive = s.step l := by
  by_cases hk : l.kind = .code
  · exact step_of_drive hk.symm l.drive_ofDrive s
  · have hd : l.drive = [] := by
      rw [Line.drive, Line.keys_of_readAt hl, if_neg (hl.kind_eq ▸ hk), List.filter_nil]
    rw [stepDrive, step_of_drive_nil (by rw [l.drive_ofDrive, hd]), step_of_drive_nil hd]

/-- Where the tool is and what modes are in force, at the start and after each line, repeats
aside. -/
def walk [DecidableEq α] (s : Survey α) (ls : List (Line α)) : List (Position α × Modes) :=
  ((ls.scanl step s).map fun s ↦ (s.position, s.modes)).destutter (· ≠ ·)

section Drives

variable {ls rs : List (Line α)}

theorem scanl_drive (h : ∀ l ∈ ls, l.IsRead) (s : Survey α) :
    (ls.map Line.drive).scanl stepDrive s = ls.scanl step s := by
  induction ls generalizing s with
  | nil => rfl
  | cons l ls ih =>
    rw [List.map_cons, List.scanl_cons, List.scanl_cons, stepDrive_drive (h l (by simp)),
      ih fun k hk ↦ h k (by simp [hk])]

theorem foldl_drive (h : ∀ l ∈ ls, l.IsRead) (s : Survey α) :
    (ls.map Line.drive).foldl stepDrive s = ls.foldl step s := by
  induction ls generalizing s with
  | nil => rfl
  | cons l ls ih =>
    rw [List.map_cons, List.foldl_cons, List.foldl_cons, stepDrive_drive (h l (by simp)),
      ih fun k hk ↦ h k (by simp [hk])]

theorem still_drive (s : Survey α) (ds : List (List (Char × α))) :
    Still stepDrive (!·.isEmpty) s ds := by
  refine still_of_forall fun ks _ hk t ↦ step_of_drive_nil ?_ t
  rw [Bool.not_eq_false', List.isEmpty_iff] at hk
  subst hk
  rfl

/-- Lines that lead the tool alike are surveyed alike. -/
theorem run_of_drives (hl : ∀ l ∈ ls, l.IsRead) (hr : ∀ r ∈ rs, r.IsRead)
    (h : Line.drives rs = Line.drives ls) : run rs = run ls := by
  have hf {ks : List (Line α)} (hk : ∀ k ∈ ks, k.IsRead) :
      run ks = (Line.drives ks).foldl stepDrive start := by
    rw [run, ← foldl_drive hk, Line.drives, foldl_filter_still (still_drive _ _)]
  rw [hf hr, hf hl, h]

theorem walk_of_drives [DecidableEq α] (hl : ∀ l ∈ ls, l.IsRead) (hr : ∀ r ∈ rs, r.IsRead)
    (h : Line.drives rs = Line.drives ls) (s : Survey α) : s.walk rs = s.walk ls := by
  have hf {ks : List (Line α)} (hk : ∀ k ∈ ks, k.IsRead) : s.walk ks =
      (((Line.drives ks).scanl stepDrive s).map fun s ↦ (s.position, s.modes)).destutter
        (· ≠ ·) := by
    rw [walk, ← scanl_drive hk, Line.drives, destutter_scanl_filter _ (still_drive _ _)]
  rw [hf hr, hf hl, h]

end Drives

end Survey

end StepAndRepeat
