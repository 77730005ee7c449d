import Mathlib
import StepAndRepeat.Proofs.Grid.SkipLanguage
import StepAndRepeat.Proofs.Number.Decimals

namespace StepAndRepeat.SkipText

open Text

variable {cells n : Int} {ns : List Int}

theorem writes_ofInt (h : 0 ≤ n) : Writes (ofInt n) n := by
  have hdigits : ∀ c ∈ ofNat n.natAbs, isDigit c = true := fun c hc ↦
    isDigit_of_isDigit (isDigit_of_mem_ofNat hc)
  have hwrites : Writes (ofNat n.natAbs) (digitsToNat (ofNat n.natAbs)) :=
    .plain Nat.toDigits_ne_nil hdigits
  rw [digitsToNat_ofNat, Int.natAbs_of_nonneg h] at hwrites
  rwa [ofInt, if_neg (by omega)]

theorem not_long_ofInt (h : 0 ≤ n) (hs : Short n) : ¬ Long (ofInt n) := by
  intro hl
  have hlong := hl.long.trans_le (List.length_filter_le _ _)
  rw [ofInt, if_neg (by omega)] at hlong
  have hle := (length_ofNat_le_iff (by decide)).2 hs
  omega

theorem format_eq_ok {t : Text} :
    format ns = .ok t ↔ (∀ n ∈ ns, Short n) ∧ join [',', ' '] (ns.map ofInt) = t := by
  have hwritten {ts : List Text} : ns.mapM writeInt = .ok ts ↔
      (∀ n ∈ ns, Short n) ∧ ns.map ofInt = ts := by
    rw [mapM_eq_ok]
    constructor
    · intro h
      induction h with
      | nil => simp
      | cons hn _ ih =>
        obtain ⟨hshort, rfl⟩ := writeInt_eq_ok.1 hn
        exact ⟨List.forall_mem_cons.2 ⟨hshort, ih.1⟩, by rw [List.map_cons, ih.2]⟩
    · rintro ⟨hall, rfl⟩
      rw [List.forall₂_map_right_iff, List.forall₂_same]
      exact fun n hn ↦ writeInt_of_short (hall n hn)
  rw [format, map_eq_ok]
  constructor
  · rintro ⟨ts, hts, rfl⟩
    obtain ⟨hall, rfl⟩ := hwritten.1 hts
    exact ⟨hall, rfl⟩
  · rintro ⟨hall, rfl⟩
    exact ⟨_, hwritten.2 ⟨hall, rfl⟩, rfl⟩

theorem exists_format_error : (∃ f, format ns = .error f) ↔ ∃ n ∈ ns, ¬ Short n := by
  simp only [format, exists_map_error, exists_mapM_error, exists_writeInt_error]

theorem pieces_join (h : ∀ n ∈ ns, 0 ≤ n) :
    pieces (join [',', ' '] (ns.map ofInt)) = ns.map ofInt := by
  have hwrites : ∀ t ∈ ns.map ofInt, ∃ n, Writes t n := by
    intro t ht
    obtain ⟨n, hn, rfl⟩ := List.mem_map.1 ht
    exact ⟨n, writes_ofInt (h n hn)⟩
  have hfilter : (ns.map ofInt).filter (!·.isEmpty) = ns.map ofInt := by
    refine List.filter_eq_self.2 fun t ht ↦ ?_
    obtain ⟨n, hn⟩ := hwrites t ht
    simpa using hn.ne_nil
  rcases eq_or_ne ns [] with rfl | hne
  · rfl
  · rw [pieces, map_trim_cut_join (by decide) (by decide) _ (by simpa using hne), hfilter]
    intro t ht
    obtain ⟨n, hn⟩ := hwrites t ht
    refine ⟨fun hm ↦ ?_, hn.trimmed⟩
    rcases hn.isNumeric _ hm with hd | hd
    · exact absurd hd (by decide)
    · exact absurd hd (by decide)

theorem parts_ofInt (hlow : 1 ≤ n) (hhigh : n ≤ cells) (hs : Short n) :
    parts (ofInt n) cells = .ok (.ok [n]) := by
  have hwrites := writes_ofInt (show 0 ≤ n by omega)
  have hsides {x y : Text} : ¬ Sides (ofInt n) x y := hwrites.not_sides
  rw [parts_eq_ok_ok hwrites.trimmed]
  refine ⟨fun hstop ↦ ?_, n, n, .single hwrites hlow hhigh, (upTo_self n).symm⟩
  cases hstop with
  | long hl => exact not_long_ofInt (by omega) hs hl
  | single hw _ hout => exact absurd hhigh (by rw [hwrites.unique hw]; omega)
  | longSide hs | range hs | items hs => exact hsides hs

theorem ordered_of_pairwise (h : ns.Pairwise (· < ·)) : ordered ns = ns := by
  induction ns with
  | nil => rfl
  | cons n ns ih =>
    obtain ⟨hn, hns⟩ := List.pairwise_cons.1 h
    have hstep : ordered (n :: ns) = insert n (ordered ns) := rfl
    rw [hstep, ih hns]
    cases ns with
    | nil => rfl
    | cons m ms => rw [insert, if_pos (hn m List.mem_cons_self)]

theorem read_back (hr : ns.Pairwise (· < ·)) (h : ∀ n ∈ ns, 1 ≤ n ∧ n ≤ cells)
    (hs : ∀ n ∈ ns, Short n) :
    ∃ t, format ns = .ok t ∧ parse t cells = .ok ⟨ns, none⟩ := by
  refine ⟨_, format_eq_ok.2 ⟨hs, rfl⟩, ?_⟩
  have hread : read (join [',', ' '] (ns.map ofInt)) cells =
      .ok (ns.map fun n ↦ (ofInt n, .ok [n])) := by
    rw [read, pieces_join fun n hn ↦ by have := h n hn; omega, mapM_eq_ok,
      List.forall₂_map_left_iff, List.forall₂_map_right_iff, List.forall₂_same]
    intro n hn
    rw [parts_ofInt (h n hn).1 (h n hn).2 (hs n hn)]
    rfl
  have hskipped : (Reading.ofPieces (ns.map fun n ↦ (ofInt n, .ok [n]))).skipped = ns := by
    rw [Reading.ofPieces, List.flatMap_map]
    simpa using ordered_of_pairwise hr
  have hfault : (Reading.ofPieces (ns.map fun n ↦ (ofInt n, .ok [n]))).fault? = none := by
    rw [Reading.ofPieces, List.findSome?_eq_none_iff]
    simp
  rw [parse, hread]
  exact congrArg Except.ok (congrArg₂ Reading.mk hskipped hfault)

/-- The parts that are read have no more digits than the number that was read. -/
theorem short_of_mem_skipped {t : Text} {r : Reading} (h : parse t cells = .ok r) {k : Int}
    (hk : k ∈ r.skipped) : Short k := by
  obtain ⟨p, hp, m, n, hnames, hm, hn⟩ := (mem_skipped h).1 hk
  have hgo : ¬ Stops cells p := fun hs ↦ by
    obtain ⟨f, hf⟩ := exists_parse_error.2 ⟨p, hp, hs⟩
    rw [h] at hf
    cases hf
  have hpos := hnames.bounds hm hn
  cases hnames with
  | single hw => exact (hw.short fun hl ↦ hgo (.long hl)).of_le (by omega) hn
  | range hs hx hy =>
    exact (hy.short fun hl ↦ hgo (.longSide hs (.inr hl))).of_le (by omega) (by omega)

/-- A set of parts is written down just if no number in it is too long, and then the parts are
skipped again when what is written is read. The parts of any text with which nothing is wrong can be
written anew, and are skipped again. -/
theorem skipped_format (cells : Int) :
    (∀ s : Finset ℤ, (∀ n ∈ s, 1 ≤ n ∧ n ≤ cells) →
      ((∀ n ∈ s, Short n) → ∃ t, format s.sort = .ok t ∧ parse t cells = .ok ⟨s.sort, none⟩) ∧
        ((∃ n ∈ s, ¬ Short n) → ∃ f, format s.sort = .error f)) ∧
    ∀ t ns, parse t cells = .ok ⟨ns, none⟩ →
      ∃ t', format ns = .ok t' ∧ parse t' cells = .ok ⟨ns, none⟩ := by
  refine ⟨fun s hs ↦ ⟨fun hshort ↦ ?_, fun hlong ↦ ?_⟩, fun t ns h ↦ ?_⟩
  · exact read_back s.sortedLT_sort.pairwise (fun n hn ↦ hs n ((Finset.mem_sort _).1 hn))
      fun n hn ↦ hshort n ((Finset.mem_sort _).1 hn)
  · obtain ⟨n, hn, hlong⟩ := hlong
    exact exists_format_error.2 ⟨n, (Finset.mem_sort _).2 hn, hlong⟩
  · exact read_back (pairwise_skipped h) (fun n hn ↦ mem_skipped_bounds h hn)
      fun n hn ↦ short_of_mem_skipped h hn

def threeParts : Finset ℤ := {9, 1, 4}

def overlapping : Text := "8-12,, 2 - 4 ,+3, 4-5".toList

theorem skipped_format_threeParts :
    (∃ t, format threeParts.sort = .ok t ∧ t = "1, 4, 9".toList ∧
      parse t 10 = .ok ⟨threeParts.sort, none⟩) ∧
    ∃ t, format [2, 3, 4, 5, 8, 9, 10] = .ok t ∧ parse overlapping 10 = parse t 10 := by
  obtain ⟨hsets, htexts⟩ := skipped_format 10
  have hshort : ∀ n ∈ threeParts, Short n := by
    intro n hn
    have hle : n ≤ 9 := by
      revert n
      decide
    have hpos : 1 ≤ n := by
      revert n
      decide
    exact Short.of_le (n := 9) (by decide +kernel) (by omega) hle
  have hread : parse overlapping 10 = .ok ⟨[2, 3, 4, 5, 8, 9, 10], none⟩ := by decide
  obtain ⟨t, ht, hback⟩ := (hsets threeParts (by decide)).1 hshort
  obtain ⟨t', ht', hback'⟩ := htexts overlapping _ hread
  have hsort : threeParts.sort = [1, 4, 9] := by
    have hset : threeParts = [1, 4, 9].toFinset := by decide
    rw [hset, List.toFinset_sort _ (by decide)]
    decide
  refine ⟨⟨t, ht, ?_, hback⟩, t', ht', hread.trans hback'.symm⟩
  obtain ⟨-, rfl⟩ := format_eq_ok.1 ht
  rw [hsort]
  decide

def AlwaysReadsBack : Prop := ∀ (cells : Int) (s : Finset ℤ), (∀ n ∈ s, 1 ≤ n ∧ n ≤ cells) →
  ∃ t, format s.sort = .ok t ∧ parse t cells = .ok ⟨s.sort, none⟩

theorem not_alwaysReadsBack : ¬ AlwaysReadsBack := by
  intro h
  have hpos : (1 : Int) ≤ 10 ^ digitLimit := by decide +kernel
  obtain ⟨t, ht, -⟩ := h (10 ^ digitLimit) {10 ^ digitLimit} fun n hn ↦ by
    rw [Finset.mem_singleton] at hn
    omega
  rw [Finset.sort_singleton] at ht
  have hshort : Short (10 ^ digitLimit) := (format_eq_ok.1 ht).1 _ (by simp)
  exact absurd hshort (by decide +kernel)

end StepAndRepeat.SkipText
