import StepAndRepeat.Proofs.Machine.Codes
import StepAndRepeat.Proofs.Replication.Incremental
import StepAndRepeat.Proofs.Replication.Output

namespace StepAndRepeat

variable {α : Type} [Coordinate α]

def Stretch.copied (s : Stretch α) : List (Copy α) := s.entries.flatMap Entry.copied

@[simp] theorem Stretch.copied_note (t : Text) : (note t : Stretch α).copied = [] := rfl

@[simp] theorem Stretch.copied_block (b : Block α) : (block b).copied = b.copies := by
  simp [copied, entries, Entry.copied, List.flatMap_map]

theorem Stretch.flatMap_copied {ss : List (Stretch α)} (h : ∀ ls, verbatim ls ∉ ss) :
    ss.flatMap copied = (blocks ss).flatMap Block.copies := by
  induction ss with
  | nil => rfl
  | cons s ss ih =>
    have hss := ih fun ls hls ↦ h ls (by simp [hls])
    cases s with
    | note t => simpa using hss
    | verbatim ls => exact absurd List.mem_cons_self (h ls)
    | block b => simp [hss]

section Copies

variable {β : Type} {set? : Line α → Option β} {b : Block α}

omit [Coordinate α] in
theorem SetByCodes.isCode_of_isSome (hs : SetByCodes set?) {l : Line α}
    (h : (set? l).isSome = true) : l.isCode = true := by
  refine Line.isCode_iff.2 (by_contra fun hk ↦ ?_)
  rw [hs.ofCode hk] at h
  cases h

omit [Coordinate α] in
theorem SetByCodes.carry_code (hs : SetByCodes set?) (cs : List (Copy α)) (v : β) :
    carry set? v ((cs.filter (·.line.isCode)).map Copy.line) =
      carry set? v (cs.map Copy.line) := by
  rw [carry_map, carry_map, carry_filter]
  intro c _ hc
  apply hs.ofCode
  intro h
  rw [Line.isCode_iff.2 h] at hc
  cases hc

theorem SetByCodes.set?_copy (hs : SetByCodes set?) (hb : ∀ l ∈ b.lines, l.IsSound)
    (hw : b.WritesDecimals) {c : Copy α} (hc : c ∈ b.copies) {i : Nat} {r : Line α}
    (hr : Line.readAt i c.text = .ok r) : set? r = set? c.line := by
  obtain ⟨hl, ps, ks, -, ht⟩ := Block.mem_copies hc
  have hsound := hb c.line hl
  by_cases he : c.text = c.line.text
  · exact hs.of_alike (hsound.1.alike (he ▸ hr))
  · obtain ⟨hkind, hkeys⟩ := Offset.read_copyText hsound.1 (hw c hc he) (ht ▸ hr)
    refine hs.same hkind ?_
    split at hkeys
    · exact Offset.values_of_shifted hkeys (by decide) (by decide)
    · exact Line.values_of_keys hkeys 'G'

theorem SetByCodes.carry_copies (hs : SetByCodes set?) (hb : ∀ l ∈ b.lines, l.IsSound)
    (hw : b.WritesDecimals) {cs : List (Copy α)} (hcs : cs ⊆ b.copies) {rs : List (Line α)}
    (hr : List.Forall₂ (fun t r ↦ ∃ i, Line.readAt i t = .ok r) (cs.map Copy.text) rs) (v : β) :
    carry set? v rs = carry set? v (cs.map Copy.line) := by
  rw [List.forall₂_map_left_iff] at hr
  rw [carry_map]
  refine carry_forall₂ hr (fun c hc r hcr ↦ ?_) v
  obtain ⟨i, hi⟩ := hcr
  exact hs.set?_copy hb hw (hcs hc) hi

theorem SetByCodes.unset_of_noted (hs : SetByCodes set?) {t : Text} (h : Assembly.Noted t) {i : Nat}
    {r : Line α} (hr : Line.readAt i t = .ok r) : set? r = none := by
  refine hs.unset (Line.values_eq_nil.2 fun k hk ↦ ?_)
  rcases h.onlyMT hr k hk with h | h <;> rw [h] <;> decide

theorem SetByCodes.carry_stretches (hs : SetByCodes set?) {ss : List (Stretch α)}
    (hsound : ∀ s ∈ ss, s.IsSound) (hw : ∀ b ∈ Stretch.blocks ss, b.WritesDecimals)
    {rs : List (Line α)}
    (hr : List.Forall₂ (fun t r ↦ ∃ i, Line.readAt i t = .ok r)
      ((ss.flatMap Stretch.entries).map Entry.text) rs) (v : β) :
    carry set? v rs = carry set? v ((ss.flatMap Stretch.copied).map Copy.line) := by
  have hent : ∀ e ∈ ss.flatMap Stretch.entries, ∀ i r, Line.readAt i e.text = .ok r →
      ∀ v, (set? r).getD v = carry set? v (e.copied.map Copy.line) := by
    intro e he i r hir v
    obtain ⟨s, hsm, hes⟩ := List.mem_flatMap.1 he
    cases s with
    | note t =>
      obtain rfl := List.mem_singleton.1 hes
      rw [hs.unset_of_noted (hsound _ hsm) hir]
      rfl
    | verbatim ls =>
      obtain ⟨l, hl, rfl⟩ := List.mem_map.1 hes
      rw [hs.of_alike ((hsound _ hsm l hl).1.alike hir)]
      rfl
    | block b =>
      obtain ⟨c, hc, rfl⟩ := List.mem_map.1 hes
      rw [hs.set?_copy (hsound _ hsm) (hw b (Stretch.mem_blocks hsm)) hc hir]
      rfl
  have hcopied : ss.flatMap Stretch.copied = (ss.flatMap Stretch.entries).flatMap Entry.copied :=
    List.flatMap_assoc.symm
  rw [hcopied]
  generalize ss.flatMap Stretch.entries = es at hr hent
  rw [List.forall₂_map_left_iff] at hr
  induction hr generalizing v with
  | nil => rfl
  | @cons e r es rs her _ ih =>
    obtain ⟨i, hi⟩ := her
    rw [carry_cons, hent e (by simp) i r hi, ih _ fun e he ↦ hent e (by simp [he]),
      List.flatMap_cons, List.map_append, carry_append]

end Copies

namespace Block

theorem code_sublist (b : Block α) :
    ((b.copies.filter (·.line.isCode)).map Copy.line).Sublist b.lines := by
  rw [copies, Replay.code_lines]
  have hs := (List.filter_sublist (p := fun c : Copy α ↦
    c.line.isCode && !(b.dropStops && c.line.isSpindleStop))
    (l := b.cell.offset.rewrites (Modes.through {} b.before) b.lines)).map Copy.line
  rwa [Offset.map_line_rewrites] at hs

end Block

namespace Assembly

section Passes

/-- Before each block stands what its instance has been written since it began: the blocks of the
lines that it has read, and notes. -/
def Passing (ss : List (Stretch α)) : Prop :=
  ∀ xs b after, ss = xs ++ .block b :: after → ∃ before run, xs = before ++ run ∧
    (∀ ls, .verbatim ls ∉ run) ∧ (Stretch.blocks run).flatMap Block.lines = b.before

omit [Coordinate α]

theorem passing_of_blocks_eq_nil {ss : List (Stretch α)} (h : Stretch.blocks ss = []) :
    Passing ss := by
  rintro xs b after rfl
  simp at h

theorem passing_block {b : Block α} (h : b.before = []) : Passing [.block b] := by
  intro xs c after he
  obtain ⟨rfl, he⟩ | ⟨_, _, he⟩ := List.cons_eq_append_iff.1 he
  · obtain ⟨hc, -⟩ := List.cons.inj he
    obtain rfl := Stretch.block.inj hc
    exact ⟨[], [], rfl, by simp, h.symm⟩
  · simp at he

theorem Passing.append {ss ts : List (Stretch α)} (hs : Passing ss) (ht : Passing ts) :
    Passing (ss ++ ts) := by
  intro xs b after he
  obtain ⟨ys, rfl, hys⟩ | ⟨ys, rfl, hys⟩ := List.append_eq_append_iff.1 he
  · obtain ⟨before, run, rfl, hrun⟩ := ht ys b after hys
    exact ⟨ss ++ before, run, (List.append_assoc _ _ _).symm, hrun⟩
  · cases ys with
    | nil =>
      obtain ⟨before, run, he, hrun⟩ := ht [] b after hys.symm
      obtain ⟨rfl, rfl⟩ := List.append_eq_nil_iff.1 he.symm
      exact ⟨xs, [], by simp, hrun⟩
    | cons y ys =>
      obtain ⟨rfl, -⟩ := List.cons.inj hys
      exact hs xs b ys rfl

theorem passing_flatMap {γ : Type} {cs : List γ} {f : γ → List (Stretch α)}
    (h : ∀ c ∈ cs, Passing (f c)) : Passing (cs.flatMap f) := by
  induction cs with
  | nil => exact passing_of_blocks_eq_nil rfl
  | cons c cs ih =>
    rw [List.flatMap_cons]
    exact (h c (by simp)).append (ih fun d hd ↦ h d (by simp [hd]))

theorem exists_append_of_note {t : Text} {ss xs after : List (Stretch α)} {b : Block α}
    (h : .note t :: ss = xs ++ .block b :: after) :
    ∃ ys, xs = .note t :: ys ∧ ss = ys ++ .block b :: after := by
  obtain ⟨-, h⟩ | h := List.cons_eq_append_iff.1 h
  · simp at h
  · exact h

/-- What stands before a block of a pass is the blocks of the lines read since the pass began. -/
theorem lines_of_pass {k : Nat} {i : Instance α} {last : Bool} {read : List (Line α)}
    {ss : List ((Int × Segment α) × Bool)} {xs after : List (Stretch α)} {b : Block α}
    (h : pass k i last read ss = xs ++ .block b :: after) :
    (∀ ls, .verbatim ls ∉ xs) ∧ read ++ (Stretch.blocks xs).flatMap Block.lines = b.before := by
  induction ss generalizing read xs with
  | nil => simp [pass] at h
  | cons t ss ih =>
    obtain ⟨⟨n, s⟩, lastSegment⟩ := t
    rw [pass] at h
    obtain ⟨ys, rfl, hblock⟩ := exists_append_of_note h
    obtain ⟨rfl, hfirst⟩ | ⟨zs, rfl, hnote⟩ := List.cons_eq_append_iff.1 hblock
    · obtain ⟨hb, -⟩ := List.cons.inj hfirst
      obtain rfl := Stretch.block.inj hb
      simp
    · obtain ⟨xs, rfl, hrest⟩ := exists_append_of_note hnote
      obtain ⟨hnone, hread⟩ := ih hrest
      refine ⟨by simpa using hnone, ?_⟩
      rw [← hread]
      simp [Block.lines]

theorem passing_pass (k : Nat) (i : Instance α) (last : Bool)
    (ss : List ((Int × Segment α) × Bool)) : Passing (pass k i last [] ss) := by
  intro xs b after he
  obtain ⟨hnone, hread⟩ := lines_of_pass he
  exact ⟨[], xs, rfl, hnone, hread⟩

end Passes

theorem passing_body {o : Order α} {rs : List (Line α)} {body : List (Stretch α)}
    (h : bodyStretches o rs = .ok body) : Passing body := by
  have hblock (x y z : Text) {b : Block α} (hb : b.before = []) :
      Passing [.note x, .note y, .block b, .note z] := by
    have hbefore : Passing [.note x, (.note y : Stretch α)] := passing_of_blocks_eq_nil rfl
    have hafter : Passing [(.note z : Stretch α)] := passing_of_blocks_eq_nil rfl
    exact hbefore.append ((passing_block hb).append hafter)
  unfold bodyStretches at h
  split at h
  next =>
    cases hp : Phases.ofLines (Segment.cut rs).1 with
    | error e => simp [hp, Except.map] at h
    | ok p =>
      simp only [hp, Except.map, Except.ok.injEq] at h
      rw [← h, withoutToolsStretches]
      refine ((passing_of_blocks_eq_nil rfl).append (passing_flatMap fun c _ ↦ ?_)).append
        (passing_of_blocks_eq_nil rfl)
      exact hblock _ _ _ rfl
  next =>
    split at h
    · rw [← Except.ok.inj h, sortedStretches]
      refine (passing_of_blocks_eq_nil (by simp)).append (passing_flatMap fun g _ ↦ ?_)
      refine (passing_of_blocks_eq_nil rfl).append (passing_flatMap fun c _ ↦ ?_)
      exact hblock _ _ _ rfl
    · rw [← Except.ok.inj h, standardStretches]
      refine (passing_of_blocks_eq_nil (by simp)).append (passing_flatMap fun c _ ↦ ?_)
      exact (passing_of_blocks_eq_nil rfl).append (passing_pass _ _ _ _)

theorem passing_stretches {o : Order α} {program : Text} {ss : List (Stretch α)}
    (h : stretches o program = .ok ss) : Passing ss := by
  obtain ⟨ls, rs, body, -, -, hbody, rfl⟩ := stretches_cases h
  exact ((passing_of_blocks_eq_nil (by simp)).append (passing_body hbody)).append
    (passing_of_blocks_eq_nil rfl)

variable {o : Order α} {program out : Text} {ls outs : List (Line α)}
  {before after : List (Stretch α)} {b : Block α} {cs ds : List (Copy α)} {c : Copy α}

theorem mem_blocks_of_stretches (hss : stretches o program = .ok (before ++ .block b :: after)) :
    ∃ bs, blocks o program = .ok bs ∧ b ∈ bs := by
  refine ⟨_, by rw [blocks, hss]; rfl, Stretch.mem_blocks (by simp)⟩

theorem set?_of_stretches [OneLine α] {β : Type} {set? : Line α → Option β} {ss : List (Stretch α)}
    (hl : Line.readAll program = .ok ls) (hss : stretches o program = .ok ss)
    (hk : Ending.Keeps set? ls) {s : Stretch α} (hs : s ∈ ss) :
    ∀ c ∈ s.copied, ∃ l ∈ ls, l.index = c.line.index ∧ set? c.line = set? l := by
  obtain ⟨ls', rs, body, hl', hr, hbody, rfl⟩ := stretches_cases hss
  obtain rfl := Except.ok.inj (hl.symm.trans hl')
  have hall := Ending.cleansAll_of_cleanAll hr
  have hof : s.Of (fun _ ↦ True) fun r ↦ ∃ l ∈ ls, l.index = r.index ∧ set? r = set? l := by
    simp only [List.mem_append, List.mem_map, List.mem_singleton] at hs
    rcases hs with (⟨t, -, rfl⟩ | hs) | rfl
    · trivial
    · refine of_body (fun _ _ ↦ trivial) (fun _ _ ↦ trivial) (fun r hr s hrs ↦ ?_) hbody s hs
      obtain ⟨l, hm, hlr⟩ := hall.mem hr
      have hls := hlr.trans hrs
      exact ⟨l, hm, hls.index_eq.symm, hk l hm s hls⟩
    · trivial
  intro c hc
  obtain ⟨e, he, hce⟩ := List.mem_flatMap.1 hc
  cases s with
  | note t =>
    obtain rfl := List.mem_singleton.1 he
    cases hce
  | verbatim ks =>
    obtain ⟨k, hk', rfl⟩ := List.mem_map.1 he
    obtain rfl := List.mem_singleton.1 hce
    exact hof k hk'
  | block b =>
    obtain ⟨d, hd, rfl⟩ := List.mem_map.1 he
    obtain rfl := List.mem_singleton.1 hce
    exact hof c.line (Block.mem_copies hd).1

/-- Where the code lines that are written come in the order of the program, and the line that last
set a mode is among them, they leave in force what the program does. -/
theorem carry_in_order {β : Type} {set? : Line α → Option β} (hs : SetByCodes set?)
    (hl : Line.readAll program = .ok ls)
    (hp : (((cs ++ c :: ds).filter (·.line.isCode)).map Copy.line).Pairwise (·.index < ·.index))
    (hset : ∀ d ∈ cs ++ c :: ds, ∃ l ∈ ls, l.index = d.line.index ∧ set? d.line = set? l)
    (hcode : c.line.kind = .code) {s : Line α}
    (hlast : lastSet? set? (ls.take (c.line.index + 1)) = some s)
    (hsb : s.index ∈ (cs ++ c :: ds).map (·.line.index)) (v w : β) :
    carry set? v ((cs ++ [c]).map Copy.line) = carry set? w (ls.take (c.line.index + 1)) := by
  have hn := Line.map_index_readAll hl
  -- Labels move among the copies, so only the code lines are known to come in order.
  have hcut : (cs ++ [c]).filter (·.line.isCode) = cs.filter (·.line.isCode) ++ [c] := by
    simp [Line.isCode_iff.2 hcode]
  have hsplit : (cs ++ c :: ds).filter (·.line.isCode) =
      (cs ++ [c]).filter (·.line.isCode) ++ ds.filter (·.line.isCode) := by
    rw [← List.filter_append, List.append_assoc, List.singleton_append]
  rw [hsplit, List.map_append] at hp
  obtain ⟨hfirst, -, hlater⟩ := List.pairwise_append.1 hp
  rw [← hs.carry_code]
  refine carry_eq_of_lastSet?_mem Line.index
    ((Line.pairwise_index hn).sublist (List.take_sublist _ _)) hfirst (fun r hr ↦ ?_) hlast ?_ v w
  · obtain ⟨d, hd, rfl⟩ := List.mem_map.1 hr
    have hle : d.line.index ≤ c.line.index := by
      rw [hcut, List.map_append] at hfirst
      rw [hcut] at hd
      rcases List.mem_append.1 hd with hd | hd
      · exact Nat.le_of_lt ((List.pairwise_append.1 hfirst).2.2 d.line
          (List.mem_map_of_mem hd) c.line (by simp))
      · rw [List.mem_singleton.1 hd]
    have hdb : d ∈ (cs ++ c :: ds).filter (·.line.isCode) := hsplit ▸ List.mem_append_left _ hd
    obtain ⟨l, hlm, hli, hrl⟩ := hset d (List.mem_of_mem_filter hdb)
    exact ⟨l, Line.mem_take_of_index_lt hn hlm (by omega), hli, hrl⟩
  · obtain ⟨d, hd, hds⟩ := List.mem_map.1 hsb
    obtain ⟨l, hlm, hli, hdl⟩ := hset d hd
    have hsm := mem_of_lastSet? hlast
    have hls : l = s := Line.eq_of_index_eq hn hlm (List.mem_of_mem_take hsm) (hli.trans hds)
    have hdcode : d.line.isCode = true := by
      refine hs.isCode_of_isSome ?_
      rw [hdl, hls]
      exact isSome_of_lastSet? hlast
    have hdm : d ∈ (cs ++ c :: ds).filter (·.line.isCode) := List.mem_filter.2 ⟨hd, hdcode⟩
    rw [hsplit] at hdm
    refine List.mem_map.2 ⟨d.line, List.mem_map_of_mem ?_, hds⟩
    refine (List.mem_append.1 hdm).resolve_right fun h ↦ ?_
    have hlt := hlater c.line (List.mem_map_of_mem (by simp [hcut])) d.line (List.mem_map_of_mem h)
    have := Line.index_lt_of_mem_take hn hsm
    omega

theorem forall₂_output [OneLine α] {ss : List (Stretch α)} {x y z : List (Entry α)}
    (ho : assemble o program = .ok out) (hout : Line.readAll out = .ok outs)
    (hss : stretches o program = .ok ss) (hbanner : ∀ t ∈ o.banner, IsRemark t)
    (hes : ss.flatMap Stretch.entries = x ++ (y ++ z)) :
    List.Forall₂ (fun t r ↦ ∃ i, Line.readAt i t = .ok r) (y.map Entry.text)
      ((outs.drop x.length).take y.length) := by
  rw [readAll_assemble ho hss hbanner, hes, List.map_append, List.map_append] at hout
  have h := List.forall₂_take y.length
    (List.forall₂_drop x.length (Line.forall₂_readFrom hout))
  have hn : x.length = (x.map Entry.text).length := (List.length_map _).symm
  rwa [hn, List.drop_left, ← hn, List.take_left' (List.length_map _)] at h

theorem text_of_read {ts : List Text} {t : Text} {rs : List (Line α)}
    (h : List.Forall₂ (fun t r ↦ ∃ i, Line.readAt i t = .ok r) (ts ++ [t]) rs) :
    rs[ts.length]?.map Line.text = some t := by
  have hd := List.forall₂_drop ts.length h
  rw [List.drop_left] at hd
  obtain ⟨r, _, ⟨i, hi⟩, hnil, hr⟩ := List.forall₂_cons_left_iff.1 hd
  have hg : rs[ts.length]? = some r := by
    rw [← List.head?_drop, hr]
    rfl
  rw [hg, Option.map_some, (Line.readAt_fields hi).2.1]

end Assembly

end StepAndRepeat
