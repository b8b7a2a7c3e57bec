import Mathlib.Logic.Relation
import Svoe.Common.Buckets
import Svoe.Blocks.Ranges
import Svoe.TaskGraph.Grouping

/-!
# Grouping by fixed windows

`OHLCVFD._group_by_fixed_window` scans the window grid: from a covered group of windows it goes on
behind the group, else by one window.  Every covered group is filed under its interval.  Two groups
inside the same block have that block as their value, and the dictionary joins their keys.

* `fixedWindowLoop_eq` : the loop files the groups that the scan finds covered.
* `exists_block_of_groupAt_eq` : groups with the same blocks lie inside one block.
* `groupsExactly_iff` : the keys are exactly the covered groups if and only if no block reaches over
  two successive groups of the scan.
-/

namespace Svoe

open Portion IntervalDict

namespace FixedWindow

/-- The length of a group. -/
def groupS (w : FixedWindow) : ℚ := w.numGroupedWindows * convertStrToSeconds w.window

/-- The interval of the group that starts at `s`. -/
def interval (w : FixedWindow) (s : ℚ) : ClosedInterval ℚ := ⟨s, s + w.groupS⟩

/-- The blocks of the group that starts at `s`. -/
def groupAt (w : FixedWindow) (ranges : List BlockMeta) (s : ℚ) : List BlockMeta :=
  windowGroup ranges s (s + w.groupS)

/-- The test that the group that starts at `s` is fully covered. -/
def Covered (w : FixedWindow) (ranges : List BlockMeta) (s : ℚ) : Prop :=
  coversWindow (w.groupAt ranges s) s (s + w.groupS) = true

instance (w : FixedWindow) (ranges : List BlockMeta) (s : ℚ) : Decidable (w.Covered ranges s) :=
  inferInstanceAs (Decidable (_ = true))

/-- Where the scan goes from `s`. -/
def scanNext (w : FixedWindow) (ranges : List BlockMeta) (s : ℚ) : ℚ :=
  if w.Covered ranges s then s + w.groupS else s + convertStrToSeconds w.window

/-- A round of the loop. -/
def ScanStep (w : FixedWindow) (ranges : List BlockMeta) (stop s s' : ℚ) : Prop :=
  s ≤ stop ∧ s' = w.scanNext ranges s

/-- The group starts that the scan comes to. -/
def Reached (w : FixedWindow) (ranges : List BlockMeta) (s : ℚ) : Prop :=
  ∃ first last start, ranges.head? = some first ∧ ranges.getLast? = some last ∧
    getSamplingBucketTs first.startTs w.window true = .ok start ∧
    Relation.ReflTransGen (w.ScanStep ranges last.endTs) start s

/-- The starts of the groups that the scan finds covered. -/
def coveredStarts (w : FixedWindow) (ranges : List BlockMeta) (stop : ℚ) : ℕ → ℚ → List ℚ
  | 0, _ => []
  | fuel + 1, s =>
    if s ≤ stop then
      (if w.Covered ranges s then [s] else []) ++
        coveredStarts w ranges stop fuel (w.scanNext ranges s)
    else []

end FixedWindow

variable {w : FixedWindow} {ranges : List BlockMeta} {stop start s s' : ℚ} {fuel : ℕ}

/-! ### The scan -/

/-- **The loop** files the covered groups, one after the other. -/
theorem fixedWindowLoop_eq (res : IntervalDict (Cut ℚ) (List BlockMeta)) :
    fixedWindowLoop w ranges stop fuel start res =
      ((w.coveredStarts ranges stop fuel start).map fun s =>
        ((w.interval s).toInterval, w.groupAt ranges s)).foldl
          (fun d p => d.set p.1 p.2) res := by
  induction fuel generalizing start res with
  | zero => rfl
  | succ fuel ih =>
    rw [fixedWindowLoop, FixedWindow.coveredStarts]
    split_ifs with hle hcov
    · have hcov' : coversWindow (windowGroup ranges start
          (start + w.numGroupedWindows * convertStrToSeconds w.window)) start
          (start + w.numGroupedWindows * convertStrToSeconds w.window) = true := hcov
      dsimp only
      rw [if_pos hcov', ih, FixedWindow.scanNext, if_pos hcov]
      rfl
    · have hcov' : ¬ coversWindow (windowGroup ranges start
          (start + w.numGroupedWindows * convertStrToSeconds w.window)) start
          (start + w.numGroupedWindows * convertStrToSeconds w.window) = true := hcov
      dsimp only
      rw [if_neg hcov', ih, FixedWindow.scanNext, if_neg hcov]
      rfl
    · rfl

theorem FixedWindow.window_le_groupS (w : FixedWindow) :
    convertStrToSeconds w.window ≤ w.groupS := by
  have hone : (1 : ℚ) ≤ w.numGroupedWindows := by exact_mod_cast w.pos
  exact le_mul_of_one_le_left (convertStrToSeconds_nonneg w.window) hone

theorem FixedWindow.groupS_pos (w : FixedWindow) (h : 0 < convertStrToSeconds w.window) :
    0 < w.groupS :=
  h.trans_le w.window_le_groupS

/-- A round moves on by a window at least, from a covered group by the whole group. -/
theorem FixedWindow.add_window_le_scanNext (w : FixedWindow) (ranges : List BlockMeta) (s : ℚ) :
    s + convertStrToSeconds w.window ≤ w.scanNext ranges s := by
  have hle := w.window_le_groupS
  rw [FixedWindow.scanNext]
  split_ifs <;> linarith

/-- **What the loop files** are the covered groups that the scan reaches. -/
theorem mem_coveredStarts_iff (hfuel : stop < start + fuel * convertStrToSeconds w.window) :
    s ∈ w.coveredStarts ranges stop fuel start ↔
      Relation.ReflTransGen (w.ScanStep ranges stop) start s ∧ s ≤ stop ∧ w.Covered ranges s := by
  induction fuel generalizing start with
  | zero =>
    have hlt : stop < start := by simpa using hfuel
    refine iff_of_false List.not_mem_nil ?_
    rintro ⟨hreach, hle, -⟩
    -- behind the last block the scan does not go on
    rcases hreach.cases_head with rfl | ⟨t, hstep, -⟩
    · exact hlt.not_ge hle
    · exact hlt.not_ge hstep.1
  | succ fuel ih =>
    rw [FixedWindow.coveredStarts]
    by_cases hle : start ≤ stop
    · have hnext : stop < w.scanNext ranges start + fuel * convertStrToSeconds w.window := by
        have := w.add_window_le_scanNext ranges start
        push_cast at hfuel
        linarith
      rw [if_pos hle, List.mem_append, ih hnext]
      constructor
      · rintro (hs | ⟨hreach, hs⟩)
        · split_ifs at hs with hcov
          · obtain rfl := List.mem_singleton.1 hs
            exact ⟨.refl, hle, hcov⟩
          · cases hs
        · exact ⟨.head ⟨hle, rfl⟩ hreach, hs⟩
      · rintro ⟨hreach, hs⟩
        rcases hreach.cases_head with rfl | ⟨t, ⟨-, rfl⟩, hreach⟩
        · left
          rw [if_pos hs.2]
          exact List.mem_singleton_self _
        · exact .inr ⟨hreach, hs⟩
    · rw [if_neg hle]
      refine iff_of_false List.not_mem_nil ?_
      rintro ⟨hreach, hs, -⟩
      rcases hreach.cases_head with rfl | ⟨t, hstep, -⟩
      · exact hle hs
      · exact hle hstep.1

theorem le_of_mem_coveredStarts (hs : s ∈ w.coveredStarts ranges stop fuel start) : start ≤ s := by
  induction fuel generalizing start with
  | zero => cases hs
  | succ fuel ih =>
    rw [FixedWindow.coveredStarts] at hs
    split_ifs at hs with hle hcov
    · rcases List.mem_append.1 hs with hs | hs
      · exact (List.mem_singleton.1 hs).ge
      · have hnext := w.add_window_le_scanNext ranges start
        have hnonneg := convertStrToSeconds_nonneg w.window
        have := ih hs
        linarith
    · have hnext := w.add_window_le_scanNext ranges start
      have hnonneg := convertStrToSeconds_nonneg w.window
      have := ih hs
      linarith
    · cases hs

/-- Covered groups come one behind the other. -/
theorem pairwise_coveredStarts :
    (w.coveredStarts ranges stop fuel start).Pairwise fun s s' => s + w.groupS ≤ s' := by
  induction fuel generalizing start with
  | zero => exact .nil
  | succ fuel ih =>
    rw [FixedWindow.coveredStarts]
    split_ifs with hle hcov
    · refine List.pairwise_cons.2 ⟨?_, ih⟩
      intro s hs
      have hfrom := le_of_mem_coveredStarts hs
      rwa [FixedWindow.scanNext, if_pos hcov] at hfrom
    · exact ih
    · exact .nil

/-! ### Groups -/

/-- A group has exactly the blocks that intersect its interval. -/
theorem groupAt_eq_filter (hranges : SortedBlocks ranges) (hpos : 0 < w.groupS) :
    w.groupAt ranges s =
      ranges.filter fun m => m.startTs ≤ s + w.groupS ∧ s ≤ m.endTs := by
  refine List.filter_congr ?_
  intro m hm
  have hle := hranges.le m hm
  rw [decide_eq_decide]
  constructor
  · rintro (⟨⟨h1, h2⟩, h3, h4⟩ | ⟨h1, h2⟩ | ⟨h1, h2⟩)
    · exact ⟨h2, h3⟩
    · exact ⟨by linarith, h2⟩
    · exact ⟨h1, by linarith⟩
  · rintro ⟨h1, h2⟩
    by_cases hs : s ≤ m.startTs
    · by_cases he : m.endTs ≤ s + w.groupS
      · exact .inl ⟨⟨hs, h1⟩, h2, he⟩
      · exact .inr (.inr ⟨h1, (not_le.1 he).le⟩)
    · exact .inr (.inl ⟨(not_le.1 hs).le, h2⟩)

theorem covered_iff : w.Covered ranges s ↔ ∃ first last, (w.groupAt ranges s).head? = some first ∧
    (w.groupAt ranges s).getLast? = some last ∧ first.startTs ≤ s ∧ s + w.groupS ≤ last.endTs := by
  unfold FixedWindow.Covered coversWindow
  split
  · next first last hfirst hlast => simp [hfirst, hlast]
  · next hnone =>
    refine iff_of_false (by decide) ?_
    rintro ⟨first, last, hfirst, hlast, -⟩
    exact hnone first last hfirst hlast

/-- The only block of a group inside a block. -/
theorem groupAt_eq_singleton (hranges : SortedBlocks ranges) (hpos : 0 < w.groupS) {m : BlockMeta}
    (hm : m ∈ ranges) (hstart : m.startTs ≤ s) (hend : s + w.groupS ≤ m.endTs) :
    w.groupAt ranges s = [m] := by
  rw [groupAt_eq_filter hranges hpos]
  obtain ⟨front, back, rfl⟩ := List.append_of_mem hm
  obtain ⟨-, hback, hcross⟩ := List.pairwise_append.1 hranges.apart
  have hfront : front.filter (fun m => m.startTs ≤ s + w.groupS ∧ s ≤ m.endTs) = [] := by
    refine List.filter_eq_nil_iff.2 fun x hx => ?_
    have hlt := hcross x hx m List.mem_cons_self
    simp only [decide_eq_true_eq, not_and, not_le]
    intro _
    linarith
  have hback : back.filter (fun m => m.startTs ≤ s + w.groupS ∧ s ≤ m.endTs) = [] := by
    refine List.filter_eq_nil_iff.2 fun x hx => ?_
    have hlt := (List.pairwise_cons.1 hback).1 x hx
    simp only [decide_eq_true_eq, not_and, not_le]
    intro hle
    linarith
  rw [List.filter_append, hfront, List.filter_cons_of_pos, hback]
  · rfl
  · exact decide_eq_true ⟨by linarith, by linarith⟩

theorem covered_of_block (hranges : SortedBlocks ranges) (hpos : 0 < w.groupS) {m : BlockMeta}
    (hm : m ∈ ranges) (hstart : m.startTs ≤ s) (hend : s + w.groupS ≤ m.endTs) :
    w.Covered ranges s := by
  rw [covered_iff, groupAt_eq_singleton hranges hpos hm hstart hend]
  exact ⟨m, m, rfl, rfl, hstart, hend⟩

/-- **Groups with the same blocks** lie inside one block. -/
theorem exists_block_of_groupAt_eq (hranges : SortedBlocks ranges) (hpos : 0 < w.groupS)
    (hlt : s + w.groupS ≤ s') (hcov : w.Covered ranges s) (hcov' : w.Covered ranges s')
    (heq : w.groupAt ranges s = w.groupAt ranges s') :
    ∃ m ∈ ranges, m.startTs ≤ s ∧ s + w.groupS + w.groupS ≤ m.endTs := by
  obtain ⟨first, last, hfirst, hlast, hstart, -⟩ := covered_iff.1 hcov
  obtain ⟨first', last', -, hlast', -, hend⟩ := covered_iff.1 hcov'
  obtain rfl : last = last' := by
    rw [heq] at hlast
    exact Option.some.inj (hlast.symm.trans hlast')
  have hfilter := groupAt_eq_filter (w := w) (s := s) hranges hpos
  have hfilter' := groupAt_eq_filter (w := w) (s := s') hranges hpos
  have hsorted : SortedBlocks (w.groupAt ranges s) :=
    hranges.of_sublist (hfilter ▸ List.filter_sublist)
  have hmem : ∀ m ∈ w.groupAt ranges s, m ∈ ranges ∧ m.startTs ≤ s + w.groupS ∧ s' ≤ m.endTs := by
    intro m hm
    have h1 := hm
    have h2 := heq ▸ hm
    rw [hfilter, List.mem_filter, decide_eq_true_eq] at h1
    rw [hfilter', List.mem_filter, decide_eq_true_eq] at h2
    exact ⟨h1.1, h1.2.1, h2.2.2⟩
  obtain ⟨rest, hgroup⟩ := List.head?_eq_some_iff.1 hfirst
  -- a second block would begin inside the first
  cases rest with
  | cons second rest =>
    rw [hgroup] at hsorted hmem
    have hgap := (List.pairwise_cons.1 hsorted.apart).1 second List.mem_cons_self
    have h1 := (hmem first List.mem_cons_self).2.2
    have h2 := (hmem second (List.mem_cons_of_mem _ List.mem_cons_self)).2.1
    linarith
  | nil =>
    obtain rfl : first = last := by simpa [hgroup] using hlast
    refine ⟨first, (hmem first (by simp [hgroup])).1, hstart, ?_⟩
    linarith

/-! ### The dictionary -/

/-- The keys are exactly the covered groups of the scan, each with the blocks that intersect its
interval.  A key ends before the end of its interval if the next group begins there. -/
structure GroupsExactly (w : FixedWindow) (ranges : List BlockMeta)
    (d : IntervalDict (Cut ℚ) (List BlockMeta)) : Prop where
  keys : ∀ I group, (I, group) ∈ d.items → ∃ s, (∃ n : ℤ, s = n * convertStrToSeconds w.window) ∧
    CutKey (w.interval s) I ∧
    (group = ranges.filter fun m => m.startTs ≤ s + w.groupS ∧ s ≤ m.endTs) ∧
    ∃ first last, group.head? = some first ∧ group.getLast? = some last ∧
      first.startTs ≤ s ∧ s + w.groupS ≤ last.endTs
  own : ∀ s, w.Reached ranges s → w.Covered ranges s →
    ∃ I group, (I, group) ∈ d.items ∧ CutKey (w.interval s) I

theorem le_stop_of_covered (hranges : SortedBlocks ranges) {last : BlockMeta}
    (hlast : ranges.getLast? = some last) (hpos : 0 < w.groupS) (hcov : w.Covered ranges s) :
    s ≤ last.endTs := by
  obtain ⟨-, m, -, hm, -, hend⟩ := covered_iff.1 hcov
  have hmem : m ∈ ranges := by
    have := List.mem_of_getLast? hm
    rw [groupAt_eq_filter hranges hpos] at this
    exact List.mem_of_mem_filter this
  have hle : m.endTs ≤ last.endTs := by
    obtain ⟨front, rfl⟩ := List.getLast?_eq_some_iff.1 hlast
    rcases List.mem_append.1 hmem with hmem | hmem
    · have hlt := (List.pairwise_append.1 hranges.apart).2.2 m hmem last (by simp)
      exact (hlt.trans_le (hranges.le last (by simp))).le
    · rw [List.mem_singleton.1 hmem]
  linarith

/-- The scan stays on the window grid. -/
theorem aligned_of_reached (hday : w.window.DividesDay) (hs : w.Reached ranges s) :
    ∃ n : ℤ, s = n * convertStrToSeconds w.window := by
  obtain ⟨first, last, start, -, -, hstart, hreach⟩ := hs
  rw [getSamplingBucketTs_start hday.accepted, bucketStart_eq_floorTo hday] at hstart
  obtain rfl := Except.ok.inj hstart
  induction hreach with
  | refl => exact ⟨_, rfl⟩
  | tail _ hstep ih =>
    obtain ⟨n, rfl⟩ := ih
    obtain ⟨-, rfl⟩ := hstep
    rw [FixedWindow.scanNext]
    split_ifs
    · refine ⟨n + w.numGroupedWindows, ?_⟩
      rw [FixedWindow.groupS]
      push_cast
      ring
    · refine ⟨n + 1, ?_⟩
      push_cast
      ring

/-- **What the grouping files**: the groups that the scan reaches and finds covered. -/
theorem exists_groupByFixedWindow_eq (hday : w.window.DividesDay) (hranges : SortedBlocks ranges)
    (hne : ranges ≠ []) :
    ∃ starts : List ℚ, groupByFixedWindow w ranges = .ok (ofItems ((starts.map fun s =>
        (w.interval s, w.groupAt ranges s)).map fun p => (p.1.toInterval, p.2))) ∧
      (starts.Pairwise fun s s' => s + w.groupS ≤ s') ∧
      ∀ s, s ∈ starts ↔ w.Reached ranges s ∧ w.Covered ranges s := by
  have hwindow := hday.accepted.pos
  have hfirst := List.head?_eq_some_head hne
  have hlast := List.getLast?_eq_some_getLast hne
  set first := ranges.head hne
  set last := ranges.getLast hne
  have hstart := getSamplingBucketTs_start hday.accepted first.startTs
  refine ⟨w.coveredStarts ranges last.endTs
    (windowRounds w (bucketStart w.window first.startTs) last.endTs)
    (bucketStart w.window first.startTs), ?_, pairwise_coveredStarts, fun s => ?_⟩
  · unfold groupByFixedWindow
    rw [hfirst, hlast]
    dsimp only
    rw [hstart]
    dsimp only
    rw [fixedWindowLoop_eq, ofItems, List.map_map]
    rfl
  · rw [mem_coveredStarts_iff (lt_windowRounds w _ _ hwindow)]
    constructor
    · rintro ⟨hreach, -, hcov⟩
      exact ⟨⟨first, last, _, hfirst, hlast, hstart, hreach⟩, hcov⟩
    · rintro ⟨⟨first', last', start', hfirst', hlast', hstart', hreach⟩, hcov⟩
      obtain rfl := Option.some.inj (hfirst.symm.trans hfirst')
      obtain rfl := Option.some.inj (hlast.symm.trans hlast')
      obtain rfl := Except.ok.inj (hstart.symm.trans hstart')
      exact ⟨hreach, le_stop_of_covered hranges hlast (w.groupS_pos hwindow) hcov, hcov⟩

theorem FixedWindow.interval_lt (hpos : 0 < w.groupS) (s : ℚ) :
    (w.interval s).lower < (w.interval s).upper :=
  lt_add_of_pos_right s hpos

/-- The key of a group has its start. -/
theorem eq_of_cutKey (hpos : 0 < w.groupS) {I : Portion.Interval (Cut ℚ)}
    (h : CutKey (w.interval s) I) (h' : CutKey (w.interval s') I) : s = s' := by
  have hhull := (h.hull_eq (w.interval_lt hpos s)).symm.trans (h'.hull_eq (w.interval_lt hpos s'))
  exact congrArg ClosedInterval.lower (Option.some.inj hhull)

/-- Both groups inside a block have it as their value, so that they would have one key. -/
theorem GroupsExactly.lt_of_reached {d : IntervalDict (Cut ℚ) (List BlockMeta)}
    (h : GroupsExactly w ranges d) (hranges : SortedBlocks ranges) (hpos : 0 < w.groupS)
    (hs : w.Reached ranges s) {m : BlockMeta} (hm : m ∈ ranges) (hle : m.startTs ≤ s) :
    m.endTs < s + w.groupS + w.groupS := by
  by_contra hwide
  rw [not_lt] at hwide
  have hcov := covered_of_block (s := s) hranges hpos hm hle (by linarith)
  have hcov' := covered_of_block (s := s + w.groupS) hranges hpos hm (by linarith) hwide
  have hnext : w.Reached ranges (s + w.groupS) := by
    obtain ⟨first, last, start, hfirst, hlast, hstart, hreach⟩ := hs
    refine ⟨first, last, start, hfirst, hlast, hstart, hreach.tail ⟨?_, ?_⟩⟩
    · exact le_stop_of_covered hranges hlast hpos hcov
    · rw [FixedWindow.scanNext, if_pos hcov]
  have hvalue : ∀ t I group, (I, group) ∈ d.items → CutKey (w.interval t) I →
      group = w.groupAt ranges t := by
    intro t I group hI hcut
    obtain ⟨t', -, hcut', hgroup, -⟩ := h.keys I group hI
    obtain rfl := eq_of_cutKey hpos hcut hcut'
    rw [hgroup, groupAt_eq_filter hranges hpos]
  obtain ⟨I, group, hI, hcut⟩ := h.own s hs hcov
  obtain ⟨I', group', hI', hcut'⟩ := h.own _ hnext hcov'
  have hgroup := (hvalue s I group hI hcut).trans
    (groupAt_eq_singleton hranges hpos hm hle (by linarith))
  have hgroup' := (hvalue _ I' group' hI' hcut').trans
    (groupAt_eq_singleton hranges hpos hm (by linarith) hwide)
  obtain rfl : I = I' := eq_of_value (hgroup ▸ hI) (hgroup' ▸ hI')
  have hsame := eq_of_cutKey hpos hcut hcut'
  linarith

/-- If no block reaches over two successive groups, all groups have different values. -/
theorem groupsExactly_ofItems (hday : w.window.DividesDay) (hranges : SortedBlocks ranges)
    {starts : List ℚ} (hpair : starts.Pairwise fun s s' => s + w.groupS ≤ s')
    (hmem : ∀ s, s ∈ starts ↔ w.Reached ranges s ∧ w.Covered ranges s)
    (hwide : ∀ s, w.Reached ranges s → ∀ m ∈ ranges, m.startTs ≤ s →
      m.endTs < s + w.groupS + w.groupS) :
    GroupsExactly w ranges (ofItems ((starts.map fun s =>
      (w.interval s, w.groupAt ranges s)).map fun p => (p.1.toInterval, p.2))) := by
  have hpos := w.groupS_pos hday.accepted.pos
  have htouch : (starts.map fun s => (w.interval s, w.groupAt ranges s)).Pairwise
      fun p q => p.1.upper ≤ q.1.lower := List.pairwise_map.2 hpair
  have hitems := items_ofItems_touching (l := starts.map fun s =>
      (w.interval s, w.groupAt ranges s)) (by
    intro p hp
    obtain ⟨s, -, rfl⟩ := List.mem_map.1 hp
    exact (w.interval_lt hpos s).le) (List.pairwise_map.2 (hpair.imp_of_mem (by
    intro s s' hs hs' hle
    refine ⟨hle, fun hvalue => ?_⟩
    obtain ⟨hreach, hcov⟩ := (hmem s).1 hs
    obtain ⟨m, hm, hstart, hend⟩ :=
      exists_block_of_groupAt_eq hranges hpos hle hcov ((hmem s').1 hs').2 hvalue
    exact (hwide s hreach m hm hstart).not_ge hend)))
  constructor
  · intro I group hI
    rw [hitems] at hI
    obtain ⟨q, hq, hgroup, hcut⟩ := cutKey_of_mem_residuals (List.mem_of_mem_filter hI) htouch
    obtain ⟨s, hs, rfl⟩ := List.mem_map.1 hq
    obtain ⟨hreach, hcov⟩ := (hmem s).1 hs
    obtain rfl : group = w.groupAt ranges s := hgroup
    exact ⟨s, aligned_of_reached hday hreach, hcut, groupAt_eq_filter hranges hpos,
      covered_iff.1 hcov⟩
  · intro s hs hcov
    obtain ⟨I, hI, hcut⟩ := exists_mem_residuals (q := (w.interval s, w.groupAt ranges s))
      (List.mem_map.2 ⟨s, (hmem s).2 ⟨hs, hcov⟩, rfl⟩) htouch
    refine ⟨I, w.groupAt ranges s, ?_, hcut⟩
    rw [hitems]
    exact List.mem_filter.2 ⟨hI, decide_eq_true (hcut.ne_empty (w.interval_lt hpos s))⟩

/-- **The keys are exactly the covered groups if and only if no block reaches over two successive
groups of the scan.** -/
theorem groupsExactly_iff (hday : w.window.DividesDay) (hranges : SortedBlocks ranges)
    (hne : ranges ≠ []) :
    (∃ d, groupByFixedWindow w ranges = .ok d ∧ GroupsExactly w ranges d) ↔
      ∀ s, w.Reached ranges s → ∀ m ∈ ranges, m.startTs ≤ s →
        m.endTs < s + w.groupS + w.groupS := by
  have hpos := w.groupS_pos hday.accepted.pos
  constructor
  · rintro ⟨d, -, hexact⟩ s hs m hm hle
    exact hexact.lt_of_reached hranges hpos hs hm hle
  · intro hwide
    obtain ⟨starts, hok, hpair, hmem⟩ := exists_groupByFixedWindow_eq hday hranges hne
    exact ⟨_, hok, groupsExactly_ofItems hday hranges hpair hmem hwide⟩

/-- Blocks of four seconds, and groups of one window of eight. -/
theorem groupsExactly_iff_eightSeconds :
    (∃ d, groupByFixedWindow ⟨⟨8, .s⟩, 1, one_pos⟩ [⟨6, 9, "a"⟩, ⟨10, 17, "b"⟩] = .ok d ∧
        GroupsExactly ⟨⟨8, .s⟩, 1, one_pos⟩ [⟨6, 9, "a"⟩, ⟨10, 17, "b"⟩] d) ↔
      ∀ s, FixedWindow.Reached ⟨⟨8, .s⟩, 1, one_pos⟩ [⟨6, 9, "a"⟩, ⟨10, 17, "b"⟩] s →
        ∀ m ∈ [(⟨6, 9, "a"⟩ : BlockMeta), ⟨10, 17, "b"⟩], m.startTs ≤ s → m.endTs < s +
          FixedWindow.groupS ⟨⟨8, .s⟩, 1, one_pos⟩ + FixedWindow.groupS ⟨⟨8, .s⟩, 1, one_pos⟩ := by
  refine groupsExactly_iff ⟨10800, ?_⟩ ⟨?_, ?_⟩ (by simp)
  · norm_num [convertStrToSeconds, TimeUnit.seconds]
  · norm_num
  · norm_num

/-- A block of two windows: its two groups have one key. -/
theorem not_groupsExactly_longBlock :
    (groupByFixedWindow ⟨⟨1, .s⟩, 1, one_pos⟩ [⟨0, 2, "a"⟩]).map IntervalDict.items =
        .ok [((⟨0, 2⟩ : ClosedInterval ℚ).toInterval, [⟨0, 2, "a"⟩])] ∧
      ¬ ∃ d, groupByFixedWindow ⟨⟨1, .s⟩, 1, one_pos⟩ [⟨0, 2, "a"⟩] = .ok d ∧
        GroupsExactly ⟨⟨1, .s⟩, 1, one_pos⟩ [⟨0, 2, "a"⟩] d := by
  have hrun : (groupByFixedWindow ⟨⟨1, .s⟩, 1, one_pos⟩ [⟨0, 2, "a"⟩]).map IntervalDict.items =
      .ok [((⟨0, 2⟩ : ClosedInterval ℚ).toInterval, [⟨0, 2, "a"⟩])] := by
    decide +kernel
  refine ⟨hrun, ?_⟩
  rintro ⟨d, hd, hexact⟩
  rw [hd] at hrun
  have hitems : d.items = [((⟨0, 2⟩ : ClosedInterval ℚ).toInterval, [⟨0, 2, "a"⟩])] :=
    Except.ok.inj hrun
  obtain ⟨s, -, hcut, -⟩ := hexact.keys (⟨0, 2⟩ : ClosedInterval ℚ).toInterval [⟨0, 2, "a"⟩]
    (hitems ▸ List.mem_singleton_self _)
  -- the key is two seconds long, an interval of one window is not
  have hhull := hcut.hull_eq (FixedWindow.interval_lt (by
    norm_num [FixedWindow.groupS, convertStrToSeconds, TimeUnit.seconds]) s)
  rw [Interval.hull_toInterval (by norm_num)] at hhull
  have hJ := Option.some.inj hhull
  have hlower : (0 : ℚ) = s := congrArg ClosedInterval.lower hJ
  have hupper : (2 : ℚ) = s + FixedWindow.groupS ⟨⟨1, .s⟩, 1, one_pos⟩ :=
    congrArg ClosedInterval.upper hJ
  norm_num [FixedWindow.groupS, convertStrToSeconds, TimeUnit.seconds, ← hlower] at hupper

end Svoe
