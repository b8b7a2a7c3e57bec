import Mathlib.Data.List.Chain
import Svoe.Blocks.Ranges

/-!
# Ranges and their keys

`make_ranges` cuts a list of blocks where two neighbours are more than a second apart, by their
unrounded timestamps; `ranges_to_interval_dict` files the ranges under rounded ones.  Rounding moves
an end by half a millisecond at most, so that different ranges keep disjoint keys.

* `isChain_makeRangesLoop` : neighbours inside a range.
* `makeRanges_faithful` : the ranges are a partition of the blocks, and so are their keys.
-/

namespace Svoe

open Portion

/-- The second block starts at most a second after the end of the first. -/
def Near (m m' : BlockMeta) : Prop := m'.startTs - m.endTs ≤ sameRangeDiffS

/-- Blocks join a range only if they are near the one before. -/
theorem isChain_makeRangesLoop {curRange data : List BlockMeta}
    (h : (curRange ++ data.take 1).IsChain Near) :
    ∀ r ∈ makeRangesLoop curRange data, r.IsChain Near := by
  fun_induction makeRangesLoop curRange data with
  | case1 => simp
  | case2 curRange hne =>
    intro r hr
    rw [List.mem_singleton.1 hr]
    simpa using h
  | case3 curRange m ih => exact ih (by simpa using h)
  | case4 curRange m m' data hgap ih =>
    intro r hr
    rcases List.mem_cons.1 hr with rfl | hr
    · exact h
    · exact ih (List.isChain_singleton m') r hr
  | case5 curRange m m' data hgap ih =>
    refine ih ?_
    rw [List.isChain_append]
    refine ⟨h, List.isChain_singleton m', ?_⟩
    intro x hx y hy
    obtain rfl : m = x := by simpa using hx
    obtain rfl : m' = y := by simpa using hy
    exact not_lt.1 hgap

/-- What a faithful partition of blocks into ranges is, with the dictionary that the ranges are
filed in. -/
structure FaithfulRanges (data : List BlockMeta) (ranges : List (List BlockMeta))
    (d : IntervalDict (Cut ℚ) (List BlockMeta)) : Prop where
  nonempty : ∀ r ∈ ranges, r ≠ []
  concat : ranges.flatten = data
  near : ∀ r ∈ ranges, r.IsChain fun m m' => m'.startTs - m.endTs ≤ 1
  far : ranges.IsChain fun r r' => ∀ m ∈ r.getLast?, ∀ m' ∈ r'.head?, 1 < m'.startTs - m.endTs
  /-- One key for each range, in their order. -/
  keys : d.values = ranges
  /-- The interval of a block lies inside the key of its own range and of no other. -/
  inside : ∀ r ∈ ranges, ∀ m ∈ r, ∃ J, metaToInterval m = .ok J ∧ J.lower ≤ J.upper ∧
    ∀ I r', (I, r') ∈ d.items → ((∀ c ∈ J.toInterval, c ∈ I) ↔ r' = r)

/-- A block lies inside the hull of its own range only. -/
theorem RangeSeq.interval_sub_iff {ranges : List (List BlockMeta)} (h : RangeSeq ranges)
    {r r' : List BlockMeta} (hr : r ∈ ranges) (hr' : r' ∈ ranges) {m : BlockMeta} (hm : m ∈ r) :
    (∀ c ∈ m.interval.toInterval, c ∈ (rangeHull r').toInterval) ↔ r' = r := by
  obtain ⟨hlow, hup⟩ := (h.sorted r hr).interval_sub_hull hm
  have hle := (h.sorted r hr).interval_le hm
  have hmem : m.interval.lower ∈ m.interval := ⟨le_rfl, hle⟩
  constructor
  · intro hsub
    have hin' := ClosedInterval.before_mem_toInterval.1
      (hsub _ (ClosedInterval.before_mem_toInterval.2 hmem))
    -- the start of the block is in both hulls
    exact (rangesToIntervalDict_spec h.rangesToIntervalDict_eq).eq_of_mem hr' hr hin'
      ⟨hlow, hle.trans hup⟩
  · rintro rfl c hc
    rw [ClosedInterval.toInterval, Interval.mem_ofCuts] at hc ⊢
    exact ⟨(before_le_before.2 hlow).trans hc.1, hc.2.trans_le (after_le_after.2 hup)⟩

/-- **Range building is a faithful partition.** -/
theorem makeRanges_faithful {data : List BlockMeta} (h : SortedBlocks data) :
    ∃ d, rangesToIntervalDict (makeRanges data) = .ok d ∧
      FaithfulRanges data (makeRanges data) d := by
  have hseq := rangeSeq_makeRanges h
  refine ⟨hullDict (makeRanges data), hseq.rangesToIntervalDict_eq, ?_⟩
  constructor
  · exact hseq.nonempty
  · exact flatten_makeRanges data
  · refine isChain_makeRangesLoop ?_
    rw [List.nil_append]
    cases data with
    | nil => exact List.isChain_nil
    | cons m data => exact List.isChain_singleton m
  · refine (pairwise_makeRanges h).isChain.imp ?_
    intro r r' hrr m hm m' hm'
    have hlt := hrr m (List.mem_of_getLast? hm) m' (List.mem_of_head? hm')
    rw [sameRangeDiffS] at hlt
    linarith
  · rw [IntervalDict.values, hseq.items_hullDict, List.map_map]
    exact List.map_id _
  · intro r hr m hm
    refine ⟨m.interval, metaToInterval_of_le ((hseq.sorted r hr).le m hm),
      (hseq.sorted r hr).interval_le hm, ?_⟩
    intro I r' hI
    rw [hseq.items_hullDict] at hI
    obtain ⟨r'', hr'', heq⟩ := List.mem_map.1 hI
    obtain ⟨rfl, rfl⟩ := Prod.mk.inj heq
    exact hseq.interval_sub_iff hr hr'' hm

/-- Two ranges, the first of blocks that end at the same millisecond. -/
theorem makeRanges_faithful_sameMillisecond :
    ∃ d, rangesToIntervalDict (makeRanges [⟨0, 1, "a"⟩, ⟨1 + 1 / 10000, 1 + 2 / 10000, "b"⟩,
        ⟨3, 4, "c"⟩]) = .ok d ∧
      FaithfulRanges [⟨0, 1, "a"⟩, ⟨1 + 1 / 10000, 1 + 2 / 10000, "b"⟩, ⟨3, 4, "c"⟩]
        (makeRanges [⟨0, 1, "a"⟩, ⟨1 + 1 / 10000, 1 + 2 / 10000, "b"⟩, ⟨3, 4, "c"⟩]) d := by
  refine makeRanges_faithful ⟨?_, ?_⟩
  · norm_num
  · norm_num

end Svoe
