import Svoe.Blocks.OverlapsSpec

/-!
# Ranges of blocks and their overlaps

`make_ranges` joins consecutive blocks that are at most a second apart into ranges, and
`ranges_to_interval_dict` files every range under its hull.  The overlaps of several sources are
those of the hulls; `prune_overlaps` then keeps the blocks that intersect them, and raises if there
are none.

* `flatten_makeRanges`, `pairwise_makeRanges` : the ranges are the blocks, cut at the large gaps.
* `rangesToIntervalDict_eq` : ranges are filed without an error.
* `SourcesFiled.mem_overlaps_iff`, `SourcesFiled.pruneOverlaps_eq_ok_iff` : the overlaps of filed
  ranges, and what pruning leaves of them.
* `pruneOverlaps_iff` : pruning succeeds, with all blocks that intersect the overlaps, if and only
  if no overlap lies in a gap of a range.
-/

namespace Svoe

open Portion

/-! ### Ranges -/

/-- `SAME_RANGE_DIFF_S`. -/
def sameRangeDiffS : ℚ := 1

/-- The loop of `make_ranges`, with `cur_range`. -/
def makeRangesLoop (curRange : List BlockMeta) : List BlockMeta → List (List BlockMeta)
  | [] => if curRange = [] then [] else [curRange]
  | [m] => makeRangesLoop (curRange ++ [m]) []
  | m :: m' :: data =>
    if m'.startTs - m.endTs > sameRangeDiffS then
      (curRange ++ [m]) :: makeRangesLoop [] (m' :: data)
    else makeRangesLoop (curRange ++ [m]) (m' :: data)

/-- `make_ranges`. -/
def makeRanges (data : List BlockMeta) : List (List BlockMeta) := makeRangesLoop [] data

/-- `range_meta_to_interval`. -/
def rangeMetaToInterval (range : List BlockMeta) : Except PyError (ClosedInterval ℚ) :=
  match range.head?, range.getLast? with
  | some first, some last =>
    if roundFloat first.startTs > roundFloat last.endTs then
      .error (.value "start_ts cannot be greater than end_ts")
    else .ok ⟨roundFloat first.startTs, roundFloat last.endTs⟩
  | _, _ => .error .index

/-- One round of `ranges_to_interval_dict`. -/
def fileRange (res : IntervalDict (Cut ℚ) (List BlockMeta)) (range : List BlockMeta) :
    Except PyError (IntervalDict (Cut ℚ) (List BlockMeta)) :=
  match rangeMetaToInterval range with
  | .error e => .error e
  | .ok interval =>
    if overlapsKeys interval.toInterval res then .error (.value "Overlapping intervals")
    else .ok (res.set interval.toInterval range)

/-- `ranges_to_interval_dict`. -/
def rangesToIntervalDict (ranges : List (List BlockMeta)) :
    Except PyError (IntervalDict (Cut ℚ) (List BlockMeta)) :=
  ranges.foldlM fileRange .empty

/-! ### What ranges are -/

/-- Blocks in the order of their disjoint intervals. -/
structure SortedBlocks (metas : List BlockMeta) : Prop where
  le : ∀ m ∈ metas, m.startTs ≤ m.endTs
  apart : metas.Pairwise fun m m' => m.endTs < m'.startTs

theorem flatten_makeRangesLoop (curRange data : List BlockMeta) :
    (makeRangesLoop curRange data).flatten = curRange ++ data := by
  fun_induction makeRangesLoop curRange data with
  | case1 => rfl
  | case2 curRange h => simp
  | case3 curRange m ih => rw [ih, List.append_nil]
  | case4 curRange m m' data hgap ih => rw [List.flatten_cons, ih]; simp
  | case5 curRange m m' data hgap ih => rw [ih]; simp

/-- No block is lost or moved. -/
theorem flatten_makeRanges (data : List BlockMeta) : (makeRanges data).flatten = data :=
  flatten_makeRangesLoop [] data

theorem ne_nil_of_mem_makeRangesLoop {curRange data : List BlockMeta} {r : List BlockMeta}
    (h : r ∈ makeRangesLoop curRange data) : r ≠ [] := by
  fun_induction makeRangesLoop curRange data with
  | case1 => cases h
  | case2 curRange hne => exact (List.mem_singleton.1 h) ▸ hne
  | case3 curRange m ih => exact ih h
  | case4 curRange m m' data hgap ih =>
    rcases List.mem_cons.1 h with rfl | h
    · simp
    · exact ih h
  | case5 curRange m m' data hgap ih => exact ih h

theorem ne_nil_of_mem_makeRanges {data r : List BlockMeta} (h : r ∈ makeRanges data) : r ≠ [] :=
  ne_nil_of_mem_makeRangesLoop h

/-- Blocks of different ranges are more than a second apart. -/
theorem pairwise_makeRangesLoop {curRange data : List BlockMeta}
    (h : SortedBlocks (curRange ++ data)) :
    (makeRangesLoop curRange data).Pairwise fun r r' =>
      ∀ m ∈ r, ∀ m' ∈ r', m.endTs + sameRangeDiffS < m'.startTs := by
  fun_induction makeRangesLoop curRange data with
  | case1 => exact .nil
  | case2 curRange hne => exact List.pairwise_singleton _ _
  | case3 curRange m ih => exact ih (by simpa using h)
  | case4 curRange m m' data hgap ih =>
    have happ : SortedBlocks ((curRange ++ [m]) ++ (m' :: data)) := by simpa using h
    obtain ⟨hcur, htail, hcross⟩ := List.pairwise_append.1 happ.apart
    refine List.pairwise_cons.2 ⟨fun r' hr' a ha b hb => ?_, ih ⟨fun x hx => ?_, htail⟩⟩
    · have hb' : b ∈ m' :: data := by
        have hflat := flatten_makeRangesLoop [] (m' :: data)
        rw [List.nil_append] at hflat
        exact hflat ▸ List.mem_flatten.2 ⟨r', hr', hb⟩
      -- everything up to `m` ends by its end, everything from `m'` on starts with it
      have hup : a.endTs ≤ m.endTs := by
        rcases List.mem_append.1 ha with ha | ha
        · exact ((List.pairwise_append.1 hcur).2.2 a ha m (by simp)).le.trans
            (happ.le m (by simp))
        · rw [List.mem_singleton.1 ha]
      have hlow : m'.startTs ≤ b.startTs := by
        rcases List.mem_cons.1 hb' with rfl | hb'
        · exact le_rfl
        · exact (happ.le m' (by simp)).trans ((List.pairwise_cons.1 htail).1 b hb').le
      linarith
    · exact happ.le x (List.mem_append_right _ hx)
  | case5 curRange m m' data hgap ih => exact ih (by simpa using h)

theorem pairwise_makeRanges {data : List BlockMeta} (h : SortedBlocks data) :
    (makeRanges data).Pairwise fun r r' =>
      ∀ m ∈ r, ∀ m' ∈ r', m.endTs + sameRangeDiffS < m'.startTs :=
  pairwise_makeRangesLoop h

/-! ### Hulls -/

/-- The interval of a block. -/
def BlockMeta.interval (m : BlockMeta) : ClosedInterval ℚ :=
  ⟨roundFloat m.startTs, roundFloat m.endTs⟩

/-- The interval of a range: from the start of its first block to the end of its last. -/
def rangeHull (range : List BlockMeta) : ClosedInterval ℚ :=
  ⟨roundFloat ((range.head?.map BlockMeta.startTs).getD 0),
    roundFloat ((range.getLast?.map BlockMeta.endTs).getD 0)⟩

theorem SortedBlocks.of_sublist {metas l : List BlockMeta} (h : SortedBlocks metas)
    (hl : l.Sublist metas) : SortedBlocks l :=
  ⟨fun m hm => h.le m (hl.subset hm), h.apart.sublist hl⟩

/-- The blocks of a range lie inside its hull. -/
theorem SortedBlocks.interval_sub_hull {range : List BlockMeta} (h : SortedBlocks range)
    {m : BlockMeta} (hm : m ∈ range) :
    (rangeHull range).lower ≤ m.interval.lower ∧ m.interval.upper ≤ (rangeHull range).upper := by
  constructor
  · refine roundFloat_mono ?_
    obtain ⟨first, rest, rfl⟩ := List.exists_cons_of_ne_nil (List.ne_nil_of_mem hm)
    simp only [List.head?_cons, Option.map_some, Option.getD_some]
    rcases List.mem_cons.1 hm with rfl | hm
    · exact le_rfl
    · exact (h.le first List.mem_cons_self).trans ((List.pairwise_cons.1 h.apart).1 m hm).le
  · refine roundFloat_mono ?_
    rcases range.eq_nil_or_concat with rfl | ⟨front, last, rfl⟩
    · cases hm
    · simp only [List.concat_eq_append] at h hm ⊢
      simp only [List.getLast?_append, List.getLast?_singleton, Option.some_or, Option.map_some,
        Option.getD_some]
      rcases List.mem_append.1 hm with hm | hm
      · exact ((List.pairwise_append.1 h.apart).2.2 m hm last (by simp)).le.trans
          (h.le last (by simp))
      · rw [List.mem_singleton.1 hm]

theorem SortedBlocks.interval_le {range : List BlockMeta} (h : SortedBlocks range)
    {m : BlockMeta} (hm : m ∈ range) : m.interval.lower ≤ m.interval.upper :=
  roundFloat_mono (h.le m hm)

theorem SortedBlocks.hull_le {range : List BlockMeta} (h : SortedBlocks range)
    (hne : range ≠ []) : (rangeHull range).lower ≤ (rangeHull range).upper := by
  obtain ⟨m, hm⟩ := List.exists_mem_of_ne_nil range hne
  obtain ⟨hlow, hup⟩ := h.interval_sub_hull hm
  exact hlow.trans ((h.interval_le hm).trans hup)

theorem SortedBlocks.rangeMetaToInterval_eq {range : List BlockMeta} (h : SortedBlocks range)
    (hne : range ≠ []) : rangeMetaToInterval range = .ok (rangeHull range) := by
  have hle := h.hull_le hne
  have hfirst := List.head?_eq_some_head hne
  have hlast := List.getLast?_eq_some_getLast hne
  simp only [rangeHull, hfirst, hlast, Option.map_some, Option.getD_some] at hle
  simp only [rangeMetaToInterval, rangeHull, hfirst, hlast, Option.map_some, Option.getD_some]
  rw [if_neg (not_lt.2 hle)]

theorem rangeMetaToInterval_eq_ok {range : List BlockMeta} {J : ClosedInterval ℚ}
    (h : rangeMetaToInterval range = .ok J) :
    range ≠ [] ∧ J = rangeHull range ∧ J.lower ≤ J.upper := by
  unfold rangeMetaToInterval at h
  split at h
  · next first last hfirst hlast =>
    split_ifs at h with hle
    rw [← Except.ok.inj h]
    refine ⟨fun hnil => by simp [hnil] at hfirst, ?_, not_lt.1 hle⟩
    rw [rangeHull, hfirst, hlast]
    rfl
  · cases h

/-- What it means that ranges have been filed. -/
structure RangesFiled (ranges : List (List BlockMeta))
    (d : IntervalDict (Cut ℚ) (List BlockMeta)) : Prop where
  nonempty : ∀ r ∈ ranges, r ≠ [] ∧ (rangeHull r).lower ≤ (rangeHull r).upper
  apart : ranges.Pairwise fun r r' => ∀ t ∈ rangeHull r, t ∉ rangeHull r'
  items : ∀ I r, (I, r) ∈ d.items ↔ r ∈ ranges ∧ I = (rangeHull r).toInterval

/-- A point is in the hull of one range at most. -/
theorem RangesFiled.eq_of_mem {ranges : List (List BlockMeta)}
    {d : IntervalDict (Cut ℚ) (List BlockMeta)} (h : RangesFiled ranges d) {r r' : List BlockMeta}
    (hr : r ∈ ranges) (hr' : r' ∈ ranges) {t : ℚ} (ht : t ∈ rangeHull r) (ht' : t ∈ rangeHull r') :
    r = r' := by
  have heq := IntervalDict.eq_of_mem ((h.items _ r).2 ⟨hr, rfl⟩) ((h.items _ r').2 ⟨hr', rfl⟩)
    (ClosedInterval.before_mem_toInterval.2 ht) (ClosedInterval.before_mem_toInterval.2 ht')
  exact (Prod.mk.inj heq).2

/-- Filing one more range. -/
theorem RangesFiled.fileRange {ranges : List (List BlockMeta)}
    {d d' : IntervalDict (Cut ℚ) (List BlockMeta)} {r : List BlockMeta} (h : RangesFiled ranges d)
    (hd' : fileRange d r = .ok d') : RangesFiled (ranges ++ [r]) d' := by
  unfold Svoe.fileRange at hd'
  split at hd'
  · cases hd'
  next J hJ =>
  obtain ⟨hne, rfl, hle⟩ := rangeMetaToInterval_eq_ok hJ
  split_ifs at hd' with hover
  have hapart : ∀ r' ∈ ranges, ∀ t ∈ rangeHull r', t ∉ rangeHull r := by
    intro r' hr' t ht ht'
    refine hover (List.any_eq_true.2 ⟨_, (h.items _ r').2 ⟨hr', rfl⟩, decide_eq_true ?_⟩)
    exact ClosedInterval.inter_ne_empty_iff.2 ⟨t, ht, ht'⟩
  have hnew : r ∉ d.values := by
    intro hr
    obtain ⟨⟨I, r'⟩, hI, rfl⟩ := List.mem_map.1 hr
    exact hapart r' ((h.items I r').1 hI).1 _ ⟨le_rfl, hle⟩ ⟨le_rfl, hle⟩
  have hdis : ∀ p ∈ d.items, p.1.Disjoint (rangeHull r).toInterval := by
    rintro ⟨I, r'⟩ hp c hc hc'
    obtain ⟨hr', rfl⟩ := (h.items I r').1 hp
    obtain ⟨t, ht, ht'⟩ := ClosedInterval.inter_ne_empty_iff.1 fun he =>
      Interval.not_mem_empty c (he ▸ Interval.mem_inter.2 ⟨hc, hc'⟩)
    exact hapart r' hr' t ht ht'
  rw [← Except.ok.inj hd']
  refine ⟨?_, List.pairwise_append.2 ⟨h.apart, List.pairwise_singleton _ _, by simpa using hapart⟩,
    fun I r' => ?_⟩
  · intro r' hr'
    rcases List.mem_append.1 hr' with hr' | hr'
    · exact h.nonempty r' hr'
    · exact List.mem_singleton.1 hr' ▸ ⟨hne, hle⟩
  · rw [IntervalDict.mem_items_set_of_disjoint (ClosedInterval.toInterval_ne_empty_iff.2 hle) hdis
      hnew, h.items, List.mem_append, List.mem_singleton, or_and_right]
    refine or_congr_right ⟨?_, ?_⟩ <;> rintro ⟨rfl, rfl⟩ <;> exact ⟨rfl, rfl⟩

/-- **Ranges that can be filed** have disjoint hulls, and are filed under them. -/
theorem rangesToIntervalDict_spec {ranges : List (List BlockMeta)}
    {d : IntervalDict (Cut ℚ) (List BlockMeta)} (h : rangesToIntervalDict ranges = .ok d) :
    RangesFiled ranges d := by
  suffices ∀ (l l' : List (List BlockMeta)) (d₀ : IntervalDict (Cut ℚ) (List BlockMeta)),
      RangesFiled l d₀ → l'.foldlM Svoe.fileRange d₀ = .ok d → RangesFiled (l ++ l') d from
    this [] ranges .empty ⟨by simp, .nil, fun I r => by simp [IntervalDict.empty]⟩ h
  intro l l' d₀ hfiled h
  induction l' generalizing l d₀ with
  | nil => rwa [List.append_nil, ← Except.ok.inj h]
  | cons r l' ih =>
    rw [List.foldlM_cons, bind_eq_ok_iff] at h
    obtain ⟨d₁, hd₁, h⟩ := h
    rw [List.append_cons]
    exact ih (l ++ [r]) d₁ (hfiled.fileRange hd₁) h

/-- Ranges with their hulls as keys. -/
def hullDict (ranges : List (List BlockMeta)) : IntervalDict (Cut ℚ) (List BlockMeta) :=
  closedDict (ranges.map fun r => (rangeHull r, r))

/-- Ranges in the order of their disjoint hulls. -/
structure RangeSeq (ranges : List (List BlockMeta)) : Prop where
  nonempty : ∀ r ∈ ranges, r ≠ []
  sorted : ∀ r ∈ ranges, SortedBlocks r
  apart : ranges.Pairwise fun r r' => (rangeHull r).upper < (rangeHull r').lower

/-- **The ranges of sorted blocks** have disjoint hulls. -/
theorem rangeSeq_makeRanges {data : List BlockMeta} (h : SortedBlocks data) :
    RangeSeq (makeRanges data) where
  nonempty _ hr := ne_nil_of_mem_makeRanges hr
  sorted r hr := h.of_sublist (by
    have hsub := List.sublist_flatten_of_mem hr
    rwa [flatten_makeRanges] at hsub)
  apart := by
    refine (pairwise_makeRanges h).imp_of_mem fun {r r'} hr hr' hrr => ?_
    have hne := ne_nil_of_mem_makeRanges hr
    have hne' := ne_nil_of_mem_makeRanges hr'
    simp only [rangeHull, List.getLast?_eq_some_getLast hne, List.head?_eq_some_head hne',
      Option.map_some, Option.getD_some]
    exact roundFloat_lt_roundFloat (hrr _ (List.getLast_mem hne) _ (List.head_mem hne'))

namespace RangeSeq

variable {ranges : List (List BlockMeta)}

theorem hull_le (h : RangeSeq ranges) {r : List BlockMeta} (hr : r ∈ ranges) :
    (rangeHull r).lower ≤ (rangeHull r).upper :=
  (h.sorted r hr).hull_le (h.nonempty r hr)

/-- The hulls are the keys of distinct items. -/
theorem pairwise_items (h : RangeSeq ranges) :
    (ranges.map fun r => (rangeHull r, r)).Pairwise fun p q =>
      p.1.upper < q.1.lower ∧ p.2 ≠ q.2 := by
  refine List.pairwise_map.2 (h.apart.imp_of_mem fun {r r'} hr _ hlt => ⟨hlt, fun heq => ?_⟩)
  have heq : r = r' := heq
  exact (h.hull_le hr).not_gt (heq ▸ hlt)

theorem of_sublist {l : List (List BlockMeta)} (h : RangeSeq ranges) (hl : l.Sublist ranges) :
    RangeSeq l :=
  ⟨fun r hr => h.nonempty r (hl.subset hr), fun r hr => h.sorted r (hl.subset hr),
    h.apart.sublist hl⟩

theorem items_hullDict (h : RangeSeq ranges) :
    (hullDict ranges).items =
      ranges.map fun r => ((rangeHull r).toInterval, r) := by
  have hle : ∀ p ∈ ranges.map fun r => (rangeHull r, r), p.1.lower ≤ p.1.upper := by
    intro p hp
    obtain ⟨r, hr, rfl⟩ := List.mem_map.1 hp
    exact h.hull_le hr
  rw [hullDict, closedDict, IntervalDict.items_ofItems_closed hle h.pairwise_items, List.map_map]
  rfl

/-- **Ranges are filed under their hulls**, without an error. -/
theorem rangesToIntervalDict_eq (h : RangeSeq ranges) :
    rangesToIntervalDict ranges = .ok (hullDict ranges) := by
  suffices ∀ l l', ranges = l ++ l' →
      l'.foldlM fileRange (hullDict l) =
        .ok (hullDict ranges) from this [] ranges rfl
  intro l l' hl
  induction l' generalizing l with
  | nil => rw [hl, List.append_nil]; rfl
  | cons r l' ih =>
    have hr : r ∈ ranges := by simp [hl]
    have hkeys : overlapsKeys (rangeHull r).toInterval
        (hullDict l) = false := by
      rw [overlapsKeys, (h.of_sublist (hl ▸ List.sublist_append_left l _)).items_hullDict,
        List.any_eq_false]
      intro p hp
      obtain ⟨r', hr', rfl⟩ := List.mem_map.1 hp
      have hlt := (List.pairwise_append.1 (hl ▸ h.apart)).2.2 r' hr' r (by simp)
      simp only [decide_eq_true_eq, not_not, Interval.eq_empty_iff, Interval.mem_inter]
      exact fun c hc => ClosedInterval.disjoint_of_lt hlt hc.1 hc.2
    have hset : (hullDict l).set (rangeHull r).toInterval r =
        hullDict (l ++ [r]) := by
      simp [hullDict, closedDict, IntervalDict.ofItems]
    rw [List.foldlM_cons, fileRange, (h.sorted r hr).rangeMetaToInterval_eq (h.nonempty r hr)]
    simp only [hkeys, Bool.false_eq_true, if_false, bind, Except.bind, hset]
    exact ih (l ++ [r]) (by simp [hl])

theorem rangesFiled (h : RangeSeq ranges) : RangesFiled ranges (hullDict ranges) :=
  rangesToIntervalDict_spec h.rangesToIntervalDict_eq

end RangeSeq

/-! ### Overlaps of filed ranges -/

/-- The blocks that intersect an interval, in their order. -/
def blocksOn (J : ClosedInterval ℚ) (metas : List BlockMeta) : List BlockMeta :=
  metas.filter fun m => J.toInterval.inter m.interval.toInterval ≠ .empty

theorem mem_blocksOn_iff {J : ClosedInterval ℚ} {metas : List BlockMeta} {m : BlockMeta} :
    m ∈ blocksOn J metas ↔ m ∈ metas ∧ J.toInterval.inter m.interval.toInterval ≠ .empty := by
  rw [blocksOn, List.mem_filter, decide_eq_true_eq]

theorem mem_blocksOn {J : ClosedInterval ℚ} {metas : List BlockMeta} {m : BlockMeta} :
    m ∈ blocksOn J metas ↔ m ∈ metas ∧ ∃ t ∈ J, t ∈ m.interval := by
  rw [mem_blocksOn_iff, ClosedInterval.inter_ne_empty_iff]

namespace RangesFiled

variable {ranges : List (List BlockMeta)} {d : IntervalDict (Cut ℚ) (List BlockMeta)}

theorem closedKeys (h : RangesFiled ranges d) : ClosedKeys d := by
  intro p hp
  exact ⟨_, ((h.items p.1 p.2).1 hp).2⟩

theorem mem_items_iff (h : RangesFiled ranges d) {I : ClosedInterval ℚ} {r : List BlockMeta} :
    (I.toInterval, r) ∈ d.items ↔ r ∈ ranges ∧ I = rangeHull r := by
  rw [h.items]
  refine and_congr_right fun hr => ⟨fun heq => ?_, congrArg _⟩
  exact (ClosedInterval.toInterval_injective (h.nonempty r hr).2 heq.symm).symm

theorem nodup (h : RangesFiled ranges d) : ranges.Nodup := by
  refine h.apart.imp_of_mem fun {r r'} hr _ hrr heq => ?_
  have hlow : (rangeHull r).lower ∈ rangeHull r := ⟨le_rfl, (h.nonempty r hr).2⟩
  exact hrr _ hlow (heq ▸ hlow)

/-- Only the blocks of one range intersect an interval inside its hull. -/
theorem blocksOn_flatten (h : RangesFiled ranges d) (hsorted : ∀ r ∈ ranges, SortedBlocks r)
    {r : List BlockMeta} (hr : r ∈ ranges) {J : ClosedInterval ℚ}
    (hJ : ∀ t ∈ J, t ∈ rangeHull r) : blocksOn J ranges.flatten = blocksOn J r := by
  obtain ⟨l, l', hl⟩ := List.append_of_mem hr
  have hnil : ∀ rs : List (List BlockMeta), (∀ r' ∈ rs, r' ∈ ranges ∧ r' ≠ r) →
      blocksOn J rs.flatten = [] := by
    intro rs hrs
    refine List.eq_nil_iff_forall_not_mem.2 fun m hm => ?_
    obtain ⟨hm, t, ht, htm⟩ := mem_blocksOn.1 hm
    obtain ⟨r', hr', hmr⟩ := List.mem_flatten.1 hm
    obtain ⟨hmem, hne⟩ := hrs r' hr'
    obtain ⟨hlow, hup⟩ := (hsorted r' hmem).interval_sub_hull hmr
    exact hne (h.eq_of_mem hmem hr ⟨hlow.trans htm.1, htm.2.trans hup⟩ (hJ t ht))
  have hnodup := hl ▸ h.nodup
  obtain ⟨-, htail, hcross⟩ := List.nodup_append.1 hnodup
  have happ : ∀ a b : List BlockMeta, blocksOn J (a ++ b) = blocksOn J a ++ blocksOn J b :=
    fun a b => List.filter_append a b
  have hflat : ranges.flatten = l.flatten ++ (r ++ l'.flatten) := by
    rw [← List.flatten_cons, ← List.flatten_append, ← hl]
  rw [hflat, happ, happ, hnil l, hnil l', List.nil_append, List.append_nil]
  · intro r' hr'
    refine ⟨hl ▸ by simp [hr'], fun heq => ?_⟩
    exact (List.nodup_cons.1 htail).1 (heq ▸ hr')
  · intro r' hr'
    exact ⟨hl ▸ by simp [hr'], hcross r' hr' r List.mem_cons_self⟩

/-- The blocks of filed ranges are disjoint in time. -/
theorem pairwise_blocks (h : RangesFiled ranges d) (hsorted : ∀ r ∈ ranges, SortedBlocks r) :
    ranges.flatten.Pairwise fun m m' => m.endTs < m'.startTs ∨ m'.endTs < m.startTs := by
  refine List.pairwise_flatten.2 ⟨fun r hr => (hsorted r hr).apart.imp Or.inl, ?_⟩
  refine h.apart.imp_of_mem fun {r r'} hr hr' hapart m hm m' hm' => ?_
  obtain ⟨hlow, hup⟩ := (hsorted r hr).interval_sub_hull hm
  obtain ⟨hlow', hup'⟩ := (hsorted r' hr').interval_sub_hull hm'
  by_contra hcross
  rw [not_or, not_lt, not_lt] at hcross
  -- the later of the two starts is in both hulls
  refine hapart (max m.interval.lower m'.interval.lower) ⟨hlow.trans (le_max_left _ _), ?_⟩
    ⟨hlow'.trans (le_max_right _ _), ?_⟩
  · exact max_le ((hsorted r hr).interval_le hm |>.trans hup) ((roundFloat_mono hcross.1).trans hup)
  · exact max_le ((roundFloat_mono hcross.2).trans hup')
      ((hsorted r' hr').interval_le hm' |>.trans hup')

end RangesFiled

section Filed

variable {κ : Type*} {sources : List (κ × List (List BlockMeta))}
  {dicts : List (κ × IntervalDict (Cut ℚ) (List BlockMeta))}

/-- The ranges of every source are filed in its dictionary. -/
def SourcesFiled (sources : List (κ × List (List BlockMeta)))
    (dicts : List (κ × IntervalDict (Cut ℚ) (List BlockMeta))) : Prop :=
  List.Forall₂ (fun s kd => kd.1 = s.1 ∧ RangesFiled s.2 kd.2) sources dicts

/-- One range of every source. -/
def ChoosesRanges (sources : List (κ × List (List BlockMeta))) (v : List (κ × List BlockMeta)) :
    Prop :=
  List.Forall₂ (fun s kv => kv.1 = s.1 ∧ kv.2 ∈ s.2) sources v

namespace SourcesFiled

theorem closedKeys (h : SourcesFiled sources dicts) : ∀ kd ∈ dicts, ClosedKeys kd.2 := by
  intro kd hkd
  obtain ⟨s, -, -, hfiled⟩ := exists_mem_of_forall₂ h.flip hkd
  exact hfiled.closedKeys

theorem ne_nil (h : SourcesFiled sources dicts) (hne : sources ≠ []) : dicts ≠ [] := by
  rintro rfl
  exact hne (List.forall₂_nil_right_iff.1 h)

/-- A choice of items is one of ranges, with their hulls. -/
theorem isChoice_iff (h : SourcesFiled sources dicts)
    {cs : List (κ × ClosedInterval ℚ × List BlockMeta)} :
    IsChoice dicts cs ↔
      ChoosesRanges sources (choiceValues cs) ∧ ∀ c ∈ cs, c.2.1 = rangeHull c.2.2 := by
  rw [IsChoice, ChoosesRanges, choiceValues, List.forall₂_map_right_iff]
  induction h generalizing cs with
  | nil => cases cs <;> simp
  | @cons s kd sources dicts hkd _ ih =>
    cases cs with
    | nil => simp
    | cons c cs =>
      rw [List.forall₂_cons, List.forall₂_cons, List.forall_mem_cons, ih, hkd.2.mem_items_iff,
        hkd.1, eq_comm (a := s.1)]
      tauto

variable [DecidableEq κ] {overlaps pruned : List (ClosedInterval ℚ × List (κ × List BlockMeta))}

/-- **The overlaps of ranges** are the common parts of one range of every source. -/
theorem mem_overlaps_iff (h : SourcesFiled sources dicts) (hne : sources ≠ [])
    (hok : getOverlaps dicts = .ok overlaps) {J : ClosedInterval ℚ}
    {v : List (κ × List BlockMeta)} :
    (J, v) ∈ overlaps ↔ J.lower ≤ J.upper ∧ ChoosesRanges sources v ∧
      ∀ t, t ∈ J ↔ ∀ kv ∈ v, t ∈ rangeHull kv.2 := by
  rw [mem_getOverlaps_iff (h.ne_nil hne) h.closedKeys hok]
  refine and_congr_right fun _ => ?_
  constructor
  · rintro ⟨cs, hcs, rfl, hJ⟩
    obtain ⟨hv, hI⟩ := h.isChoice_iff.1 hcs
    refine ⟨hv, fun t => ?_⟩
    rw [hJ, choiceValues, List.forall_mem_map]
    exact forall₂_congr fun c hc => by rw [hI c hc]
  · rintro ⟨hv, hJ⟩
    have hvalues : choiceValues (v.map fun kv => (kv.1, rangeHull kv.2, kv.2)) = v := by
      rw [choiceValues, List.map_map]
      exact List.map_id v
    refine ⟨v.map fun kv => (kv.1, rangeHull kv.2, kv.2), h.isChoice_iff.2 ⟨?_, ?_⟩,
      hvalues.symm, fun t => ?_⟩
    · rwa [hvalues]
    · exact List.forall_mem_map.2 fun kv _ => rfl
    · rw [hJ, List.forall_mem_map]

/-- **Pruning the overlaps** leaves the blocks of every source that intersect them. -/
theorem pruneOverlaps_eq_ok_iff (h : SourcesFiled sources dicts)
    (hsorted : ∀ s ∈ sources, ∀ r ∈ s.2, SortedBlocks r) (hne : sources ≠ [])
    (hok : getOverlaps dicts = .ok overlaps) :
    pruneOverlaps metaToInterval overlaps = .ok pruned ↔
      (∀ p ∈ overlaps, ∀ kv ∈ p.2, ∃ m ∈ kv.2, ∃ t ∈ p.1, t ∈ m.interval) ∧
        pruned = overlaps.map fun p =>
          (p.1, sources.map fun s => (s.1, blocksOn p.1 s.2.flatten)) := by
  refine mapM_eq_ok_iff_of fun p hp r => ?_
  obtain ⟨J, v⟩ := p
  obtain ⟨-, hv, hJ⟩ := (h.mem_overlaps_iff hne hok).1 hp
  have hinterval : ∀ kv ∈ v, ∀ m ∈ kv.2, metaToInterval m = .ok m.interval := by
    intro kv hkv m hm
    obtain ⟨s, hs, -, hr⟩ := exists_mem_of_forall₂ hv.flip hkv
    exact metaToInterval_of_le ((hsorted s hs _ hr).le m hm)
  have hkeys : v.map (fun kv => (kv.1, blocksOn J kv.2)) =
      sources.map fun s => (s.1, blocksOn J s.2.flatten) := by
    have hsub : ∀ kv ∈ v, ∀ t ∈ J, t ∈ rangeHull kv.2 := fun kv hkv t ht => (hJ t).1 ht kv hkv
    clear hp hok hne hinterval hJ
    induction h generalizing v with
    | nil =>
      cases hv
      rfl
    | @cons s kd sources dicts hkd _ ih =>
      cases hv with
      | @cons _ kv _ v hkv hv =>
        obtain ⟨hsub, hrest⟩ := List.forall_mem_cons.1 hsub
        obtain ⟨hs, hsources⟩ := List.forall_mem_cons.1 hsorted
        rw [List.map_cons, List.map_cons, ih hsources v hv hrest, hkv.1,
          hkd.2.blocksOn_flatten hs hkv.2 hsub]
  have hprune : ∀ v', v.mapM (pruneKey metaToInterval J) = .ok v' ↔
      (∀ kv ∈ v, ∃ m ∈ kv.2, ∃ t ∈ J, t ∈ m.interval) ∧
        v' = sources.map fun s => (s.1, blocksOn J s.2.flatten) := by
    intro v'
    rw [← hkeys]
    refine mapM_eq_ok_iff_of fun kv hkv r => ?_
    rw [pruneKey_eq_ok_iff (hinterval kv hkv)]
    simp only [ClosedInterval.inter_ne_empty_iff]
    rfl
  cases hres : v.mapM (pruneKey metaToInterval J) with
  | error e =>
    refine iff_of_false (fun hr => by cases hr) fun hr => ?_
    cases hres.symm.trans ((hprune _).2 ⟨hr.1, rfl⟩)
  | ok v' =>
    obtain ⟨hall, rfl⟩ := (hprune v').1 hres
    rw [and_iff_right hall, Except.map, Except.ok.injEq, eq_comm]

end SourcesFiled

end Filed

/-! ### Overlaps of ranges -/

section Sources

variable {κ : Type*} [DecidableEq κ] {sources : List (κ × List BlockMeta)}

/-- The ranges of every source, filed under their hulls. -/
def rangesDicts (sources : List (κ × List BlockMeta)) :
    Except PyError (List (κ × IntervalDict (Cut ℚ) (List BlockMeta))) :=
  sources.mapM fun s => (rangesToIntervalDict (makeRanges s.2)).map fun d => (s.1, d)

/-- One range of every source. -/
def IsRangeChoice (sources v : List (κ × List BlockMeta)) : Prop :=
  List.Forall₂ (fun s kv => kv.1 = s.1 ∧ kv.2 ∈ makeRanges s.2) sources v

omit [DecidableEq κ] in
theorem rangesDicts_eq (h : ∀ s ∈ sources, SortedBlocks s.2) :
    rangesDicts sources = .ok (sources.map fun s =>
      (s.1, hullDict (makeRanges s.2))) :=
  mapM_eq_ok fun s hs => by
    rw [(rangeSeq_makeRanges (h s hs)).rangesToIntervalDict_eq]
    rfl

omit [DecidableEq κ] in
/-- A point is in the hull of one range of a source at most. -/
theorem IsRangeChoice.eq_of_mem (h : ∀ s ∈ sources, SortedBlocks s.2)
    {v v' : List (κ × List BlockMeta)} (hv : IsRangeChoice sources v)
    (hv' : IsRangeChoice sources v') {t : ℚ} (ht : ∀ kv ∈ v, t ∈ rangeHull kv.2)
    (ht' : ∀ kv ∈ v', t ∈ rangeHull kv.2) : v = v' := by
  induction hv generalizing v' with
  | nil =>
    cases hv'
    rfl
  | @cons s kv sources v hkv _ ih =>
    cases hv' with
    | @cons _ kv' _ v' hkv' htail =>
    obtain ⟨k, r⟩ := kv
    obtain ⟨k', r'⟩ := kv'
    obtain ⟨rfl, hr⟩ := hkv
    obtain ⟨rfl, hr'⟩ := hkv'
    have hrr : r = r' :=
      (rangeSeq_makeRanges (h s List.mem_cons_self)).rangesFiled.eq_of_mem hr hr'
      (ht (s.1, r) List.mem_cons_self) (ht' (s.1, r') List.mem_cons_self)
    rw [hrr, ih (fun s hs => h s (List.mem_cons_of_mem _ hs)) htail
      (fun kv hkv => ht kv (List.mem_cons_of_mem _ hkv))
      fun kv hkv => ht' kv (List.mem_cons_of_mem _ hkv)]

omit [DecidableEq κ] in
theorem sourcesFiled_hullDict (h : ∀ s ∈ sources, SortedBlocks s.2) :
    SourcesFiled (sources.map fun s => (s.1, makeRanges s.2))
      (sources.map fun s => (s.1, hullDict (makeRanges s.2))) :=
  List.forall₂_map_left_iff.2 (List.forall₂_map_right_iff.2 (List.forall₂_same.2 fun s hs =>
    ⟨rfl, (rangeSeq_makeRanges (h s hs)).rangesFiled⟩))

omit [DecidableEq κ] in
theorem choosesRanges_makeRanges_iff {v : List (κ × List BlockMeta)} :
    ChoosesRanges (sources.map fun s => (s.1, makeRanges s.2)) v ↔ IsRangeChoice sources v :=
  List.forall₂_map_left_iff

theorem mem_rangeOverlaps_iff (h : ∀ s ∈ sources, SortedBlocks s.2) (hne : sources ≠ [])
    {overlaps : List (ClosedInterval ℚ × List (κ × List BlockMeta))}
    (hok : getOverlaps (sources.map fun s => (s.1, hullDict (makeRanges s.2))) = .ok overlaps)
    {J : ClosedInterval ℚ} {v : List (κ × List BlockMeta)} :
    (J, v) ∈ overlaps ↔ J.lower ≤ J.upper ∧ IsRangeChoice sources v ∧
      ∀ t, t ∈ J ↔ ∀ kv ∈ v, t ∈ rangeHull kv.2 := by
  rw [(sourcesFiled_hullDict h).mem_overlaps_iff (by simpa using hne) hok,
    choosesRanges_makeRanges_iff]

/-! ### Pruning -/

theorem blocksOn_eq_of_mem_makeRanges {metas r : List BlockMeta} (h : SortedBlocks metas)
    (hr : r ∈ makeRanges metas) {J : ClosedInterval ℚ} (hJ : ∀ t ∈ J, t ∈ rangeHull r) :
    blocksOn J metas = blocksOn J r := by
  have hseq := rangeSeq_makeRanges h
  have hflat := hseq.rangesFiled.blocksOn_flatten
    hseq.sorted hr hJ
  rwa [flatten_makeRanges] at hflat

/-- What pruning should give: for every overlap and every source, the blocks of the source that
intersect the overlap, of which there are some. -/
structure PrunedExactly (sources : List (κ × List BlockMeta))
    (overlaps pruned : List (ClosedInterval ℚ × List (κ × List BlockMeta))) : Prop where
  eq_blocksOn : pruned = overlaps.map fun p =>
    (p.1, sources.map fun s => (s.1, blocksOn p.1 s.2))
  nonempty : ∀ p ∈ pruned, ∀ kv ∈ p.2, kv.2 ≠ []

/-- Where ranges of all sources overlap, each of them has a block: no overlap lies in a gap. -/
def NoOverlapInGap (sources : List (κ × List BlockMeta)) : Prop :=
  ∀ v, IsRangeChoice sources v → (∃ t, ∀ kv ∈ v, t ∈ rangeHull kv.2) →
    ∀ kv ∈ v, ∃ m ∈ kv.2, ∃ t ∈ m.interval, ∀ kv' ∈ v, t ∈ rangeHull kv'.2

/-- The overlap of ranges with a common point. -/
theorem exists_mem_rangeOverlaps (h : ∀ s ∈ sources, SortedBlocks s.2) (hne : sources ≠ [])
    {overlaps : List (ClosedInterval ℚ × List (κ × List BlockMeta))}
    (hok : getOverlaps (sources.map fun s => (s.1, hullDict (makeRanges s.2))) = .ok overlaps)
    {v : List (κ × List BlockMeta)} (hv : IsRangeChoice sources v) {t : ℚ}
    (ht : ∀ kv ∈ v, t ∈ rangeHull kv.2) : ∃ J, (J, v) ∈ overlaps := by
  have hdomain : ∀ kd ∈ sources.map fun s => (s.1, hullDict (makeRanges s.2)),
      before t ∈ kd.2.domain := by
    intro kd hkd
    obtain ⟨s, hs, rfl⟩ := List.mem_map.1 hkd
    obtain ⟨kv, hkv, hr⟩ : ∃ kv ∈ v, kv.2 ∈ makeRanges s.2 := by
      obtain ⟨i, hi, rfl⟩ := List.getElem_of_mem hs
      have hi' : i < v.length := hv.length_eq ▸ hi
      exact ⟨v[i], List.getElem_mem hi', (hv.get hi hi').2⟩
    refine IntervalDict.mem_domain.2 ?_
    rw [IntervalDict.lookup_eq_some_iff.2 ⟨(rangeHull kv.2).toInterval,
      (rangeSeq_makeRanges (h s hs)).rangesFiled.mem_items_iff.2 ⟨hr, rfl⟩,
      ClosedInterval.before_mem_toInterval.2 (ht kv hkv)⟩]
    exact Option.some_ne_none _
  obtain ⟨⟨J, v'⟩, hp, hJ⟩ :=
    (mem_overlaps_iff_forall_mem_domain (by simpa using hne)
      (sourcesFiled_hullDict h).closedKeys hok).2 hdomain
  obtain ⟨-, hv', hmem⟩ := (mem_rangeOverlaps_iff h hne hok).1 hp
  have htJ := (hmem t).1 (ClosedInterval.before_mem_toInterval.1 hJ)
  exact ⟨J, hv.eq_of_mem h hv' ht htJ ▸ hp⟩

theorem pruneOverlaps_eq_ok_iff (h : ∀ s ∈ sources, SortedBlocks s.2) (hne : sources ≠ [])
    {overlaps pruned : List (ClosedInterval ℚ × List (κ × List BlockMeta))}
    (hok : getOverlaps (sources.map fun s => (s.1, hullDict (makeRanges s.2))) = .ok overlaps) :
    pruneOverlaps metaToInterval overlaps = .ok pruned ↔
      (∀ p ∈ overlaps, ∀ kv ∈ p.2, ∃ m ∈ kv.2, ∃ t ∈ p.1, t ∈ m.interval) ∧
        pruned = overlaps.map fun p => (p.1, sources.map fun s => (s.1, blocksOn p.1 s.2)) := by
  have hsorted : ∀ s ∈ sources.map fun s => (s.1, makeRanges s.2), ∀ r ∈ s.2, SortedBlocks r := by
    refine List.forall_mem_map.2 fun s hs r hr => ?_
    exact (rangeSeq_makeRanges (h s hs)).sorted r hr
  rw [(sourcesFiled_hullDict h).pruneOverlaps_eq_ok_iff hsorted (by simpa using hne) hok]
  simp only [List.map_map, Function.comp_def, flatten_makeRanges]

/-- **Pruning the overlaps of ranges**: it succeeds, with exactly the blocks of every source that
intersect an overlap, if and only if there is a source and no overlap lies in a gap between two
blocks of a range. -/
theorem pruneOverlaps_iff (h : ∀ s ∈ sources, SortedBlocks s.2) :
    (∃ dicts overlaps pruned, rangesDicts sources = .ok dicts ∧ getOverlaps dicts = .ok overlaps ∧
        pruneOverlaps metaToInterval overlaps = .ok pruned ∧
        PrunedExactly sources overlaps pruned) ↔
      sources ≠ [] ∧ NoOverlapInGap sources := by
  constructor
  · rintro ⟨dicts, overlaps, pruned, hdicts, hok, hprune, -⟩
    obtain rfl := Except.ok.inj ((rangesDicts_eq h).symm.trans hdicts)
    have hne : sources ≠ [] := by
      rintro rfl
      cases hok
    refine ⟨hne, fun v hv ⟨t, ht⟩ kv hkv => ?_⟩
    obtain ⟨J, hJ⟩ := exists_mem_rangeOverlaps h hne hok hv ht
    obtain ⟨-, -, hmem⟩ := (mem_rangeOverlaps_iff h hne hok).1 hJ
    obtain ⟨m, hm, t', ht', htm⟩ := ((pruneOverlaps_eq_ok_iff h hne hok).1 hprune).1 _ hJ kv hkv
    exact ⟨m, hm, t', htm, (hmem t').1 ht'⟩
  · rintro ⟨hne, hgap⟩
    obtain ⟨overlaps, hok, -⟩ :=
      getOverlaps_spec (by simpa using hne) (sourcesFiled_hullDict h).closedKeys
    have hall : ∀ p ∈ overlaps, ∀ kv ∈ p.2, ∃ m ∈ kv.2, ∃ t ∈ p.1, t ∈ m.interval := by
      rintro ⟨J, v⟩ hp kv hkv
      obtain ⟨hle, hv, hmem⟩ := (mem_rangeOverlaps_iff h hne hok).1 hp
      obtain ⟨m, hm, t, htm, ht⟩ := hgap v hv ⟨J.lower, (hmem _).1 ⟨le_rfl, hle⟩⟩ kv hkv
      exact ⟨m, hm, t, (hmem t).2 ht, htm⟩
    refine ⟨_, overlaps, _, rangesDicts_eq h, hok,
      (pruneOverlaps_eq_ok_iff h hne hok).2 ⟨hall, rfl⟩, rfl, ?_⟩
    intro p' hp' kv' hkv'
    obtain ⟨⟨J, v⟩, hp, rfl⟩ := List.mem_map.1 hp'
    obtain ⟨s, hs, rfl⟩ := List.mem_map.1 hkv'
    obtain ⟨-, hv, hmem⟩ := (mem_rangeOverlaps_iff h hne hok).1 hp
    -- the source's range has a block on the overlap
    obtain ⟨i, hi, rfl⟩ := List.getElem_of_mem hs
    have hi' : i < v.length := hv.length_eq ▸ hi
    obtain ⟨m, hm, ht⟩ := hall _ hp _ (List.getElem_mem hi')
    rw [blocksOn_eq_of_mem_makeRanges (h _ hs) (hv.get hi hi').2 fun t ht =>
      (hmem t).1 ht _ (List.getElem_mem hi')]
    exact List.ne_nil_of_mem (mem_blocksOn.2 ⟨hm, ht⟩)

end Sources

instance (metas : List BlockMeta) : Decidable (SortedBlocks metas) :=
  decidable_of_iff ((∀ m ∈ metas, m.startTs ≤ m.endTs) ∧
    metas.Pairwise fun m m' => m.endTs < m'.startTs) ⟨fun h => ⟨h.1, h.2⟩, fun h => ⟨h.le, h.apart⟩⟩

/-- The first source has a gap from 10 to 10.8; the second one's block ends in it. -/
def endsInGap : List (String × List BlockMeta) :=
  [("a", [⟨0, 10, "a1"⟩, ⟨54 / 5, 20, "a2"⟩]), ("b", [⟨5, 21 / 2, "b1"⟩])]

theorem pruneOverlaps_endsInGap :
    ∃ dicts overlaps pruned, rangesDicts endsInGap = .ok dicts ∧ getOverlaps dicts = .ok overlaps ∧
      pruneOverlaps metaToInterval overlaps = .ok pruned ∧
      pruned = [(⟨5, 21 / 2⟩, [("a", [⟨0, 10, "a1"⟩]), ("b", [⟨5, 21 / 2, "b1"⟩])])] := by
  have hgap : NoOverlapInGap endsInGap := by
    intro v hv _
    have hva : makeRanges [⟨0, 10, "a1"⟩, ⟨54 / 5, 20, "a2"⟩] =
        [[⟨0, 10, "a1"⟩, ⟨54 / 5, 20, "a2"⟩]] := by decide +kernel
    have hvb : makeRanges [⟨5, 21 / 2, "b1"⟩] = [[⟨5, 21 / 2, "b1"⟩]] := by decide +kernel
    obtain ⟨⟨a, ra⟩, _, ⟨rfl, ha⟩, hrest, rfl⟩ := List.forall₂_cons_left_iff.1 hv
    obtain ⟨⟨b, rb⟩, _, ⟨rfl, hb⟩, hnil, rfl⟩ := List.forall₂_cons_left_iff.1 hrest
    cases hnil
    obtain rfl := List.mem_singleton.1 (hva ▸ ha)
    obtain rfl := List.mem_singleton.1 (hvb ▸ hb)
    intro kv hkv
    rcases List.mem_pair.1 hkv with rfl | rfl
    · exact ⟨⟨0, 10, "a1"⟩, by simp, 5, by decide +kernel, by decide +kernel⟩
    · exact ⟨⟨5, 21 / 2, "b1"⟩, by simp, 5, by decide +kernel, by decide +kernel⟩
  have h : ∀ s ∈ endsInGap, SortedBlocks s.2 := by decide +kernel
  obtain ⟨dicts, overlaps, pruned, hdicts, hok, hprune, -⟩ :=
    (pruneOverlaps_iff h).2 ⟨by simp [endsInGap], hgap⟩
  refine ⟨dicts, overlaps, pruned, hdicts, hok, hprune, ?_⟩
  obtain rfl := Except.ok.inj ((rangesDicts_eq h).symm.trans hdicts)
  have hok' : getOverlaps (endsInGap.map fun s => (s.1, hullDict (makeRanges s.2))) =
      .ok [(⟨5, 21 / 2⟩,
        [("a", [⟨0, 10, "a1"⟩, ⟨54 / 5, 20, "a2"⟩]), ("b", [⟨5, 21 / 2, "b1"⟩])])] := by
    decide +kernel
  obtain rfl := Except.ok.inj (hok.symm.trans hok')
  refine Except.ok.inj (hprune.symm.trans ?_)
  decide +kernel

/-- The second source has its only block in the gap of the first. -/
def insideGap : List (String × List BlockMeta) :=
  [("a", [⟨0, 10, "a1"⟩, ⟨54 / 5, 20, "a2"⟩]), ("b", [⟨51 / 5, 21 / 2, "b1"⟩])]

theorem not_pruneOverlaps_insideGap :
    (∀ s ∈ insideGap, SortedBlocks s.2) ∧
      ∃ dicts overlaps, rangesDicts insideGap = .ok dicts ∧ getOverlaps dicts = .ok overlaps ∧
        pruneOverlaps metaToInterval overlaps = .error (.value "Unable to prune key") := by
  have h : ∀ s ∈ insideGap, SortedBlocks s.2 := by decide +kernel
  refine ⟨h, _, [(⟨51 / 5, 21 / 2⟩, [("a", [⟨0, 10, "a1"⟩, ⟨54 / 5, 20, "a2"⟩]),
    ("b", [⟨51 / 5, 21 / 2, "b1"⟩])])], rangesDicts_eq h, ?_, ?_⟩
  · decide +kernel
  · decide +kernel

end Svoe
