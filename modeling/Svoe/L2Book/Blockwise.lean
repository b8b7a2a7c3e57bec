import Svoe.L2Book.Grouping
import Svoe.L2Book.SnapshotStream

/-!
# L2 snapshots block by block

The groups of `L2SnapshotFD` start with a SNAPSHOT, from which the book is rebuilt, so each group
gives the outputs of the stream over the whole sequence that lie in its interval
(`calculateBlock_group`).  The intervals are closed and touch: the output at the first snapshot of
a block that ends one group and starts the next is computed twice.  All other outputs are computed
exactly once (`computeBlocks_l2GroupDepRanges`).
-/

namespace Svoe

open Portion Series

variable {F : Type*}

/-- The timestamps of the SNAPSHOT events. -/
def snapshotTs (events : List (Event L2Delta)) : List ℚ :=
  (events.filter fun e => e.data.updateType = .snapshot).map Event.timestamp

/-- Catalogued L2 blocks with timestamps in whole milliseconds, whose metadata lists the SNAPSHOT
events they have, if any.  No other event has the timestamp of a SNAPSHOT. -/
structure L2Catalogued (metaOf : BlockMeta → MetaField) (metas : List BlockMeta)
    (load : String → List (Event L2Delta)) : Prop extends Catalogued metas load where
  ms : ∀ m ∈ metas, ∀ e ∈ load m.path, ∃ n : ℤ, e.timestamp = n / 1000
  listed : ∀ m ∈ metas, metaOf m = .dict
    (if snapshotTs (load m.path) = [] then none else some (snapshotTs (load m.path)))
  alone : (metas.flatMap fun m => load m.path).Pairwise fun e e' =>
    e.data.updateType = .snapshot ∨ e'.data.updateType = .snapshot → e.timestamp ≠ e'.timestamp

namespace L2Catalogued

variable {metaOf : BlockMeta → MetaField} {metas : List BlockMeta}
  {load : String → List (Event L2Delta)} {m : BlockMeta} {depth : ℤ}

theorem roundFloat_eq (h : L2Catalogued metaOf metas load) (hm : m ∈ metas) {e : Event L2Delta}
    (he : e ∈ load m.path) : roundFloat e.timestamp = e.timestamp := by
  obtain ⟨n, hn⟩ := h.ms m hm e he
  rw [hn, roundFloat_of_ms]

theorem roundFloat_endTs (h : L2Catalogued metaOf metas load) (hm : m ∈ metas) :
    roundFloat m.endTs = m.endTs := by
  obtain ⟨e, es, hes, hts⟩ := h.exists_stop hm
  exact hts ▸ h.roundFloat_eq hm (by simp [hes])

/-- The first snapshot of a block: the events before it are no snapshots. -/
theorem exists_firstSnapshot (h : L2Catalogued metaOf metas load) (hm : m ∈ metas) {t : ℚ}
    (ht : firstSnapshot metaOf m = some t) :
    ∃ es e es', load m.path = es ++ e :: es' ∧ (∀ x ∈ es, x.data.updateType ≠ .snapshot) ∧
      e.data.updateType = .snapshot ∧ e.timestamp = t := by
  have hhead : (snapshotTs (load m.path)).head? = some t := by
    obtain ⟨ts, hts⟩ := firstSnapshot_eq_some_iff.1 ht
    rw [h.listed m hm, MetaField.dict.injEq] at hts
    split_ifs at hts with hnil
    rw [Option.some.inj hts]
    rfl
  rw [snapshotTs, List.head?_map, Option.map_eq_some_iff] at hhead
  obtain ⟨e, he, rfl⟩ := hhead
  rw [List.head?_filter, List.find?_eq_some_iff_append] at he
  obtain ⟨hsnap, es, es', hload, hes⟩ := he
  exact ⟨es, e, es', hload, fun x hx => by simpa using hes x hx, by simpa using hsnap, rfl⟩

theorem snapshotBlocks (h : L2Catalogued metaOf metas load) : SnapshotBlocks metaOf metas where
  readable m hm := ⟨_, h.listed m hm, by split_ifs with hnil <;> simp [hnil]⟩
  le _ hm := h.start_le_stop hm
  apart := h.apart
  inside m hm t ht := by
    obtain ⟨es, e, es', hload, -, -, rfl⟩ := h.exists_firstSnapshot hm ht
    exact h.mem_range hm (by simp [hload])
  start_ms m hm t ht := by
    obtain ⟨es, e, es', hload, -, -, rfl⟩ := h.exists_firstSnapshot hm ht
    exact h.roundFloat_eq hm (by simp [hload])
  stop_ms _ hm := h.roundFloat_endTs hm

/-- **A group gives the outputs of the whole stream that lie in its interval.** -/
theorem calculateBlock_group (h : L2Catalogued metaOf metas load)
    {p : ClosedInterval ℚ × List BlockMeta} (hp : IsGroup metaOf metas p) (depth : ℤ) (dep : F) :
    calculateBlock load (l2SnapshotStream depth) p.1 [(dep, p.2)] =
      .ok ((l2SnapshotStream depth (namedEvents dep load metas)).filter fun o =>
        p.1.lower ≤ o.timestamp ∧ o.timestamp ≤ p.1.upper) := by
  obtain ⟨before, m, rest, behind, start, stop, rfl, rfl, hm, last, hlast, hstop⟩ := hp
  have hmem : m ∈ before ++ m :: rest ++ behind := by simp
  have hmemLast : last ∈ before ++ m :: rest ++ behind :=
    List.mem_append_left _ (List.mem_append_right _ hlast)
  obtain ⟨es, e, es', hload, hes, he, rfl⟩ := h.exists_firstSnapshot hmem hm
  have hround : roundFloat stop = stop ∧ stop ≤ last.endTs := by
    rcases hstop with hfirst | rfl
    · obtain ⟨l, x, l', hx, -, -, rfl⟩ := h.exists_firstSnapshot hmemLast hfirst
      exact ⟨h.roundFloat_eq hmemLast (by simp [hx]), (h.mem_range hmemLast (by simp [hx])).2⟩
    · exact ⟨h.roundFloat_endTs hmemLast, le_rfl⟩
  obtain ⟨hround, hle⟩ := hround
  have hgroup : Catalogued (m :: rest) load :=
    h.of_sublist ((List.sublist_append_right _ _).trans (List.sublist_append_left _ _))
  have hevents : (m :: rest).flatMap (fun m => load m.path) =
      es ++ e :: (es' ++ rest.flatMap fun m => load m.path) := by simp [hload]
  have hflat : (before ++ m :: rest ++ behind).flatMap (fun m => load m.path) =
      (before.flatMap fun m => load m.path) ++
        (es ++ e :: (es' ++ rest.flatMap fun m => load m.path)) ++
        behind.flatMap fun m => load m.path := by
    simp [hload]
  have hlow : ∀ x ∈ (before.flatMap fun m => load m.path) ++ es, x.timestamp < e.timestamp := by
    intro x hx
    have hsorted := h.isTsSorted_flatMap
    have halone := h.alone
    rw [hflat, List.append_assoc, List.append_assoc, ← List.append_assoc] at hsorted halone
    exact ((List.pairwise_append.1 hsorted).2.2 x hx e (by simp)).lt_of_ne
      ((List.pairwise_append.1 halone).2.2 x hx e (by simp) (.inr he))
  have hhigh : ∀ x ∈ behind.flatMap (fun m => load m.path), stop < x.timestamp := by
    intro x hx
    obtain ⟨m', hm', hxm'⟩ := List.mem_flatMap.1 hx
    have hlt := (List.pairwise_append.1 h.apart).2.2 last (List.mem_append_right _ hlast) m' hm'
    exact hle.trans_lt (hlt.trans_le (h.mem_range (List.mem_append_right _ hm') hxm').1)
  have hstart : roundFloat e.timestamp = e.timestamp := h.roundFloat_eq hmem (by simp [hload])
  have hfilter := filter_l2SnapshotStream (l := es' ++ rest.flatMap fun m => load m.path) depth dep
    he hes hlow hhigh
  rw [← hflat, ← hevents] at hfilter
  rw [calculateBlock_of_catalogued hgroup, hstart, hround]
  exact congrArg Except.ok hfilter

/-- A block without a first snapshot has no snapshot. -/
theorem not_snapshot_of_firstSnapshot (h : L2Catalogued metaOf metas load) (hm : m ∈ metas)
    (hnone : firstSnapshot metaOf m = none) :
    ∀ e ∈ load m.path, e.data.updateType ≠ .snapshot := by
  intro e he hsnap
  have hmem : e.timestamp ∈ snapshotTs (load m.path) :=
    List.mem_map_of_mem (List.mem_filter.2 ⟨he, decide_eq_true hsnap⟩)
  obtain ⟨t, ts, hts⟩ := List.exists_cons_of_ne_nil (List.ne_nil_of_mem hmem)
  have hfirst : firstSnapshot metaOf m = some t :=
    firstSnapshot_eq_some_iff.2 ⟨ts, by rw [h.listed m hm, hts]; rfl⟩
  rw [hnone] at hfirst
  cases hfirst

/-- The stream over the whole sequence starts with the first listed snapshot. -/
theorem exists_first_le (h : L2Catalogued metaOf metas load) (dep : F) {o : Event L2Snapshot}
    (ho : o ∈ l2SnapshotStream depth (namedEvents dep load metas)) :
    ∃ first, (metas.filterMap (firstSnapshot metaOf)).head? = some first ∧
      first ≤ o.timestamp ∧ o.timestamp ≤ lastEnd metas := by
  cases hstarts : metas.filterMap (firstSnapshot metaOf) with
  | nil =>
    -- no snapshot, no output
    rw [List.filterMap_eq_nil_iff] at hstarts
    have hall : ∀ e ∈ metas.flatMap fun m => load m.path, e.data.updateType ≠ .snapshot := by
      intro e he
      obtain ⟨m, hm, hem⟩ := List.mem_flatMap.1 he
      exact h.not_snapshot_of_firstSnapshot hm (hstarts m hm) e hem
    rw [namedEvents, ← List.append_nil (metas.flatMap fun m => load m.path),
      l2SnapshotStream_append_of_not_snapshot dep hall] at ho
    cases ho
  | cons first starts =>
    refine ⟨first, rfl, ?_, ?_⟩
    · obtain ⟨before, m, behind, rfl, hbefore, hm, -⟩ := List.filterMap_eq_cons_iff.1 hstarts
      have hmem : m ∈ before ++ m :: behind := by simp
      obtain ⟨es, e, es', hload, hes, -, rfl⟩ := h.exists_firstSnapshot hmem hm
      have hflat : (before ++ m :: behind).flatMap (fun m => load m.path) =
          ((before.flatMap fun m => load m.path) ++ es) ++
            e :: (es' ++ behind.flatMap fun m => load m.path) := by
        simp [hload]
      have hwarm : ∀ x ∈ (before.flatMap fun m => load m.path) ++ es,
          x.data.updateType ≠ .snapshot := by
        intro x hx
        rcases List.mem_append.1 hx with hx | hx
        · obtain ⟨m', hm', hxm'⟩ := List.mem_flatMap.1 hx
          exact h.not_snapshot_of_firstSnapshot (List.mem_append_left _ hm') (hbefore m' hm') x hxm'
        · exact hes x hx
      have hsorted := h.isTsSorted_flatMap
      rw [namedEvents, hflat, l2SnapshotStream_append_of_not_snapshot dep hwarm,
        l2SnapshotStream_named] at ho
      rw [hflat] at hsorted
      obtain ⟨x, hx, hts⟩ := exists_of_mem_outputs ho
      rw [← hts]
      rcases List.mem_cons.1 hx with rfl | hx
      · exact le_rfl
      · exact (List.pairwise_cons.1 (List.pairwise_append.1 hsorted).2.1).1 x hx
    · rw [namedEvents, l2SnapshotStream_named] at ho
      obtain ⟨x, hx, hts⟩ := exists_of_mem_outputs ho
      obtain ⟨m, hm, hxm⟩ := List.mem_flatMap.1 hx
      exact hts ▸ (h.mem_range hm hxm).2.trans (h.snapshotBlocks.end_le_lastEnd hm)

theorem pairwise_l2SnapshotStream (h : L2Catalogued metaOf metas load) (dep : F) :
    (l2SnapshotStream depth (namedEvents dep load metas)).Pairwise fun o o' =>
      o.timestamp ≤ o'.timestamp := by
  rw [namedEvents, l2SnapshotStream_named]
  have hsorted : ((metas.flatMap fun m => load m.path).map Event.timestamp).Pairwise (· ≤ ·) :=
    List.pairwise_map.2 h.isTsSorted_flatMap
  exact List.pairwise_map.1 (hsorted.sublist (sublist_timestamps _ _ _))

/-- There is at most one output at a listed snapshot. -/
theorem length_filter_le_one (h : L2Catalogued metaOf metas load) (dep : F) {t : ℚ}
    (ht : t ∈ metas.filterMap (firstSnapshot metaOf)) :
    ((l2SnapshotStream depth (namedEvents dep load metas)).filter fun o =>
      o.timestamp = t).length ≤ 1 := by
  obtain ⟨m, hm, hmt⟩ := List.mem_filterMap.1 ht
  obtain ⟨es, e, es', hload, -, he, rfl⟩ := h.exists_firstSnapshot hm hmt
  have hmem : e ∈ metas.flatMap fun m => load m.path :=
    List.mem_flatMap.2 ⟨m, hm, by simp [hload]⟩
  have halone := h.alone
  obtain ⟨l, l', hflat⟩ := List.append_of_mem hmem
  rw [hflat] at halone
  obtain ⟨-, hr, hl⟩ := List.pairwise_append.1 halone
  have hevents : ((metas.flatMap fun m => load m.path).filter fun x =>
      x.timestamp = e.timestamp) = [e] := by
    have hnil : l.filter (fun x => x.timestamp = e.timestamp) = [] :=
      List.filter_eq_nil_iff.2 fun x hx heq =>
        hl x hx e List.mem_cons_self (.inr he) (of_decide_eq_true heq)
    have hnil' : l'.filter (fun x => x.timestamp = e.timestamp) = [] :=
      List.filter_eq_nil_iff.2 fun x hx heq =>
        (List.pairwise_cons.1 hr).1 x hx (.inl he) (of_decide_eq_true heq).symm
    rw [hflat, List.filter_append, hnil, List.filter_cons, hnil']
    simp
  have hsub := (sublist_timestamps depth ({}, none)
    (metas.flatMap fun m => load m.path)).filter fun x => decide (x = e.timestamp)
  rw [List.filter_map, List.filter_map] at hsub
  have hlen := hsub.length_le
  rw [List.length_map, List.length_map] at hlen
  rw [namedEvents, l2SnapshotStream_named]
  exact hlen.trans (congrArg List.length hevents).le

/-- The groups touch at most, start at different times and are different. -/
theorem pairwise_groups (h : L2Catalogued metaOf metas load)
    {groups : List (ClosedInterval ℚ × List BlockMeta)}
    (hfst : groups.map Prod.fst = (segments (cutPoints (metas.filterMap (firstSnapshot metaOf))
      (lastEnd metas))).map fun p => ⟨p.1, p.2⟩)
    (hgroup : ∀ p ∈ groups, IsGroup metaOf metas p) :
    groups.Pairwise fun p q => (p.1.upper ≤ q.1.lower ∧ p.1.lower < q.1.lower) ∧ p.2 ≠ q.2 := by
  have hblocks := h.snapshotBlocks
  have hpair : (groups.map Prod.fst).Pairwise fun I J => I.upper ≤ J.lower ∧ I.lower < J.lower := by
    rw [hfst]
    exact List.pairwise_map.2 (pairwise_segments
      (pairwise_cutPoints hblocks.pairwise_starts fun t ht => hblocks.start_le_lastEnd ht)
      (pairwise_dropLast_cutPoints hblocks.pairwise_starts))
  refine (List.pairwise_map.1 hpair).imp_of_mem fun {p q} hp hq hpq => ⟨hpq, fun heq => ?_⟩
  have hlow := (hgroup p hp).lower_eq
  rw [heq, (hgroup q hq).lower_eq] at hlow
  exact hpq.2.ne' (Option.some.inj hlow)

/-- The outputs on the segments, one after the other: those at the inner cut points are there
twice. -/
theorem flatten_filter_segments [DecidableEq F] {metaOf : BlockMeta → MetaField}
    {metas : List BlockMeta} {load : String → List (Event L2Delta)} {depth : ℤ}
    (h : L2Catalogued metaOf metas load) (dep : F) :
    ((segments (cutPoints (metas.filterMap (firstSnapshot metaOf)) (lastEnd metas))).map fun p =>
        (l2SnapshotStream depth (namedEvents dep load metas)).filter fun o =>
          p.1 ≤ o.timestamp ∧ o.timestamp ≤ p.2).flatten =
      (l2SnapshotStream depth (namedEvents dep load metas)).flatMap fun o =>
        if o.timestamp ∈ (metas.filterMap (firstSnapshot metaOf)).tail ∧
          o.timestamp ≠ lastEnd metas then [o, o] else [o] := by
  have hblocks := h.snapshotBlocks
  have hcutsLe := pairwise_cutPoints hblocks.pairwise_starts fun t ht => hblocks.start_le_lastEnd ht
  set starts := metas.filterMap (firstSnapshot metaOf) with hstarts
  set whole := l2SnapshotStream depth (namedEvents dep load metas) with hwhole
  have hfirst : ∀ o ∈ whole, ∃ first, starts.head? = some first ∧
      first ≤ o.timestamp ∧ o.timestamp ≤ lastEnd metas := fun o ho => h.exists_first_le dep ho
  by_cases hnil : starts = []
  · -- without a snapshot the stream outputs nothing
    have hwholeNil : whole = [] := List.eq_nil_iff_forall_not_mem.2 fun o ho => by
      obtain ⟨first, hf, -⟩ := hfirst o ho
      rw [hnil] at hf
      cases hf
    rw [hnil, hwholeNil]
    rfl
  · obtain ⟨first, l, hcons⟩ := List.exists_cons_of_ne_nil hnil
    have hall : (whole.filter fun o => first ≤ o.timestamp ∧ o.timestamp ≤ lastEnd metas) =
        whole := by
      refine List.filter_eq_self.2 fun o ho => decide_eq_true ?_
      obtain ⟨first', hf, hin⟩ := hfirst o ho
      rw [hcons] at hf
      exact Option.some.inj hf ▸ hin
    have hmem : ∀ t, t ∈ (cutPoints starts (lastEnd metas)).tail.dropLast ↔
        t ∈ starts.tail ∧ t ≠ lastEnd metas := fun t =>
      mem_tail_dropLast_cutPoints hblocks.pairwise_starts fun t ht => hblocks.start_le_lastEnd ht
    rw [flatten_segments (h.pairwise_l2SnapshotStream dep) hcutsLe
      (pairwise_dropLast_cutPoints hblocks.pairwise_starts)
      (fun c hc => h.length_filter_le_one dep (List.mem_of_mem_tail ((hmem c).1 hc).1))
      (hcons ▸ head?_cutPoints first l _) (hcons ▸ getLast?_tail_cutPoints first l _), hall]
    exact List.flatMap_congr fun o _ => if_congr (hmem o.timestamp) rfl rfl

end L2Catalogued

/-- **L2 snapshots block by block.**  The groups' outputs one after the other are those of the
stream over the whole sequence, each once, except that the output at the first snapshot of a block
behind the first one with snapshots is there twice, unless it is the end of the last block. -/
theorem computeBlocks_l2GroupDepRanges [DecidableEq F] {metaOf : BlockMeta → MetaField}
    {metas : List BlockMeta} {load : String → List (Event L2Delta)}
    (h : L2Catalogued metaOf metas load) (depth : ℤ) (dep : F) :
    ∃ d outs, l2GroupDepRanges metaOf metas = .ok d ∧
      computeBlocks dep load (l2SnapshotStream depth) d = .ok outs ∧
      outs.flatten = (l2SnapshotStream depth (namedEvents dep load metas)).flatMap fun o =>
        if o.timestamp ∈ (metas.filterMap (firstSnapshot metaOf)).tail ∧
          o.timestamp ≠ lastEnd metas then [o, o] else [o] := by
  obtain ⟨groups, hd, hfst, hgroup⟩ := l2GroupDepRanges_spec h.snapshotBlocks
  have hblocks := h.snapshotBlocks
  have hpair := h.pairwise_groups hfst hgroup
  have hcutsLe := pairwise_cutPoints hblocks.pairwise_starts fun t ht => hblocks.start_le_lastEnd ht
  set whole := l2SnapshotStream depth (namedEvents dep load metas) with hwhole
  have hle : ∀ p ∈ groups, p.1.lower ≤ p.1.upper := by
    intro p hp
    have hmem := List.mem_map_of_mem (f := Prod.fst) hp
    rw [hfst] at hmem
    obtain ⟨q, hq, heq⟩ := List.mem_map.1 hmem
    rw [← heq]
    exact le_of_mem_segments hcutsLe hq
  have hsurvive : IntervalDict.survivors groups = groups :=
    IntervalDict.survivors_eq_self_iff.2 (hpair.imp fun hpq => hpq.1.2).isChain
  refine ⟨_, groups.map fun p => whole.filter fun o => p.1.lower ≤ o.timestamp ∧
    o.timestamp ≤ p.1.upper, hd, ?_, ?_⟩
  · rw [computeBlocks, getOverlaps_single_touching dep hle (hpair.imp fun hpq => ⟨hpq.1.1, hpq.2⟩),
      hsurvive]
    refine mapM_eq_ok_iff.2 (List.forall₂_map_left_iff.2 (List.forall₂_map_right_iff.2 ?_))
    exact List.forall₂_same.2 fun p hp => h.calculateBlock_group (hgroup p hp) depth dep
  · have hmap := congrArg (List.map fun I : ClosedInterval ℚ => whole.filter fun o =>
      I.lower ≤ o.timestamp ∧ o.timestamp ≤ I.upper) hfst
    rw [List.map_map, List.map_map] at hmap
    exact (congrArg List.flatten hmap).trans (h.flatten_filter_segments dep)

/-- Two blocks with a SNAPSHOT each; the first one also has an event before it. -/
def twoSnapshotMetas : List BlockMeta := [⟨0, 1, "a"⟩, ⟨2, 4, "b"⟩]

/-- Their events. -/
def twoSnapshotLoads (path : String) : List (Event L2Delta) :=
  if path = "a" then
    [⟨0, 0, .add, [⟨.bid, 8, 1⟩]⟩, ⟨1 / 2, 1 / 2, .snapshot, [⟨.bid, 9, 1⟩, ⟨.ask, 10, 1⟩]⟩,
      ⟨1, 1, .add, [⟨.bid, 9, 2⟩]⟩]
  else
    [⟨2, 2, .sub, [⟨.bid, 9, 1⟩]⟩, ⟨3, 3, .snapshot, [⟨.bid, 9, 2⟩, ⟨.ask, 10, 1⟩]⟩,
      ⟨4, 4, .set, [⟨.ask, 10, 5⟩]⟩]

/-- What their metadata lists. -/
def twoSnapshotMeta (m : BlockMeta) : MetaField :=
  .dict (some (snapshotTs (twoSnapshotLoads m.path)))

/-- The snapshot of a book with one level on each side. -/
def oneLevel (ts bid ask : ℚ) : Event L2Snapshot := ⟨ts, ts, ts, [(9, bid)], [(10, ask)]⟩

theorem l2Catalogued_twoSnapshots :
    L2Catalogued twoSnapshotMeta twoSnapshotMetas twoSnapshotLoads := by
  have hms : ∀ m ∈ twoSnapshotMetas, ∀ e ∈ twoSnapshotLoads m.path,
      ∃ n : ℤ, e.timestamp = n / 1000 := by
    have hden : ∀ m ∈ twoSnapshotMetas, ∀ e ∈ twoSnapshotLoads m.path, e.timestamp * 1000 =
        ((e.timestamp * 1000).num : ℚ) := by decide +kernel
    exact fun m hm e he => ⟨_, by rw [← hden m hm e he]; ring⟩
  exact ⟨⟨by decide +kernel, by decide +kernel, by decide +kernel, by decide +kernel⟩, hms,
    by decide +kernel, by decide +kernel⟩

theorem computeBlocks_l2GroupDepRanges_twoSnapshots :
    ∃ d outs, l2GroupDepRanges twoSnapshotMeta twoSnapshotMetas = .ok d ∧
      computeBlocks "book" twoSnapshotLoads (l2SnapshotStream 25) d = .ok outs ∧
      outs.flatten = [oneLevel (1 / 2) 1 1, oneLevel 1 3 1, oneLevel 2 2 1, oneLevel 3 2 1,
        oneLevel 3 2 1, oneLevel 4 2 5] := by
  obtain ⟨d, outs, hd, houts, hflat⟩ :=
    computeBlocks_l2GroupDepRanges l2Catalogued_twoSnapshots 25 "book"
  exact ⟨d, outs, hd, houts, hflat.trans (by decide +kernel)⟩

/-- The output at the second SNAPSHOT is there twice, where the stream over the whole sequence has
it once. -/
theorem not_computeBlocks_eq_l2SnapshotStream :
    L2Catalogued twoSnapshotMeta twoSnapshotMetas twoSnapshotLoads ∧
      ∃ d outs, l2GroupDepRanges twoSnapshotMeta twoSnapshotMetas = .ok d ∧
        computeBlocks "book" twoSnapshotLoads (l2SnapshotStream 25) d = .ok outs ∧
        outs.flatten ≠
          l2SnapshotStream 25 (namedEvents "book" twoSnapshotLoads twoSnapshotMetas) ∧
        outs.flatten.count (oneLevel 3 2 1) = 2 ∧
        (l2SnapshotStream 25 (namedEvents "book" twoSnapshotLoads twoSnapshotMetas)).count
          (oneLevel 3 2 1) = 1 := by
  have h := l2Catalogued_twoSnapshots
  obtain ⟨d, hd⟩ := l2GroupDepRanges_eq_ok_iff.2 h.snapshotBlocks.readable
  have hoverlaps : (l2GroupDepRanges twoSnapshotMeta twoSnapshotMetas >>= fun d =>
      getOverlaps [("book", d)]) = .ok [(⟨1 / 2, 3⟩, [("book", twoSnapshotMetas)]),
        (⟨3, 4⟩, [("book", twoSnapshotMetas.drop 1)])] := by
    decide +kernel
  rw [hd] at hoverlaps
  replace hoverlaps : getOverlaps [("book", d)] = _ := hoverlaps
  refine ⟨h, d, [[oneLevel (1 / 2) 1 1, oneLevel 1 3 1, oneLevel 2 2 1, oneLevel 3 2 1],
    [oneLevel 3 2 1, oneLevel 4 2 5]], hd, ?_, ?_, ?_, ?_⟩
  · rw [computeBlocks, hoverlaps]
    refine mapM_eq_ok_iff.2 (.cons ?_ (.cons ?_ .nil))
    · exact (calculateBlock_of_catalogued h.toCatalogued _ _ _).trans (by decide +kernel)
    · exact (calculateBlock_of_catalogued (h.of_sublist (List.drop_sublist 1 _)) _ _ _).trans
        (by decide +kernel)
  all_goals decide +kernel

end Svoe
