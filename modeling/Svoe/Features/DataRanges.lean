import Mathlib.Data.Finset.Card
import Mathlib.Data.List.Count
import Svoe.Blocks.MergeBlocks
import Svoe.Blocks.Ranges
import Svoe.Portion.Sort

/-!
# The input of the live generator

`load_data_ranges` loads, for every common overlap of the ranges of all data sources, the blocks that
reach it, and `merge_data_ranges` merges them overlap by overlap.  Blocks are loaded whole: they are
not cut to the overlap.

* `mergeBlocks_spec` : the merge of sorted blocks.
* `loadDataRanges_spec` : the blocks of every common overlap.
* `sortedMerge_iff` : the merge is sorted and free of duplicates exactly if no block reaches two
  overlaps, or reaches one and the times of another one's blocks.
-/

namespace Svoe

open Portion Series

variable {F δ α : Type}

/-! ### Loading -/

/-- Where the blocks of data sources come from. -/
structure DataStore (F δ α : Type) where
  isSynthetic : F → Bool
  genSyntheticEvents : F → ClosedInterval ℚ → Except PyError (List (Event α))
  loadDf : String → Except PyError δ
  preprocess : F → δ → Except PyError (List (Event α))

/-- For each interval, a list for each data source. -/
abbrev PerInterval (F ε : Type) := List (ClosedInterval ℚ × List (F × List ε))

/-- Replace each element of the lists. -/
def mapElements {ε ε' : Type} (f : F → ε → Except PyError ε') (ranges : PerInterval F ε) :
    Except PyError (PerInterval F ε') :=
  ranges.mapM fun p =>
    (p.2.mapM fun (kv : F × List ε) => (kv.2.mapM (f kv.1)).map fun l => (kv.1, l)).map
      fun m => (p.1, m)

/-- The first loop of `load_data_ranges`: synthetic blocks are made, the others are submitted. -/
def submitBlock (store : DataStore F δ α) (feature : F) (blockMeta : BlockMeta) :
    Except PyError (BlockMeta × Option (List (Event α))) :=
  if store.isSynthetic feature then do
    let interval ← metaToInterval blockMeta
    return (blockMeta, some (← store.genSyntheticEvents feature interval))
  else return (blockMeta, none)

/-- The second loop of `load_data_ranges`: what was submitted is loaded and preprocessed. -/
def awaitBlock (store : DataStore F δ α) (feature : F)
    (slot : BlockMeta × Option (List (Event α))) : Except PyError (List (Event α)) :=
  match slot.2 with
  | some block => .ok block
  | none => do
    let block ← store.loadDf slot.1.path
    store.preprocess feature block

variable [DecidableEq F]

/-- `load_data_ranges`. -/
def loadDataRanges (store : DataStore F δ α) (rangesMetaPerData : List (F × List (List BlockMeta))) :
    Except PyError (PerInterval F (List (Event α))) := do
  let rangesMetaDictPerData ← rangesMetaPerData.mapM fun p =>
    (rangesToIntervalDict p.2).map fun d => (p.1, d)
  let overlaps ← getOverlaps rangesMetaDictPerData
  let rangeMetaIntervals ← pruneOverlaps metaToInterval overlaps
  let dataRanges ← mapElements (submitBlock store) rangeMetaIntervals
  mapElements (awaitBlock store) dataRanges

/-- A sort of intervals, by the comparison that it is given. -/
abbrev IntervalSort :=
  (ClosedInterval ℚ → ClosedInterval ℚ → Bool) → List (ClosedInterval ℚ) → List (ClosedInterval ℚ)

/-- `merge_data_ranges`, over Python's `sorted`. -/
def mergeDataRanges (sorted : IntervalSort) (dataRanges : PerInterval F (List (Event α))) :
    Except PyError (List (F × Event α)) := do
  let mergedPerData ← dataRanges.mapM fun p => (mergeBlocks p.2).map fun merged => (p.1, merged)
  let sortedIntervals := sorted ClosedInterval.lt (mergedPerData.map Prod.fst)
  return sortedIntervals.flatMap fun I => (dictGet mergedPerData I).getD []

/-! ### Merging sorted blocks -/

/-- Named events in the order of their timestamps. -/
def NamedSorted (l : List (F × Event α)) : Prop :=
  l.Pairwise fun x y => x.2.timestamp ≤ y.2.timestamp

omit [DecidableEq F] in
/-- **The merge of sorted blocks** is sorted, and has the events of all of them. -/
theorem mergeBlocks_spec {blocks : List (F × List (List (Event α)))} (hne : blocks ≠ [])
    (hsorted : ∀ p ∈ blocks, ∀ b ∈ p.2, isTsSorted Event.timestamp b) :
    ∃ l, mergeBlocks blocks = .ok l ∧
      l.Perm (blocks.flatMap fun p => p.2.flatten.map fun e => (p.1, e)) ∧ NamedSorted l := by
  obtain ⟨l, hl, hstable⟩ := stableSort_mergeBlocks hne hsorted
  exact ⟨l, hl, hstable.perm, hstable.sorted⟩

/-! ### The blocks of an overlap -/

/-- The events of a block, loaded and preprocessed. -/
def blockEvents (store : DataStore F δ α) (feature : F) (blockMeta : BlockMeta) : List (Event α) :=
  match submitBlock store feature blockMeta >>= awaitBlock store feature with
  | .ok block => block
  | .error _ => []

/-- The blocks of each data source that reach the interval. -/
def blocksAt (store : DataStore F δ α) (rangesMetaPerData : List (F × List (List BlockMeta)))
    (J : ClosedInterval ℚ) : List (F × List (List (Event α))) :=
  rangesMetaPerData.map fun s => (s.1, (blocksOn J s.2.flatten).map (blockEvents store s.1))

/-- A common overlap: what one range of each data source has in common. -/
def CommonOverlap (rangesMetaPerData : List (F × List (List BlockMeta))) (J : ClosedInterval ℚ) :
    Prop :=
  J.lower ≤ J.upper ∧ ∃ v, ChoosesRanges rangesMetaPerData v ∧
    ∀ t, t ∈ J ↔ ∀ kv ∈ v, t ∈ rangeHull kv.2

variable {store : DataStore F δ α} {rangesMetaPerData : List (F × List (List BlockMeta))}
  {dataRanges : PerInterval F (List (Event α))} {J J' : ClosedInterval ℚ}

omit [DecidableEq F] in
/-- Both loops: each block is replaced by its events. -/
theorem eq_of_loadBlocks {ranges : PerInterval F BlockMeta}
    {slots : PerInterval F (BlockMeta × Option (List (Event α)))}
    (hslots : mapElements (submitBlock store) ranges = .ok slots)
    (hblocks : mapElements (awaitBlock store) slots = .ok dataRanges) :
    dataRanges = ranges.map fun p =>
      (p.1, p.2.map fun kv => (kv.1, kv.2.map (blockEvents store kv.1))) := by
  refine eq_map_of_mapM_mapM hslots hblocks fun p q r hq hr => ?_
  obtain ⟨kvs, hkvs, rfl⟩ := map_eq_ok_iff.1 hq
  obtain ⟨kvs', hkvs', rfl⟩ := map_eq_ok_iff.1 hr
  refine Prod.ext rfl (eq_map_of_mapM_mapM hkvs hkvs' fun kv kv' kv'' hkv hkv' => ?_)
  obtain ⟨l, hl, rfl⟩ := map_eq_ok_iff.1 hkv
  obtain ⟨l', hl', rfl⟩ := map_eq_ok_iff.1 hkv'
  refine Prod.ext rfl (eq_map_of_mapM_mapM hl hl' fun m slot block hslot hblock => ?_)
  rw [blockEvents, hslot]
  change block = match awaitBlock store kv.1 slot with
    | .ok block => block
    | .error _ => []
  rw [hblock]

/-- Filed ranges and the list of their common overlaps. -/
structure ListsOverlaps (rangesMetaPerData : List (F × List (List BlockMeta)))
    (Js : List (ClosedInterval ℚ)) : Prop where
  ne_nil : rangesMetaPerData ≠ []
  filed : ∀ s ∈ rangesMetaPerData, ∃ d, RangesFiled s.2 d
  apart : Js.Pairwise fun I J => I.upper < J.lower
  mem_iff : ∀ J, J ∈ Js ↔ CommonOverlap rangesMetaPerData J

/-- **What is loaded**: for each common overlap the blocks of all data sources that reach it. -/
theorem loadDataRanges_spec
    (hsorted : ∀ s ∈ rangesMetaPerData, ∀ r ∈ s.2, SortedBlocks r)
    (h : loadDataRanges store rangesMetaPerData = .ok dataRanges) :
    ∃ Js, ListsOverlaps rangesMetaPerData Js ∧
      dataRanges = Js.map fun J => (J, blocksAt store rangesMetaPerData J) := by
  simp only [loadDataRanges, bind_eq_ok_iff] at h
  obtain ⟨dicts, hdicts, overlaps, hoverlaps, pruned, hpruned, slots, hslots, hblocks⟩ := h
  have hfiled : SourcesFiled rangesMetaPerData dicts := by
    refine (mapM_eq_ok_iff.1 hdicts).imp fun {s kd} hkd => ?_
    obtain ⟨d, hd, rfl⟩ := map_eq_ok_iff.1 hkd
    exact ⟨rfl, rangesToIntervalDict_spec hd⟩
  have hne : rangesMetaPerData ≠ [] := by
    rintro rfl
    obtain rfl := List.forall₂_nil_left_iff.1 hfiled
    cases hoverlaps
  obtain ⟨-, rfl⟩ := (hfiled.pruneOverlaps_eq_ok_iff hsorted hne hoverlaps).1 hpruned
  refine ⟨overlaps.map Prod.fst, ⟨hne, fun s hs => ?_, List.pairwise_map.2
    (pairwise_overlaps (hfiled.ne_nil hne) hfiled.closedKeys hoverlaps), fun J => ?_⟩, ?_⟩
  · obtain ⟨kd, -, -, hd⟩ := exists_mem_of_forall₂ hfiled hs
    exact ⟨kd.2, hd⟩
  · rw [List.mem_map, CommonOverlap]
    constructor
    · rintro ⟨⟨J, v⟩, hp, rfl⟩
      obtain ⟨hle, hv, hJ⟩ := (hfiled.mem_overlaps_iff hne hoverlaps).1 hp
      exact ⟨hle, v, hv, hJ⟩
    · rintro ⟨hle, v, hv, hJ⟩
      exact ⟨(J, v), (hfiled.mem_overlaps_iff hne hoverlaps).2 ⟨hle, hv, hJ⟩, rfl⟩
  · rw [eq_of_loadBlocks hslots hblocks, List.map_map, List.map_map]
    simp only [Function.comp_def, List.map_map, blocksAt]

namespace ListsOverlaps

variable {Js : List (ClosedInterval ℚ)}

omit [DecidableEq F] in
theorem nodup (h : ListsOverlaps rangesMetaPerData Js) : Js.Nodup := by
  refine h.apart.imp_of_mem fun {I J} _ hJ hlt heq => ?_
  exact (heq ▸ hlt).not_ge ((h.mem_iff J).1 hJ).1

omit [DecidableEq F] in
/-- A relation of each overlap to the later ones. -/
theorem pairwise_iff (h : ListsOverlaps rangesMetaPerData Js)
    {R : ClosedInterval ℚ → ClosedInterval ℚ → Prop} :
    Js.Pairwise R ↔ ∀ I J, CommonOverlap rangesMetaPerData I → CommonOverlap rangesMetaPerData J →
      I.upper < J.lower → R I J := by
  constructor
  · intro hR I J hI hJ hlt
    have hsymm : Std.Symm fun I J : ClosedInterval ℚ => (I.upper < J.lower → R I J) ∧
        (J.upper < I.lower → R J I) := ⟨fun _ _ h => h.symm⟩
    have hboth : Js.Pairwise fun I J => (I.upper < J.lower → R I J) ∧
        (J.upper < I.lower → R J I) := by
      refine (hR.and h.apart).imp_of_mem fun {I J} hI hJ hIJ => ⟨fun _ => hIJ.1, fun hlt => ?_⟩
      have hle := ((h.mem_iff I).1 hI).1
      exact absurd (hle.trans_lt (hIJ.2.trans_le ((h.mem_iff J).1 hJ).1)) hlt.not_gt
    refine (hboth.forall ((h.mem_iff I).2 hI) ((h.mem_iff J).2 hJ) fun heq => ?_).1 hlt
    exact (heq ▸ hlt).not_ge hJ.1
  · intro hR
    exact h.apart.imp_of_mem fun {I J} hI hJ => hR I J ((h.mem_iff I).1 hI) ((h.mem_iff J).1 hJ)

omit [DecidableEq F] in
/-- One of two overlaps lies before the other. -/
theorem trichotomy (h : ListsOverlaps rangesMetaPerData Js) {I J : ClosedInterval ℚ}
    (hI : CommonOverlap rangesMetaPerData I) (hJ : CommonOverlap rangesMetaPerData J) :
    I.upper < J.lower ∨ I = J ∨ J.upper < I.lower := by
  have hsymm : Std.Symm fun I J : ClosedInterval ℚ => I.upper < J.lower ∨ J.upper < I.lower :=
    ⟨fun _ _ h => h.symm⟩
  by_cases heq : I = J
  · exact .inr (.inl heq)
  · have hor : Js.Pairwise fun I J => I.upper < J.lower ∨ J.upper < I.lower := h.apart.imp Or.inl
    exact (hor.forall ((h.mem_iff I).2 hI) ((h.mem_iff J).2 hJ) heq).imp_right Or.inr

end ListsOverlaps

/-! ### Counting -/

/-- The blocks of a data source. -/
def sourceBlocks (rangesMetaPerData : List (F × List (List BlockMeta))) (f : F) : List BlockMeta :=
  ((dictGet rangesMetaPerData f).getD []).flatten

/-- The events of a data source. -/
def sourceEvents (store : DataStore F δ α) (rangesMetaPerData : List (F × List (List BlockMeta)))
    (f : F) : List (Event α) :=
  (sourceBlocks rangesMetaPerData f).flatMap (blockEvents store f)

/-- Ranges of sorted disjoint blocks, whose events are sorted and inside the times of their block. -/
structure OrderedBlocks (store : DataStore F δ α)
    (rangesMetaPerData : List (F × List (List BlockMeta))) : Prop where
  nodup : (rangesMetaPerData.map Prod.fst).Nodup
  ranges : ∀ s ∈ rangesMetaPerData, ∀ r ∈ s.2, SortedBlocks r
  sorted : ∀ f, ∀ m ∈ sourceBlocks rangesMetaPerData f,
    isTsSorted Event.timestamp (blockEvents store f m)
  within : ∀ f, ∀ m ∈ sourceBlocks rangesMetaPerData f, ∀ e ∈ blockEvents store f m,
    m.startTs ≤ e.timestamp ∧ e.timestamp ≤ m.endTs

/-- What is merged for an interval. -/
def mergedAt (store : DataStore F δ α) (rangesMetaPerData : List (F × List (List BlockMeta)))
    (J : ClosedInterval ℚ) : List (F × Event α) :=
  match mergeBlocks (blocksAt store rangesMetaPerData J) with
  | .ok merged => merged
  | .error _ => []

theorem mem_sourceBlocks (hnodup : (rangesMetaPerData.map Prod.fst).Nodup) {f : F} {m : BlockMeta} :
    m ∈ sourceBlocks rangesMetaPerData f ↔ ∃ s ∈ rangesMetaPerData, s.1 = f ∧ m ∈ s.2.flatten := by
  rw [sourceBlocks]
  constructor
  · intro hm
    cases hget : dictGet rangesMetaPerData f with
    | none => simp [hget] at hm
    | some ranges =>
      rw [hget, Option.getD_some] at hm
      exact ⟨(f, ranges), (dictGet_eq_some_iff hnodup).1 hget, rfl, hm⟩
  · rintro ⟨s, hs, rfl, hm⟩
    rwa [(dictGet_eq_some_iff hnodup).2 hs, Option.getD_some]

/-- Only the list of the name counts. -/
theorem count_flatMap_named [DecidableEq α] {ε : Type} {d : List (F × ε)}
    (hnodup : (d.map Prod.fst).Nodup) (g : F → ε → List (Event α)) (f : F) (e : Event α) :
    (d.flatMap fun s => (g s.1 s.2).map fun e => (s.1, e)).count (f, e) =
      ((dictGet d f).map (g f)).elim 0 (List.count e) := by
  induction d with
  | nil => rfl
  | cons s d ih =>
    rw [List.map_cons, List.nodup_cons] at hnodup
    rw [List.flatMap_cons, List.count_append, ih hnodup.2]
    by_cases hf : s.1 = f
    · obtain rfl := hf
      have hnone : dictGet d s.1 = none := dictGet_eq_none_iff.2 hnodup.1
      have hinj : Function.Injective fun e : Event α => (s.1, e) := fun _ _ h => (Prod.mk.inj h).2
      rw [hnone, List.count_map_of_injective _ _ hinj]
      simp [dictGet]
    · have hzero : ((g s.1 s.2).map fun e => (s.1, e)).count (f, e) = 0 := by
        refine List.count_eq_zero.2 fun hmem => ?_
        obtain ⟨e', -, he'⟩ := List.mem_map.1 hmem
        exact hf (Prod.mk.inj he').1
      rw [hzero, Nat.zero_add]
      simp [dictGet, hf]

/-- An element that one list only has, counted in some of the lists. -/
theorem count_flatMap_filter {ι ε : Type*} [DecidableEq ε] {ev : ι → List ε} {bs : List ι}
    (h : bs.Pairwise fun m m' => ∀ e ∈ ev m, e ∉ ev m') {m : ι} (hm : m ∈ bs) {e : ε}
    (he : e ∈ ev m) (p : ι → Bool) :
    ((bs.filter p).flatMap ev).count e = if p m then (ev m).count e else 0 := by
  have hzero : ∀ l : List ι, (∀ m' ∈ l, e ∉ ev m') → ((l.filter p).flatMap ev).count e = 0 := by
    intro l hl
    refine List.count_eq_zero.2 fun hmem => ?_
    obtain ⟨m', hm', hem'⟩ := List.mem_flatMap.1 hmem
    exact hl m' (List.mem_of_mem_filter hm') hem'
  obtain ⟨l, l', rfl⟩ := List.append_of_mem hm
  obtain ⟨-, htail, hcross⟩ := List.pairwise_append.1 h
  have hl := hzero l fun m' hm' he' => hcross m' hm' m List.mem_cons_self e he' he
  have hl' := hzero l' fun m' hm' => (List.pairwise_cons.1 htail).1 m' hm' e he
  rw [List.filter_append, List.flatMap_append, List.count_append, hl, Nat.zero_add,
    List.filter_cons]
  split_ifs
  · rw [List.flatMap_cons, List.count_append, hl', Nat.add_zero]
  · exact hl'

theorem sum_map_ite {ι : Type*} (l : List ι) (p : ι → Bool) (c : ℕ) :
    (l.map fun x => if p x then c else 0).sum = l.countP p * c := by
  induction l with
  | nil => simp
  | cons x l ih =>
    rw [List.map_cons, List.sum_cons, ih, List.countP_cons]
    split_ifs <;> ring

theorem countP_le_one_iff {ι : Type*} [DecidableEq ι] {l : List ι} (h : l.Nodup) {p : ι → Bool} :
    l.countP p ≤ 1 ↔ ∀ a ∈ l, p a → ∀ b ∈ l, p b → a = b := by
  rw [List.countP_eq_length_filter, ← List.toFinset_card_of_nodup (h.filter p), Finset.card_le_one]
  simp only [List.mem_toFinset, List.mem_filter, and_imp]

namespace OrderedBlocks

variable {Js : List (ClosedInterval ℚ)} {f : F} {m m' : BlockMeta} {e : Event α}

theorem mergedAt_spec (h : OrderedBlocks store rangesMetaPerData) (hne : rangesMetaPerData ≠ [])
    (J : ClosedInterval ℚ) :
    mergeBlocks (blocksAt store rangesMetaPerData J) = .ok (mergedAt store rangesMetaPerData J) ∧
      (mergedAt store rangesMetaPerData J).Perm (rangesMetaPerData.flatMap fun s =>
        ((blocksOn J s.2.flatten).flatMap (blockEvents store s.1)).map fun e => (s.1, e)) ∧
        NamedSorted (mergedAt store rangesMetaPerData J) := by
  have hsorted : ∀ p ∈ blocksAt store rangesMetaPerData J, ∀ b ∈ p.2,
      isTsSorted Event.timestamp b := by
    intro p hp b hb
    obtain ⟨s, hs, rfl⟩ := List.mem_map.1 hp
    obtain ⟨m, hm, rfl⟩ := List.mem_map.1 hb
    exact h.sorted s.1 m ((mem_sourceBlocks h.nodup).2 ⟨s, hs, rfl, (mem_blocksOn.1 hm).1⟩)
  obtain ⟨merged, hmerged, hperm, hpair⟩ :=
    mergeBlocks_spec (by simpa [blocksAt] using hne) hsorted
  rw [mergedAt, hmerged]
  refine ⟨rfl, ?_, hpair⟩
  rwa [blocksAt, List.flatMap_map] at hperm

/-- Where a merged event comes from. -/
theorem mem_mergedAt_iff (h : OrderedBlocks store rangesMetaPerData) (hne : rangesMetaPerData ≠ [])
    {J : ClosedInterval ℚ} :
    (f, e) ∈ mergedAt store rangesMetaPerData J ↔
      ∃ m ∈ blocksOn J (sourceBlocks rangesMetaPerData f), e ∈ blockEvents store f m := by
  rw [(h.mergedAt_spec hne J).2.1.mem_iff]
  simp only [List.mem_flatMap, List.mem_map, Prod.mk.injEq, mem_blocksOn, mem_sourceBlocks h.nodup]
  constructor
  · rintro ⟨s, hs, e, ⟨m, ⟨hm, hJ⟩, he⟩, rfl, rfl⟩
    exact ⟨m, ⟨⟨s, hs, rfl, hm⟩, hJ⟩, he⟩
  · rintro ⟨m, ⟨⟨s, hs, rfl, hm⟩, hJ⟩, he⟩
    exact ⟨s, hs, e, ⟨m, ⟨hm, hJ⟩, he⟩, rfl, rfl⟩

theorem count_mergedAt [DecidableEq α] (h : OrderedBlocks store rangesMetaPerData)
    (hne : rangesMetaPerData ≠ []) (J : ClosedInterval ℚ) (f : F) (e : Event α) :
    (mergedAt store rangesMetaPerData J).count (f, e) =
      ((blocksOn J (sourceBlocks rangesMetaPerData f)).flatMap (blockEvents store f)).count e := by
  rw [(h.mergedAt_spec hne J).2.1.count_eq, count_flatMap_named h.nodup
    fun f ranges => (blocksOn J ranges.flatten).flatMap (blockEvents store f), sourceBlocks]
  cases dictGet rangesMetaPerData f <;> rfl

/-- **Merging what has been loaded** gives the merge of each overlap, one after the other. -/
theorem mergeDataRanges_eq {sorted : IntervalSort}
    (hsorted : ∀ lt Is, MergingSort lt Is (sorted lt Is))
    (h : OrderedBlocks store rangesMetaPerData)
    (hJs : ListsOverlaps rangesMetaPerData Js) :
    mergeDataRanges sorted (Js.map fun J => (J, blocksAt store rangesMetaPerData J)) =
      .ok (Js.flatMap (mergedAt store rangesMetaPerData)) := by
  have hmerged : ((Js.map fun J => (J, blocksAt store rangesMetaPerData J)).mapM fun p =>
      (mergeBlocks p.2).map fun merged => (p.1, merged)) =
        .ok (Js.map fun J => (J, mergedAt store rangesMetaPerData J)) := by
    rw [List.mapM_map]
    refine mapM_eq_ok fun J _ => ?_
    rw [Function.comp_apply, (h.mergedAt_spec hJs.ne_nil J).1]
    rfl
  have hkeys : (Js.map fun J => (J, mergedAt store rangesMetaPerData J)).map Prod.fst = Js := by
    rw [List.map_map]
    exact List.map_id Js
  have hmerging : MergingSort (fun I J => (id I : ClosedInterval ℚ).lt (id J)) Js
      (sorted ClosedInterval.lt Js) := hsorted _ Js
  have hsort : sorted ClosedInterval.lt Js = Js :=
    sort_eq_of_perm hmerging (fun J hJ => ((hJs.mem_iff J).1 hJ).1) (.refl Js) hJs.apart
  rw [mergeDataRanges, hmerged]
  simp only [bind, Except.bind, pure, Except.pure, hkeys, hsort]
  refine congrArg _ (List.flatMap_congr fun J hJ => ?_)
  have hget : dictGet (Js.map fun J => (J, mergedAt store rangesMetaPerData J)) J =
      some (mergedAt store rangesMetaPerData J) :=
    (dictGet_eq_some_iff (hkeys.symm ▸ hJs.nodup)).2 (List.mem_map.2 ⟨J, hJ, rfl⟩)
  rw [hget, Option.getD_some]

/-- The blocks of a data source are disjoint in time. -/
theorem pairwise_sourceBlocks (h : OrderedBlocks store rangesMetaPerData)
    (hJs : ListsOverlaps rangesMetaPerData Js) (f : F) :
    (sourceBlocks rangesMetaPerData f).Pairwise fun m m' =>
      m.endTs < m'.startTs ∨ m'.endTs < m.startTs := by
  rw [sourceBlocks]
  cases hget : dictGet rangesMetaPerData f with
  | none => exact .nil
  | some ranges =>
    have hs := (dictGet_eq_some_iff h.nodup).1 hget
    obtain ⟨d, hd⟩ := hJs.filed _ hs
    exact hd.pairwise_blocks (h.ranges _ hs)

theorem pairwise_events (h : OrderedBlocks store rangesMetaPerData)
    (hJs : ListsOverlaps rangesMetaPerData Js) (f : F) :
    (sourceBlocks rangesMetaPerData f).Pairwise fun m m' =>
      ∀ e ∈ blockEvents store f m, e ∉ blockEvents store f m' := by
  refine (h.pairwise_sourceBlocks hJs f).imp_of_mem fun {m m'} hm hm' hapart e he he' => ?_
  obtain ⟨hlow, hup⟩ := h.within f m hm e he
  obtain ⟨hlow', hup'⟩ := h.within f m' hm' e he'
  rcases hapart with hlt | hlt
  · exact (hlow'.trans hup).not_gt hlt
  · exact (hlow.trans hup').not_gt hlt

/-- **An event is merged once for each overlap** that its block reaches. -/
theorem count_flatMap_mergedAt [DecidableEq α] (h : OrderedBlocks store rangesMetaPerData)
    (hJs : ListsOverlaps rangesMetaPerData Js) (hm : m ∈ sourceBlocks rangesMetaPerData f)
    (he : e ∈ blockEvents store f m) :
    (Js.flatMap (mergedAt store rangesMetaPerData)).count (f, e) =
      Js.countP (fun J => J.toInterval.inter m.interval.toInterval ≠ .empty) *
        (sourceEvents store rangesMetaPerData f).count e := by
  have hcount := fun p => count_flatMap_filter (h.pairwise_events hJs f) hm he p
  have hsource := hcount fun _ => true
  rw [List.filter_true, if_pos rfl] at hsource
  rw [sourceEvents, hsource, List.count_flatMap, ← sum_map_ite]
  refine congrArg List.sum (List.map_congr_left fun J _ => ?_)
  rw [Function.comp_apply, h.count_mergedAt hJs.ne_nil, blocksOn, hcount]

theorem count_eq_zero [DecidableEq α] (h : OrderedBlocks store rangesMetaPerData)
    (hJs : ListsOverlaps rangesMetaPerData Js) (he : e ∉ sourceEvents store rangesMetaPerData f) :
    (Js.flatMap (mergedAt store rangesMetaPerData)).count (f, e) = 0 := by
  refine List.count_eq_zero.2 fun hmem => ?_
  obtain ⟨J, -, hJ⟩ := List.mem_flatMap.1 hmem
  obtain ⟨m, hm, hem⟩ := (h.mem_mergedAt_iff hJs.ne_nil).1 hJ
  exact he (List.mem_flatMap.2 ⟨m, (mem_blocksOn.1 hm).1, hem⟩)

/-- The block of an event inside an overlap reaches it. -/
theorem mem_blocksOn_of_mem (h : OrderedBlocks store rangesMetaPerData) {J : ClosedInterval ℚ}
    (hJ : CommonOverlap rangesMetaPerData J) (hm : m ∈ sourceBlocks rangesMetaPerData f)
    (he : e ∈ blockEvents store f m) (heJ : e.timestamp ∈ J) :
    m ∈ blocksOn J (sourceBlocks rangesMetaPerData f) := by
  obtain ⟨-, v, -, hv⟩ := hJ
  obtain ⟨hlow, hup⟩ := h.within f m hm e he
  -- the ends of the hulls are rounded
  have hround : roundFloat e.timestamp ∈ J := by
    refine (hv _).2 fun kv hkv => ?_
    obtain ⟨hlow, hup⟩ := (hv _).1 heJ kv hkv
    have hlow := roundFloat_mono hlow
    have hup := roundFloat_mono hup
    rw [rangeHull, roundFloat_roundFloat] at hlow hup
    exact ⟨hlow, hup⟩
  exact mem_blocksOn.2 ⟨hm, _, hround, roundFloat_mono hlow, roundFloat_mono hup⟩

end OrderedBlocks

/-! ### The merged input -/

/-- Sorted, with each event at most as often as its source has it, and exactly as often if it lies
in a common overlap. -/
structure SortedMerge [DecidableEq α] (store : DataStore F δ α)
    (rangesMetaPerData : List (F × List (List BlockMeta))) (res : List (F × Event α)) : Prop where
  sorted : NamedSorted res
  atMostOnce : ∀ f e, res.count (f, e) ≤ (sourceEvents store rangesMetaPerData f).count e
  exactlyOnce : ∀ f e J, CommonOverlap rangesMetaPerData J → e.timestamp ∈ J →
    res.count (f, e) = (sourceEvents store rangesMetaPerData f).count e

/-- No block with events reaches two overlaps, and the blocks of one overlap have no events later
than those of another data source on a later overlap. -/
structure BlocksApart (store : DataStore F δ α)
    (rangesMetaPerData : List (F × List (List BlockMeta))) : Prop where
  once : ∀ f I J, CommonOverlap rangesMetaPerData I → CommonOverlap rangesMetaPerData J →
    ∀ m ∈ blocksOn I (sourceBlocks rangesMetaPerData f),
      m ∈ blocksOn J (sourceBlocks rangesMetaPerData f) → blockEvents store f m ≠ [] → I = J
  ordered : ∀ f f' I J, f ≠ f' → CommonOverlap rangesMetaPerData I →
    CommonOverlap rangesMetaPerData J → I.upper < J.lower →
    ∀ m ∈ blocksOn I (sourceBlocks rangesMetaPerData f),
      ∀ m' ∈ blocksOn J (sourceBlocks rangesMetaPerData f'),
        ∀ e ∈ blockEvents store f m, ∀ e' ∈ blockEvents store f' m', e.timestamp ≤ e'.timestamp

/-- The blocks of one data source are in order if none of them reaches two overlaps. -/
theorem BlocksApart.le_of_mem {Js : List (ClosedInterval ℚ)} {f : F} {I J : ClosedInterval ℚ}
    {m m' : BlockMeta} {e e' : Event α} (h : BlocksApart store rangesMetaPerData)
    (hblocks : OrderedBlocks store rangesMetaPerData) (hJs : ListsOverlaps rangesMetaPerData Js)
    (hI : CommonOverlap rangesMetaPerData I) (hJ : CommonOverlap rangesMetaPerData J)
    (hlt : I.upper < J.lower) (hm : m ∈ blocksOn I (sourceBlocks rangesMetaPerData f))
    (hm' : m' ∈ blocksOn J (sourceBlocks rangesMetaPerData f)) (he : e ∈ blockEvents store f m)
    (he' : e' ∈ blockEvents store f m') : e.timestamp ≤ e'.timestamp := by
  have hne : m ≠ m' := by
    rintro rfl
    have heq := h.once f I J hI hJ m hm hm' (List.ne_nil_of_mem he)
    exact (heq ▸ hlt).not_ge hJ.1
  obtain ⟨hmf, t, ht, htm⟩ := mem_blocksOn.1 hm
  obtain ⟨hmf', t', ht', htm'⟩ := mem_blocksOn.1 hm'
  have hsymm : Std.Symm fun m m' : BlockMeta => m.endTs < m'.startTs ∨ m'.endTs < m.startTs :=
    ⟨fun _ _ h => h.symm⟩
  rcases (hblocks.pairwise_sourceBlocks hJs f).forall hmf hmf' hne with hmm | hmm
  · exact ((hblocks.within f m hmf e he).2.trans hmm.le).trans (hblocks.within f m' hmf' e' he').1
  · -- a block of the later overlap does not end before one of the earlier overlap starts
    have hround : m'.interval.upper ≤ m.interval.lower := roundFloat_mono hmm.le
    have hle : t' ≤ t := (htm'.2.trans hround).trans htm.1
    exact absurd hlt ((ht'.1.trans hle).trans ht.2).not_gt

/-- Blocks are apart if those of one overlap end before those of a later one start. -/
theorem blocksApart_of_lt {Js : List (ClosedInterval ℚ)}
    (hblocks : OrderedBlocks store rangesMetaPerData) (hJs : ListsOverlaps rangesMetaPerData Js)
    (hlt : Js.Pairwise fun I J => ∀ s ∈ rangesMetaPerData, ∀ s' ∈ rangesMetaPerData,
      ∀ m ∈ blocksOn I s.2.flatten, ∀ m' ∈ blocksOn J s'.2.flatten, m.endTs < m'.startTs) :
    BlocksApart store rangesMetaPerData := by
  have hmem : ∀ {f I m}, m ∈ blocksOn I (sourceBlocks rangesMetaPerData f) →
      ∃ s ∈ rangesMetaPerData, m ∈ blocksOn I s.2.flatten := by
    intro f I m hm
    obtain ⟨hm, hI⟩ := mem_blocksOn.1 hm
    obtain ⟨s, hs, -, hm⟩ := (mem_sourceBlocks hblocks.nodup).1 hm
    exact ⟨s, hs, mem_blocksOn.2 ⟨hm, hI⟩⟩
  have hapart : ∀ f f' I J, CommonOverlap rangesMetaPerData I → CommonOverlap rangesMetaPerData J →
      I.upper < J.lower → ∀ m ∈ blocksOn I (sourceBlocks rangesMetaPerData f),
        ∀ m' ∈ blocksOn J (sourceBlocks rangesMetaPerData f'), m.endTs < m'.startTs := by
    intro f f' I J hI hJ hIJ m hm m' hm'
    obtain ⟨s, hs, hm⟩ := hmem hm
    obtain ⟨s', hs', hm'⟩ := hmem hm'
    exact hJs.pairwise_iff.1 hlt I J hI hJ hIJ s hs s' hs' m hm m' hm'
  refine ⟨fun f I J hI hJ m hmI hmJ hne => ?_, fun f f' I J _ hI hJ hIJ m hm m' hm' e he e' he' => ?_⟩
  · obtain ⟨e, he⟩ := List.exists_mem_of_ne_nil _ hne
    obtain ⟨hlow, hup⟩ := hblocks.within f m (mem_blocksOn.1 hmI).1 e he
    rcases hJs.trichotomy hI hJ with hIJ | heq | hJI
    · exact absurd (hlow.trans hup) (hapart f f I J hI hJ hIJ m hmI m hmJ).not_ge
    · exact heq
    · exact absurd (hlow.trans hup) (hapart f f J I hJ hI hJI m hmJ m hmI).not_ge
  · have hup := (hblocks.within f m (mem_blocksOn.1 hm).1 e he).2
    have hlow := (hblocks.within f' m' (mem_blocksOn.1 hm').1 e' he').1
    exact (hup.trans (hapart f f' I J hI hJ hIJ m hm m' hm').le).trans hlow

theorem namedSorted_flatMap_iff {Js : List (ClosedInterval ℚ)}
    (hblocks : OrderedBlocks store rangesMetaPerData) (hJs : ListsOverlaps rangesMetaPerData Js) :
    NamedSorted (Js.flatMap (mergedAt store rangesMetaPerData)) ↔
      ∀ I J, CommonOverlap rangesMetaPerData I → CommonOverlap rangesMetaPerData J →
        I.upper < J.lower → ∀ x ∈ mergedAt store rangesMetaPerData I,
          ∀ y ∈ mergedAt store rangesMetaPerData J, x.2.timestamp ≤ y.2.timestamp := by
  rw [NamedSorted, List.pairwise_flatMap, hJs.pairwise_iff]
  exact and_iff_right fun J _ => (hblocks.mergedAt_spec hJs.ne_nil J).2.2

/-- An event of a block is merged at most once if and only if the block reaches one overlap at most. -/
theorem countP_overlaps_le_one_iff {Js : List (ClosedInterval ℚ)} {f : F} {m : BlockMeta}
    (hJs : ListsOverlaps rangesMetaPerData Js) (hm : m ∈ sourceBlocks rangesMetaPerData f) :
    Js.countP (fun J => J.toInterval.inter m.interval.toInterval ≠ .empty) ≤ 1 ↔
      ∀ I J, CommonOverlap rangesMetaPerData I → CommonOverlap rangesMetaPerData J →
        m ∈ blocksOn I (sourceBlocks rangesMetaPerData f) →
        m ∈ blocksOn J (sourceBlocks rangesMetaPerData f) → I = J := by
  rw [countP_le_one_iff hJs.nodup]
  simp only [decide_eq_true_eq, mem_blocksOn_iff, hm, true_and, hJs.mem_iff]
  exact ⟨fun h I J hI hJ hmI hmJ => h I hI hmI J hJ hmJ,
    fun h I hI hmI J hJ hmJ => h I J hI hJ hmI hmJ⟩

variable [DecidableEq α]

theorem SortedMerge.blocksApart {Js : List (ClosedInterval ℚ)}
    (hblocks : OrderedBlocks store rangesMetaPerData) (hJs : ListsOverlaps rangesMetaPerData Js)
    (h : SortedMerge store rangesMetaPerData (Js.flatMap (mergedAt store rangesMetaPerData))) :
    BlocksApart store rangesMetaPerData where
  once f I J hI hJ m hmI hmJ hne := by
    obtain ⟨e, he⟩ := List.exists_mem_of_ne_nil _ hne
    have hm := (mem_blocksOn.1 hmI).1
    have hpos : 0 < (sourceEvents store rangesMetaPerData f).count e :=
      List.count_pos_iff.2 (List.mem_flatMap.2 ⟨m, hm, he⟩)
    have hmost := h.atMostOnce f e
    rw [hblocks.count_flatMap_mergedAt hJs hm he] at hmost
    have hle := Nat.le_of_mul_le_mul_right (hmost.trans (Nat.one_mul _).ge) hpos
    exact (countP_overlaps_le_one_iff hJs hm).1 hle I J hI hJ hmI hmJ
  ordered f f' I J _ hI hJ hlt m hm m' hm' e he e' he' := by
    have hx := (hblocks.mem_mergedAt_iff hJs.ne_nil).2 ⟨m, hm, he⟩
    have hy := (hblocks.mem_mergedAt_iff hJs.ne_nil).2 ⟨m', hm', he'⟩
    exact (namedSorted_flatMap_iff hblocks hJs).1 h.sorted I J hI hJ hlt _ hx _ hy

theorem BlocksApart.sortedMerge {Js : List (ClosedInterval ℚ)}
    (h : BlocksApart store rangesMetaPerData) (hblocks : OrderedBlocks store rangesMetaPerData)
    (hJs : ListsOverlaps rangesMetaPerData Js) :
    SortedMerge store rangesMetaPerData (Js.flatMap (mergedAt store rangesMetaPerData)) := by
  have hone : ∀ f m e, m ∈ sourceBlocks rangesMetaPerData f → e ∈ blockEvents store f m →
      Js.countP (fun J => J.toInterval.inter m.interval.toInterval ≠ .empty) ≤ 1 :=
    fun f m e hm he => (countP_overlaps_le_one_iff hJs hm).2 fun I J hI hJ hmI hmJ =>
      h.once f I J hI hJ m hmI hmJ (List.ne_nil_of_mem he)
  refine ⟨(namedSorted_flatMap_iff hblocks hJs).2 ?_, fun f e => ?_, fun f e J hJ heJ => ?_⟩
  · rintro I J hI hJ hlt ⟨f, e⟩ hx ⟨f', e'⟩ hy
    obtain ⟨m, hm, he⟩ := (hblocks.mem_mergedAt_iff hJs.ne_nil).1 hx
    obtain ⟨m', hm', he'⟩ := (hblocks.mem_mergedAt_iff hJs.ne_nil).1 hy
    by_cases hf : f = f'
    · obtain rfl := hf
      exact h.le_of_mem hblocks hJs hI hJ hlt hm hm' he he'
    · exact h.ordered f f' I J hf hI hJ hlt m hm m' hm' e he e' he'
  · by_cases he : e ∈ sourceEvents store rangesMetaPerData f
    · obtain ⟨m, hm, hem⟩ := List.mem_flatMap.1 he
      rw [hblocks.count_flatMap_mergedAt hJs hm hem]
      exact (Nat.mul_le_mul_right _ (hone f m e hm hem)).trans (Nat.one_mul _).le
    · exact (hblocks.count_eq_zero hJs he).trans_le (Nat.zero_le _)
  · by_cases he : e ∈ sourceEvents store rangesMetaPerData f
    · obtain ⟨m, hm, hem⟩ := List.mem_flatMap.1 he
      have hreach := mem_blocksOn_iff.1 (hblocks.mem_blocksOn_of_mem hJ hm hem heJ)
      have hpos : 0 < Js.countP fun J => J.toInterval.inter m.interval.toInterval ≠ .empty :=
        List.countP_pos_iff.2 ⟨J, (hJs.mem_iff J).2 hJ, decide_eq_true hreach.2⟩
      rw [hblocks.count_flatMap_mergedAt hJs hm hem, (hone f m e hm hem).antisymm hpos,
        Nat.one_mul]
    · rw [hblocks.count_eq_zero hJs he, List.count_eq_zero.2 he]

/-- **The input of the live generator** is a sorted merge without duplicates if and only if the
blocks of the overlaps are apart. -/
theorem sortedMerge_iff {sorted : IntervalSort}
    (hsorted : ∀ lt Is, MergingSort lt Is (sorted lt Is))
    (hblocks : OrderedBlocks store rangesMetaPerData)
    (h : loadDataRanges store rangesMetaPerData = .ok dataRanges) :
    (∃ res, mergeDataRanges sorted dataRanges = .ok res ∧
      SortedMerge store rangesMetaPerData res) ↔ BlocksApart store rangesMetaPerData := by
  obtain ⟨Js, hJs, rfl⟩ := loadDataRanges_spec hblocks.ranges h
  have hmerge := hblocks.mergeDataRanges_eq hsorted hJs
  constructor
  · rintro ⟨res, hres, hsm⟩
    obtain rfl := Except.ok.inj (hmerge.symm.trans hres)
    exact hsm.blocksApart hblocks hJs
  · intro hapart
    exact ⟨_, hmerge, hapart.sortedMerge hblocks hJs⟩

/-! ### A block between two overlaps -/

omit [DecidableEq α] in
theorem orderedBlocks_of_mem (hnodup : (rangesMetaPerData.map Prod.fst).Nodup)
    (hranges : ∀ s ∈ rangesMetaPerData, ∀ r ∈ s.2, SortedBlocks r)
    (hblocks : ∀ s ∈ rangesMetaPerData, ∀ m ∈ s.2.flatten,
      isTsSorted Event.timestamp (blockEvents store s.1 m) ∧
        ∀ e ∈ blockEvents store s.1 m, m.startTs ≤ e.timestamp ∧ e.timestamp ≤ m.endTs) :
    OrderedBlocks store rangesMetaPerData where
  nodup := hnodup
  ranges := hranges
  sorted f m hm := by
    obtain ⟨s, hs, rfl, hms⟩ := (mem_sourceBlocks hnodup).1 hm
    exact (hblocks s hs m hms).1
  within f m hm := by
    obtain ⟨s, hs, rfl, hms⟩ := (mem_sourceBlocks hnodup).1 hm
    exact (hblocks s hs m hms).2

/-- Frames under their paths. -/
def frameStore (frames : List (String × List (Event Unit))) :
    DataStore String (List (Event Unit)) Unit where
  isSynthetic _ := false
  genSyntheticEvents _ _ := .ok []
  loadDf path := match dictGet frames path with
    | some df => .ok df
    | none => .error (.value "no such path")
  preprocess _ df := .ok df

/-- Events at the timestamps. -/
def eventsAt (timestamps : List ℚ) : List (Event Unit) := timestamps.map fun t => ⟨t, ()⟩

instance : DecidableEq (PerInterval String (List (Event Unit))) :=
  have : DecidableEq (List (String × List (List (Event Unit)))) := inferInstance
  inferInstanceAs (DecidableEq (List (ClosedInterval ℚ × _)))

def demoStore : DataStore String (List (Event Unit)) Unit :=
  frameStore [("a", eventsAt [0, 5, 25, 30]), ("a1", eventsAt [0, 5]), ("a2", eventsAt [25, 30]),
    ("b1", eventsAt [0, 10]), ("b2", eventsAt [20, 30])]

omit [DecidableEq α] in
/-- The overlaps are the keys of what has been loaded. -/
theorem listsOverlaps_of_loaded (hblocks : OrderedBlocks store rangesMetaPerData)
    (h : loadDataRanges store rangesMetaPerData = .ok dataRanges) :
    ListsOverlaps rangesMetaPerData (dataRanges.map Prod.fst) := by
  obtain ⟨Js, hJs, rfl⟩ := loadDataRanges_spec hblocks.ranges h
  rw [List.map_map]
  exact (List.map_id Js).symm ▸ hJs

/-- The block of the first source reaches both ranges of the second. -/
def straddlingBlock : List (String × List (List BlockMeta)) :=
  [("a", [[⟨0, 30, "a"⟩]]), ("b", [[⟨0, 10, "b1"⟩], [⟨20, 30, "b2"⟩]])]

theorem not_sortedMerge_straddlingBlock :
    OrderedBlocks demoStore straddlingBlock ∧
      ∃ dataRanges, loadDataRanges demoStore straddlingBlock = .ok dataRanges ∧
        ¬ ∃ res, mergeDataRanges binarySort dataRanges = .ok res ∧
          SortedMerge demoStore straddlingBlock res := by
  have hblocks : OrderedBlocks demoStore straddlingBlock :=
    orderedBlocks_of_mem (by decide) (by decide +kernel) (by decide +kernel)
  have hload : loadDataRanges demoStore straddlingBlock =
      .ok [(⟨0, 10⟩, [("a", [eventsAt [0, 5, 25, 30]]), ("b", [eventsAt [0, 10]])]),
        (⟨20, 30⟩, [("a", [eventsAt [0, 5, 25, 30]]), ("b", [eventsAt [20, 30]])])] := by
    decide +kernel
  refine ⟨hblocks, _, hload, ?_⟩
  rintro ⟨res, hres, hsm⟩
  obtain ⟨Js, hJs, heq⟩ := loadDataRanges_spec hblocks.ranges hload
  rw [heq, hblocks.mergeDataRanges_eq mergingSort_binarySort hJs] at hres
  obtain rfl := Except.ok.inj hres
  have hover := listsOverlaps_of_loaded hblocks hload
  have hone := (hsm.blocksApart hblocks hJs).once "a" ⟨0, 10⟩ ⟨20, 30⟩
    ((hover.mem_iff _).1 (by decide)) ((hover.mem_iff _).1 (by decide)) ⟨0, 30, "a"⟩
    (by decide +kernel) (by decide +kernel) (by decide +kernel)
  cases hone

/-- The first source has a block for each range of the second. -/
def splitBlock : List (String × List (List BlockMeta)) :=
  [("a", [[⟨0, 5, "a1"⟩, ⟨25, 30, "a2"⟩]]), ("b", [[⟨0, 10, "b1"⟩], [⟨20, 30, "b2"⟩]])]

theorem sortedMerge_splitBlock :
    ∃ dataRanges, loadDataRanges demoStore splitBlock = .ok dataRanges ∧
      ∃ res, mergeDataRanges binarySort dataRanges = .ok res ∧
        SortedMerge demoStore splitBlock res := by
  have hblocks : OrderedBlocks demoStore splitBlock :=
    orderedBlocks_of_mem (by decide) (by decide +kernel) (by decide +kernel)
  have hload : loadDataRanges demoStore splitBlock =
      .ok [(⟨0, 10⟩, [("a", [eventsAt [0, 5]]), ("b", [eventsAt [0, 10]])]),
        (⟨20, 30⟩, [("a", [eventsAt [25, 30]]), ("b", [eventsAt [20, 30]])])] := by
    decide +kernel
  refine ⟨_, hload, (sortedMerge_iff mergingSort_binarySort hblocks hload).2 ?_⟩
  exact blocksApart_of_lt hblocks (listsOverlaps_of_loaded hblocks hload) (by decide +kernel)

end Svoe
