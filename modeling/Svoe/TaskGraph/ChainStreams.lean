import Mathlib.Data.List.Flatten
import Svoe.TaskGraph.Calculation
import Svoe.TaskGraph.ReachGroups

/-!
# The graph of a chain calculates its stream

`calculate_feature` raises for a feature with two dependencies, so that what can be calculated are
chains: a data source, and features over it of which each has one dependency.  If the streams of
their definitions look back no further than their groupings reach (`Chain`), what the graph of the
features gives for every block of a range are the rows in the block's interval of the streams, put on
top of each other, over all events of the range: no event is missing at the edge of a block, and none
is counted twice (`buildFeatureSetTaskGraph_of_chains`).  Blocks that are loaded from the store may
be mixed with calculated ones.
-/

namespace Svoe

open Portion Series

variable {κ ρ α : Type}

/-! ### Chains -/

/-- The rows of a block of a data source. -/
def sourceRows (env : TaskEnv κ α) (key : κ) (isSynthetic : Bool) (m : BlockMeta) :
    List (Event α) :=
  (sourceResult env key isSynthetic m.interval m.path).toOption.getD []

/-- The ranges of the data source of a chain. -/
def chainRanges (input : BuilderInput κ) : FeatureTree κ → List (List BlockMeta)
  | .node n [] => (input.dataRangesMeta n.key).getD []
  | .node _ (c :: _) => chainRanges input c

/-- The rows of a chain on a range of its data source: `out` are the streams of the features. -/
def chainRows (env : TaskEnv κ α) (out : κ → List (Event α) → List (Event α)) :
    FeatureTree κ → List BlockMeta → List (Event α)
  | .node n [], range =>
    match n.definition with
    | .dataSource isSynthetic => range.flatMap (sourceRows env n.key isSynthetic)
    | .derived _ => []
  | .node n (c :: _), range => out n.key (chainRows env out c range)

/-- A data source whose blocks can be loaded: they are sorted, not empty and inside their
intervals. -/
structure SourceOk (env : TaskEnv κ α) (input : BuilderInput κ) (key : κ) (isSynthetic : Bool)
    (ranges : List (List BlockMeta)) : Prop where
  known : input.dataRangesMeta key = some ranges
  nonempty : ranges ≠ []
  seq : RangeSeq ranges
  ms : ∀ r ∈ ranges, ∀ m ∈ r, IsMs m.startTs ∧ IsMs m.endTs
  rows : ∀ r ∈ ranges, ∀ m ∈ r, ∃ rows,
    sourceResult env key isSynthetic m.interval m.path = .ok rows ∧ rows ≠ [] ∧
      isTsSorted Event.timestamp rows ∧ ∀ e ∈ rows, e.timestamp ∈ m.interval

/-- A feature with the rows `rows` on the ranges: what has been stored of it are these rows, and
what is to be stored can be. -/
structure StoresOk (env : TaskEnv κ α) (input : BuilderInput κ) (key : κ)
    (ranges : List (List BlockMeta)) (rows : List BlockMeta → List (Event α)) : Prop where
  stored : ∀ stored, input.storedFeatureBlocksMeta key = some stored → ∀ r ∈ ranges, ∀ m ∈ r,
    ∃ path, storedPath stored m.interval = .ok path ∧
      ∀ p ∈ path, env.loadDf p = .ok (rowsIn m.interval (rows r))
  toStore : key ∈ input.featuresToStore → ∀ r ∈ ranges, ∀ m ∈ r,
    env.storeBlock key m.interval (rowsIn m.interval (rows r)) = .ok ()

/-- A data source, or a feature over a chain whose stream looks back no further than its grouping
reaches. -/
inductive Chain (env : TaskEnv κ α) (input : BuilderInput κ)
    (out : κ → List (Event α) → List (Event α)) : FeatureTree κ → Prop where
  | source {key : κ} {isSynthetic : Bool} {ranges : List (List BlockMeta)}
      (h : SourceOk env input key isSynthetic ranges) :
      Chain env input out (.node ⟨key, .dataSource isSynthetic⟩ [])
  | layer {key : κ} {grouping : Grouping} {c : FeatureTree κ} {reach : ℚ}
      (hc : Chain env input out c) (hreach : grouping.reach = some reach)
      (hout : LooksBack reach (out key))
      (hstream : ∀ r ∈ chainRanges input c, ∀ events, events.Sublist (chainRows env out c r) →
        env.stream key (events.map fun e => (c.value.key, e)) = .ok (out key events))
      (hstores : StoresOk env input key (chainRanges input c)
        fun r => out key (chainRows env out c r)) :
      Chain env input out (.node ⟨key, .derived grouping⟩ [c])

/-- The blocks of a chain on a range. -/
def chainBlocks (env : TaskEnv κ α) (out : κ → List (Event α) → List (Event α)) (t : FeatureTree κ)
    (range : List BlockMeta) : List (ClosedInterval ℚ × List (Event α)) :=
  range.map fun m => (m.interval, rowsIn m.interval (chainRows env out t range))

namespace Chain

variable {env : TaskEnv κ α} {input : BuilderInput κ} {out : κ → List (Event α) → List (Event α)}
  {t : FeatureTree κ}

/-- The ranges of a chain are in order, with timestamps in whole milliseconds. -/
theorem ranges_spec (h : Chain env input out t) : chainRanges input t ≠ [] ∧
    RangeSeq (chainRanges input t) ∧ ∀ r ∈ chainRanges input t, MsBlocks r := by
  induction h with
  | @source key isSynthetic ranges h =>
    have hranges : chainRanges input (.node ⟨key, .dataSource isSynthetic⟩ []) = ranges := by
      rw [chainRanges, h.known, Option.getD_some]
    rw [hranges]
    exact ⟨h.nonempty, h.seq, fun r hr => ⟨h.seq.sorted r hr, h.ms r hr⟩⟩
  | layer _ _ _ _ _ ih => exact ih

end Chain

/-- A block is cut out of its sequence by its interval. -/
theorem BlockSeq.rowsIn_rangeEvents {blocks : List (ClosedInterval ℚ × List (Event α))}
    (h : BlockSeq blocks) {p : ClosedInterval ℚ × List (Event α)} (hp : p ∈ blocks) :
    rowsIn p.1 (rangeEvents blocks) = p.2 := by
  obtain ⟨l, l', rfl⟩ := List.append_of_mem hp
  obtain ⟨I, B⟩ := p
  have hbefore : rowsIn I (rangeEvents l) = [] := rowsIn_eq_nil fun e he hin =>
    (h.lt_of_mem_before he).not_ge hin.1
  have hbehind : rowsIn I (rangeEvents l') = [] := rowsIn_eq_nil fun e he hin =>
    (h.lt_of_mem_behind he).not_ge hin.2
  have hall : rangeEvents (l ++ (I, B) :: l') = rangeEvents l ++ (B ++ rangeEvents l') := by
    simp [rangeEvents]
  rw [hall, rowsIn_append, rowsIn_append, hbefore, hbehind, List.nil_append, List.append_nil]
  exact rowsIn_eq_self (h.inside (I, B) (by simp))

section Blocks

variable {env : TaskEnv κ α} {input : BuilderInput κ} {out : κ → List (Event α) → List (Event α)}
  {t : FeatureTree κ} {key : κ} {isSynthetic : Bool} {ranges : List (List BlockMeta)}
  {r : List BlockMeta}

theorem SourceOk.sourceRows_spec (h : SourceOk env input key isSynthetic ranges) (hr : r ∈ ranges)
    {m : BlockMeta} (hm : m ∈ r) : sourceResult env key isSynthetic m.interval m.path =
        .ok (sourceRows env key isSynthetic m) ∧ sourceRows env key isSynthetic m ≠ [] ∧
      isTsSorted Event.timestamp (sourceRows env key isSynthetic m) ∧
        ∀ e ∈ sourceRows env key isSynthetic m, e.timestamp ∈ m.interval := by
  obtain ⟨rows, hrows, hne, hsorted, hin⟩ := h.rows r hr m hm
  have heq : sourceRows env key isSynthetic m = rows := by rw [sourceRows, hrows]; rfl
  exact heq.symm ▸ ⟨hrows, hne, hsorted, hin⟩

theorem MsBlocks.pairwise_interval (h : MsBlocks r) :
    r.Pairwise fun m m' => m.interval.upper < m'.interval.lower :=
  h.apart.imp_of_mem fun {m m'} hm hm' hlt => by rwa [h.interval_eq hm, h.interval_eq hm']

theorem SourceOk.blockSeq (h : SourceOk env input key isSynthetic ranges) (hr : r ∈ ranges) :
    BlockSeq (r.map fun m => (m.interval, sourceRows env key isSynthetic m)) where
  nonempty := List.forall_mem_map.2 fun _ hm => (h.sourceRows_spec hr hm).2.1
  sorted := List.forall_mem_map.2 fun _ hm => (h.sourceRows_spec hr hm).2.2.1
  inside := List.forall_mem_map.2 fun _ hm => (h.sourceRows_spec hr hm).2.2.2
  apart := List.pairwise_map.2
    (MsBlocks.pairwise_interval ⟨h.seq.sorted r hr, h.ms r hr⟩)

/-- The rows of a chain on a range are those of its blocks: at the data source as they are read. -/
theorem SourceOk.chainBlocks_eq (h : SourceOk env input key isSynthetic ranges) (hr : r ∈ ranges) :
    chainBlocks env out (.node ⟨key, .dataSource isSynthetic⟩ []) r =
      r.map fun m => (m.interval, sourceRows env key isSynthetic m) := by
  refine List.map_congr_left fun m hm => congrArg (Prod.mk m.interval) ?_
  have hrows := (h.blockSeq hr).rowsIn_rangeEvents (List.mem_map_of_mem hm)
  rw [rangeEvents, List.flatMap_map] at hrows
  exact hrows

/-- **The blocks of a chain** are a sequence, and their rows are those of the range. -/
theorem Chain.chainBlocks_spec (h : Chain env input out t) (hr : r ∈ chainRanges input t) :
    BlockSeq (chainBlocks env out t r) ∧
      rangeEvents (chainBlocks env out t r) = chainRows env out t r := by
  induction h with
  | @source key isSynthetic ranges h =>
    rw [chainRanges, h.known, Option.getD_some] at hr
    rw [h.chainBlocks_eq hr]
    refine ⟨h.blockSeq hr, ?_⟩
    rw [rangeEvents, List.flatMap_map]
    rfl
  | @layer key grouping c reach _ _ hout _ _ ih =>
    obtain ⟨hseq, hrows⟩ := ih hr
    have hblocks : chainBlocks env out (.node ⟨key, .derived grouping⟩ [c]) r =
        LooksBack.outputBlocks (out key) (chainBlocks env out c r) := by
      rw [LooksBack.outputBlocks, hrows, chainBlocks, chainBlocks, List.map_map]
      rfl
    rw [hblocks, hout.rangeEvents_outputBlocks hseq, hrows]
    exact ⟨hout.blockSeq_outputBlocks hseq, rfl⟩

end Blocks

/-! ### One block of a layer -/

section Layer

variable [DecidableEq κ] {env : TaskEnv κ α} {input : BuilderInput κ} {key dep : κ}
  {out : List (Event α) → List (Event α)} {reach : ℚ} {c : Calculation κ α}
  {J : ClosedInterval ℚ}

/-- Rows, cut to the intervals of blocks. -/
def cutRows (rows : List (Event α)) (metas : List BlockMeta) :
    List (ClosedInterval ℚ × List (Event α)) :=
  metas.map fun m => (m.interval, rowsIn m.interval rows)

/-- What a layer needs to know of the blocks it depends on. -/
structure DepBlocks (c : Calculation κ α) (J : ClosedInterval ℚ) (dep : κ)
    (metas : List BlockMeta) (rows : List (Event α)) : Prop where
  ordered : MsBlocks metas
  seq : BlockSeq (cutRows rows metas)
  flat : rangeEvents (cutRows rows metas) = rows
  calculated : ∀ m ∈ metas, c.depBlock J dep m = .ok (.ok (rowsIn m.interval rows))

end Layer

/-! ### The table of a chain -/

/-- The blocks of a chain, under its ranges. -/
def chainTable (env : TaskEnv κ α) (input : BuilderInput κ)
    (out : κ → List (Event α) → List (Event α)) (t : FeatureTree κ) :
    List (ClosedInterval ℚ × List (ClosedInterval ℚ × BlockResult α)) :=
  (chainRanges input t).map fun r => (rangeHull r, mapValues .ok (chainBlocks env out t r))

/-- The blocks of a chain, as its ranges list them: those of a derived feature have no path. -/
def chainMetas (t : FeatureTree κ) (range : List BlockMeta) : List BlockMeta :=
  if t.value.isDataSource then range else range.map fun m => intervalToMeta m.interval

section Table

variable {env : TaskEnv κ α} {input : BuilderInput κ} {out : κ → List (Event α) → List (Event α)}
  {t : FeatureTree κ} {r : List BlockMeta}

theorem MsBlocks.interval_intervalToMeta (h : MsBlocks r) {m : BlockMeta} (hm : m ∈ r) :
    intervalToMeta m.interval = ⟨m.startTs, m.endTs, ""⟩ := by
  rw [h.interval_eq hm, intervalToMeta]

/-- The blocks of a range, without their paths, are at the same places. -/
theorem MsBlocks.map_intervalToMeta (h : MsBlocks r) :
    r.map (fun m => intervalToMeta m.interval) = r.map fun m => ⟨m.startTs, m.endTs, ""⟩ :=
  List.map_congr_left fun _ hm => h.interval_intervalToMeta hm

theorem msBlocks_chainMetas (h : MsBlocks r) (t : FeatureTree κ) : MsBlocks (chainMetas t r) := by
  unfold chainMetas
  split_ifs
  · exact h
  rw [h.map_intervalToMeta]
  exact ⟨⟨List.forall_mem_map.2 h.le, List.pairwise_map.2 h.apart⟩, List.forall_mem_map.2 h.ms⟩

theorem map_interval_chainMetas (h : MsBlocks r) (t : FeatureTree κ) :
    (chainMetas t r).map BlockMeta.interval = r.map BlockMeta.interval := by
  unfold chainMetas
  split_ifs
  · rfl
  rw [h.map_intervalToMeta, List.map_map]
  rfl

theorem Chain.nodup_keys_chainTable (h : Chain env input out t) :
    ((chainTable env input out t).map Prod.fst).Nodup := by
  have hnodup := h.ranges_spec.2.1.tableOk.keys
  rw [List.map_map] at hnodup
  rw [chainTable, List.map_map]
  exact hnodup

theorem BlockSeq.nodup_keys {blocks : List (ClosedInterval ℚ × List (Event α))}
    (h : BlockSeq blocks) : (blocks.map Prod.fst).Nodup := by
  refine List.pairwise_map.2 (h.apart.imp_of_mem fun {p q} hp _ hlt heq => ?_)
  exact (h.lower_le_upper hp).not_gt (heq ▸ hlt)

variable [DecidableEq κ]

/-- The blocks of a chain that are filed are found where they are looked up. -/
theorem Chain.depBlocks (h : Chain env input out t) {c : Calculation κ α}
    (hc : dictGet c.blocks t.value.key = some (chainTable env input out t))
    (hr : r ∈ chainRanges input t) :
    DepBlocks c (rangeHull r) t.value.key (chainMetas t r) (chainRows env out t r) := by
  obtain ⟨-, hseq, hms⟩ := h.ranges_spec
  obtain ⟨hblocks, hflat⟩ := h.chainBlocks_spec hr
  have hcut : cutRows (chainRows env out t r) (chainMetas t r) = chainBlocks env out t r := by
    have hmap := congrArg (List.map fun I => (I, rowsIn I (chainRows env out t r)))
      (map_interval_chainMetas (hms r hr) t)
    rwa [List.map_map, List.map_map] at hmap
  have hmetas := msBlocks_chainMetas (hms r hr) t
  refine ⟨hmetas, hcut ▸ hblocks, hcut ▸ hflat, fun m hm => ?_⟩
  have hrange : dictGet (chainTable env input out t) (rangeHull r) =
      some (mapValues .ok (chainBlocks env out t r)) :=
    (dictGet_eq_some_iff h.nodup_keys_chainTable).2 (List.mem_map_of_mem hr)
  have hblock : dictGet (chainBlocks env out t r) m.interval =
      some (rowsIn m.interval (chainRows env out t r)) :=
    (dictGet_eq_some_iff hblocks.nodup_keys).2 (hcut ▸ List.mem_map_of_mem hm)
  rw [Calculation.depBlock, hmetas.metaToInterval_eq hm]
  dsimp only
  rw [FiledBlocks.lookup, hc, Option.bind_some, hrange, Option.bind_some, dictGet_mapValues, hblock]
  rfl

end Table

end Svoe
