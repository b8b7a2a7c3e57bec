import Svoe.TaskGraph.BlockStore
import Svoe.TaskGraph.StoredBlocks

/-!
# What is stored is loaded

A run stores the blocks that it calculates of some features; a later run builds its graph with the
rows of these features, and loads the files of the blocks that it finds.

* `StoredRun.stores` : the rows are those of the blocks that were calculated.
* `StoredRun.files_eq` : the file of a block holds the frame of its task.
* `loads_of_storedRun` : every block that the first run has calculated is loaded by the later one,
  with the frame of the first.
-/

namespace Svoe

open Portion Transition

namespace BlockStore

variable {κ α : Type} [DecidableEq κ] {names : BlockNames κ} {hashDf : List (Event α) → String}
  {s : BlockStore κ α} {blocks : List (Context κ (ClosedInterval ℚ))} {features : List κ}

/-- The rows of the store, as they are read. -/
def rows (s : BlockStore κ α) : List (FeatureBlockMetadata κ) :=
  s.table.map StoredRow.toFeatureBlockMetadata

/-- A run has stored these blocks, in an empty store: there was a task for each of them, all tasks
are done, and no two of their frames have the same hash. -/
structure StoredRun (names : BlockNames κ) (hashDf : List (Event α) → String)
    (blocks : List (Context κ (ClosedInterval ℚ))) (s : BlockStore κ α) : Prop where
  reached : ∃ as, run (step names hashDf) { files := fun _ => none } as = some s
  tasks : (s.made.map fun q => q.1.context).Perm blocks
  stored : ∀ w ∈ s.writers, w.phase = .stored
  kept : s.deletions = []
  hashes : (s.made.map fun q => hashDf q.1.df).Nodup

theorem StoredRun.invariants (h : StoredRun names hashDf blocks s)
    (hhash : ∀ df, '-' ∉ (hashDf df).toList) :
    StoreInv names hashDf (fun _ => none) s ∧ OutcomeInv s := by
  obtain ⟨as, has⟩ := h.reached
  exact invariants_of_run (fun _ _ => rfl) hhash has

/-- A task is known by the hash of its row. -/
theorem StoredRun.eq_of_hash (h : StoredRun names hashDf blocks s)
    (hs : StoreInv names hashDf (fun _ => none) s) {q q' : FeatureTask κ α × StoredRow κ}
    (hq : q ∈ s.made) (hq' : q' ∈ s.made) (heq : q.2.hash = q'.2.hash) : q = q' := by
  refine List.inj_on_of_nodup_map h.hashes hq hq' ?_
  rw [← (storedRowOf_spec (hs.rows q hq)).2.1, ← (storedRowOf_spec (hs.rows q' hq')).2.1, heq]

/-- The rows are those of the tasks. -/
theorem StoredRun.table_perm (h : StoredRun names hashDf blocks s)
    (hhash : ∀ df, '-' ∉ (hashDf df).toList) : s.table.Perm (s.made.map Prod.snd) := by
  obtain ⟨hs, ho⟩ := h.invariants hhash
  have hmade : (s.made.map Prod.snd).Nodup :=
    (h.hashes.of_map _).map_on fun q hq q' hq' heq => h.eq_of_hash hs hq hq' (heq ▸ rfl)
  refine (List.perm_ext_iff_of_nodup (ho.hashes.of_map _) hmade).2 fun row => ⟨fun hrow => ?_, ?_⟩
  · obtain ⟨q, hq, rfl⟩ := hs.table row hrow
    exact List.mem_map_of_mem hq
  · intro hrow
    obtain ⟨q, hq, rfl⟩ := List.mem_map.1 hrow
    obtain ⟨w, hw, rfl⟩ := List.mem_map.1 hq
    obtain ⟨row, hrow', heq⟩ := List.mem_map.1 (ho.stored h.kept w hw (h.stored w hw))
    obtain ⟨q', hq', rfl⟩ := hs.table row hrow'
    rw [h.eq_of_hash hs hq' hq heq] at hrow'
    exact hrow'

/-- **The rows** are those of the blocks that were calculated. -/
theorem StoredRun.stores (h : StoredRun names hashDf blocks s)
    (hhash : ∀ df, '-' ∉ (hashDf df).toList) (hfeatures : ∀ c ∈ blocks, c.featureKey ∈ features) :
    Stores features s.rows blocks := by
  obtain ⟨hs, ho⟩ := h.invariants hhash
  have hcontexts : (s.rows.map FeatureBlockMetadata.context).Perm blocks := by
    refine .trans ?_ h.tasks
    rw [rows, List.map_map]
    refine ((h.table_perm hhash).map _).trans (.of_eq ?_)
    rw [List.map_map]
    exact List.map_congr_left fun q hq => (storedRowOf_spec (hs.rows q hq)).1
  have hall : ∀ r ∈ s.rows, r.key ∈ features := fun r hr =>
    hfeatures _ (hcontexts.mem_iff.1 (List.mem_map_of_mem hr))
  refine ⟨?_, ?_⟩
  · rw [List.filter_eq_self.2 fun r hr => decide_eq_true (hall r hr)]
    exact hcontexts
  · rw [rows, List.map_map]
    refine (ho.hashes.of_map _).map_on fun row hrow row' hrow' hpath => ?_
    obtain ⟨q, hq, rfl⟩ := hs.table row hrow
    obtain ⟨q', hq', rfl⟩ := hs.table row' hrow'
    rw [h.eq_of_hash hs hq hq' (hash_eq_of_path_eq hhash (hs.rows q hq) (hs.rows q' hq') hpath).2]

/-- **The file** of a block holds the frame of its task. -/
theorem StoredRun.files_eq (h : StoredRun names hashDf blocks s)
    (hhash : ∀ df, '-' ∉ (hashDf df).toList) {q : FeatureTask κ α × StoredRow κ}
    (hq : q ∈ s.made) : s.files q.2.path = some q.1.df := by
  obtain ⟨hs, -⟩ := h.invariants hhash
  have hrow : q.2 ∈ s.table := (h.table_perm hhash).mem_iff.2 (List.mem_map_of_mem hq)
  obtain ⟨df, hdf⟩ := Option.ne_none_iff_exists'.1 ((hs.present h.kept).1 q.2 hrow)
  obtain ⟨q', hq', hpath, rfl⟩ :=
    hs.frames _ df (isFeaturePath_of_storedRowOf (hs.rows q hq)) hdf
  rw [hdf, h.eq_of_hash hs hq' hq
    (hash_eq_of_path_eq hhash (hs.rows q' hq') (hs.rows q hq) hpath).2]

variable {ρ : Type} {input : BuilderInput κ} {trees : List (FeatureTree κ)}
  {cache : CacheTable κ (ClosedInterval ℚ) ρ} {g : GraphState κ ρ} {startDate endDate : Option ℚ}

/-- **What is stored is loaded.**  If the rows of the blocks that a graph has calculated of the
features are apart, the graph can be built again with them; every one of the blocks is loaded then,
and its file holds the frame that was calculated for it. -/
theorem loads_of_storedRun
    (hbuild : buildFeatureSetTaskGraph (input.withStored fun _ => none) trees cache = .ok g)
    (hhash : ∀ df, '-' ∉ (hashDf df).toList)
    (h : StoredRun names hashDf (g.calculated features) s)
    (hapart : StoredApart features startDate endDate s.rows) :
    ∃ groups, getFeaturesMeta s.rows features startDate endDate = .ok groups ∧
      ∃ g' : GraphState κ ρ,
        buildFeatureSetTaskGraph (input.withStored groups.blocksMeta) trees cache = .ok g' ∧
          g'.bound = g.bound.map (Task.loadOwn features s.rows) ∧
            ∀ task ∈ g.bound, task.call.isCalculation → task.context.featureKey ∈ features →
              ∃ q ∈ s.made, q.1.context = task.context ∧
                task.loadOwn features s.rows = { task with call := .loadIfNeeded q.2.path } ∧
                  s.files q.2.path = some q.1.df := by
  have hstores : Stores features s.rows (g.calculated features) :=
    h.stores hhash fun c hc => (mem_calculated_iff.1 hc).elim fun _ h => h.2.2.1
  obtain ⟨groups, hgroups⟩ := getFeaturesMeta_spec.1.2 (hapart.nodup_entries hstores.paths)
  have hown := hapart.findsOwn hstores (getFeaturesMeta_spec.2 groups hgroups)
  refine ⟨groups, hgroups, _, replay_buildFeatureSetTaskGraph hbuild hown, rfl,
    fun task htask hcalc hkey => ?_⟩
  have hmem : task.context ∈ g.calculated features :=
    mem_calculated_iff.2 ⟨task, htask, hcalc, hkey, rfl⟩
  obtain ⟨q, hq, hcontext⟩ := List.mem_map.1 (h.tasks.mem_iff.2 hmem)
  refine ⟨q, hq, hcontext, ?_, h.files_eq hhash hq⟩
  have hrow : q.2.toFeatureBlockMetadata ∈ s.rows :=
    List.mem_map_of_mem ((h.table_perm hhash).mem_iff.2 (List.mem_map_of_mem hq))
  have hrowContext : q.2.context = task.context :=
    (storedRowOf_spec ((h.invariants hhash).1.rows q hq)).1.trans hcontext
  have hfound := hstores.ownRow nodup_calculated hrow (by rw [← hrowContext] at hkey; exact hkey)
  rw [hrowContext] at hfound
  rw [Task.loadOwn, hfound]
  exact if_pos hcalc

/-- A data source of two touching blocks of ten seconds. -/
def tenSeconds : BuilderInput Bool where
  dataRangesMeta _ := some [[⟨0, 10, "a"⟩, ⟨10, 20, "b"⟩]]
  metaOf _ := .missing

/-- A feature with the blocks of the source. -/
def tenSecondsTree : FeatureTree Bool :=
  .node ⟨true, .derived .identity⟩ [.node ⟨false, .dataSource false⟩ []]

/-- Its tasks. -/
def tenSecondsTasks : List (FeatureTask Bool ℚ) :=
  [⟨⟨true, ⟨0, 10⟩⟩, [⟨0, 5⟩]⟩, ⟨⟨true, ⟨10, 20⟩⟩, [⟨10, 5⟩, ⟨11, 6⟩]⟩]

/-- They store their blocks, both at a time. -/
def tenSecondsRun : List (StoreAction Bool ℚ) :=
  tenSecondsTasks.map .calculated ++
    [.blockExists 1, .blockExists 0, .storeDf 0, .storeDf 1, .storeRow 1, .storeRow 0]

/-- The rows that they leave behind. -/
def tenSecondsRows : List (FeatureBlockMetadata Bool) :=
  [⟨true, 10, 20, 0, midAndSpread.makeFeatureBlockPath true 0 10 "2"⟩,
    ⟨true, 0, 10, 0, midAndSpread.makeFeatureBlockPath true 0 0 "1"⟩]

theorem exists_storedRun_tenSeconds : ∃ s : BlockStore Bool ℚ,
    StoredRun midAndSpread oneRowHash (tenSecondsTasks.map FeatureTask.context) s ∧
      s.rows = tenSecondsRows := by
  have hcontexts : (run (step midAndSpread oneRowHash) { files := fun _ => none }
      tenSecondsRun).map (fun s => s.made.map fun q => q.1.context) =
        some (tenSecondsTasks.map FeatureTask.context) := by
    decide +kernel
  have hphases : (run (step midAndSpread oneRowHash) { files := fun _ => none }
      tenSecondsRun).map (fun s => s.writers.map BlockWriter.phase) = some [.stored, .stored] := by
    decide +kernel
  have hdeletions : (run (step midAndSpread oneRowHash) { files := fun _ => none }
      tenSecondsRun).map (fun s => s.deletions.length) = some 0 := by
    decide +kernel
  have hhashes : (run (step midAndSpread oneRowHash) { files := fun _ => none }
      tenSecondsRun).map (fun s => s.made.map fun q => oneRowHash q.1.df) = some ["1", "2"] := by
    decide +kernel
  have hrows : (run (step midAndSpread oneRowHash) { files := fun _ => none }
      tenSecondsRun).map rows = some tenSecondsRows := by
    decide +kernel
  obtain ⟨s, hs, hrows⟩ := Option.map_eq_some_iff.1 hrows
  rw [hs, Option.map_some, Option.some.injEq] at hcontexts hphases hdeletions hhashes
  refine ⟨s, ⟨⟨_, hs⟩, .of_eq hcontexts, fun w hw => ?_, List.eq_nil_of_length_eq_zero hdeletions,
    hhashes ▸ by decide⟩, hrows⟩
  have hphase := List.mem_map_of_mem (f := BlockWriter.phase) hw
  rw [hphases] at hphase
  simpa using hphase

theorem loads_of_storedRun_tenSeconds :
    ∃ (g g' : GraphState Bool Unit) (s : BlockStore Bool ℚ) (groups : StoredGroups Bool),
      g.calculated [true] = tenSecondsTasks.map FeatureTask.context ∧
        buildFeatureSetTaskGraph (tenSeconds.withStored groups.blocksMeta) [tenSecondsTree] [] =
          .ok g' ∧
        ∀ task ∈ g.bound, task.call.isCalculation → task.context.featureKey ∈ [true] →
          ∃ q ∈ s.made, q.1.context = task.context ∧ s.files q.2.path = some q.1.df := by
  have hbuild : (buildFeatureSetTaskGraph (tenSeconds.withStored fun _ => none)
      [tenSecondsTree] [] : Except PyError (GraphState Bool Unit)).map
        (GraphState.calculated [true]) = .ok (tenSecondsTasks.map FeatureTask.context) := by
    decide +kernel
  obtain ⟨g, hg, hcalculated⟩ := map_eq_ok_iff.1 hbuild
  obtain ⟨s, hs, hrows⟩ := exists_storedRun_tenSeconds
  have hapart : StoredApart [true] none none s.rows := by
    rw [hrows, StoredApart]
    decide +kernel
  obtain ⟨groups, -, g', hg', -, hloads⟩ :=
    loads_of_storedRun hg dash_oneRowHash (hcalculated ▸ hs) hapart
  refine ⟨g, g', s, groups, hcalculated, hg', fun task htask hcalc hkey => ?_⟩
  obtain ⟨q, hq, hcontext, -, hfile⟩ := hloads task htask hcalc hkey
  exact ⟨q, hq, hcontext, hfile⟩

end BlockStore

end Svoe
