import Svoe.Blocks.Ranges
import Svoe.TaskGraph.CacheActor
import Svoe.TaskGraph.Grouping
import Svoe.Tree.Postorder

/-!
# The task graph of a feature

`build_feature_task_graph` visits a feature tree in postorder.  A data source gets a node for every
block, filed under the interval of its range.  A derived feature overlaps the ranges of its
dependencies, groups their blocks on every overlap, and gets a node for every overlap of the groups;
the nodes of the dependencies are looked up under the overlap of the ranges.

A `DAGNode` is the number of its `bind` call; `GraphState.bound` lists what was bound, and
`GraphState.lookups` the lookups of dependency nodes so far.
-/

namespace Svoe

open Portion

variable {κ ρ : Type}

/-! ### Features -/

/-- What the builder reads off a data definition. -/
inductive DataDefinition where
  | dataSource (isSynthetic : Bool)
  | derived (grouping : Grouping)

/-- A feature but its children. -/
structure FeatureNode (κ : Type) where
  key : κ
  definition : DataDefinition

/-- A feature with its dependencies. -/
abbrev FeatureTree (κ : Type) := RoseTree (FeatureNode κ)

/-- `feature.data_definition.is_data_source()`. -/
def FeatureNode.isDataSource (n : FeatureNode κ) : Bool :=
  match n.definition with
  | .dataSource _ => true
  | .derived _ => false

/-! ### Nodes -/

/-- A call of `bind`, but its context. -/
inductive TaskCall (κ : Type) where
  | genSynthEvents (interval : ClosedInterval ℚ)
  | loadAndPreprocess (path : String)
  /-- with `is_feature=True` -/
  | loadIfNeeded (path : String)
  | calculateFeature (feature : κ) (depRefs : List (κ × List ℕ)) (interval : ClosedInterval ℚ)
      (store : Bool)

/-- The task of a node. -/
structure Task (κ : Type) where
  call : TaskCall κ
  context : Context κ (ClosedInterval ℚ)

/-- The nodes of one range. -/
abbrev RangeNodes := List (ClosedInterval ℚ × ℕ)

/-- `dag`. -/
abbrev FeatureDag (κ : Type) := List (κ × List (ClosedInterval ℚ × RangeNodes))

/-- A lookup `dag[dep][range][block]`: the node it hit, and how many nodes there were. -/
structure DepLookup (κ : Type) where
  dep : κ
  range : ClosedInterval ℚ
  block : ClosedInterval ℚ
  node : ℕ
  time : ℕ

/-- `dag`, `features_ranges_meta` and `obj_ref_cache`, with the calls of `bind` and the lookups so
far. -/
structure GraphState (κ ρ : Type) where
  dag : FeatureDag κ := []
  rangesMeta : List (κ × List (List BlockMeta)) := []
  cache : CacheTable κ (ClosedInterval ℚ) ρ := []
  bound : List (Task κ) := []
  lookups : List (DepLookup κ) := []

/-- The other arguments of `build_feature_task_graph`; `metaOf` is the field `meta` of the blocks
of data sources. -/
structure BuilderInput (κ : Type) where
  dataRangesMeta : κ → Option (List (List BlockMeta))
  metaOf : BlockMeta → MetaField
  featuresToStore : List κ := []
  storedFeatureBlocksMeta : κ → Option (List (ClosedInterval ℚ × String)) := fun _ => none

/-- `interval_to_meta`: there is no path. -/
def intervalToMeta (I : ClosedInterval ℚ) : BlockMeta := ⟨I.lower, I.upper, ""⟩

/-- `intervals_almost_equal`. -/
def intervalsAlmostEqual (I J : ClosedInterval ℚ) : Bool :=
  |I.upper - J.upper| ≤ 15 / 100 && |I.lower - J.lower| ≤ 15 / 100

section Code

variable [DecidableEq κ]

/-- The part of `bind_and_cache` that counts the node. -/
def countNode (cache : CacheTable κ (ClosedInterval ℚ) ρ) (c : Context κ (ClosedInterval ℚ)) :
    CacheTable κ (ClosedInterval ℚ) ρ :=
  match cache.lookup c with
  | none => cache.assign c (1, none)
  | some (refCount, ref) => cache.assign c (refCount + 1, ref)

/-- `bind_and_cache`: the node, and the state behind the call. -/
def bindAndCache (s : GraphState κ ρ) (task : Task κ) : ℕ × GraphState κ ρ :=
  (s.bound.length,
    { s with bound := s.bound ++ [task], cache := countNode s.cache task.context })

/-- `dag[feature][range][block]`, if the keys are there. -/
def FeatureDag.lookup (dag : FeatureDag κ) (k : κ) (J I : ClosedInterval ℚ) : Option ℕ :=
  (dictGet dag k).bind fun ranges => (dictGet ranges J).bind fun nodes => dictGet nodes I

/-- `if feature not in dag: dag[feature] = {}`. -/
def FeatureDag.ensure (dag : FeatureDag κ) (k : κ) : FeatureDag κ :=
  if (dictGet dag k).isNone then dictSet dag k [] else dag

/-- `dag[feature][range_interval] = nodes`. -/
def FeatureDag.file (dag : FeatureDag κ) (k : κ) (J : ClosedInterval ℚ) (nodes : RangeNodes) :
    Except PyError (FeatureDag κ) :=
  match dictGet dag k with
  | none => .error (.key "feature")
  | some ranges => .ok (dictSet dag k (dictSet ranges J nodes))

/-! ### Data sources -/

/-- The node of one block of a data source. -/
def sourceBlock (key : κ) (isSynthetic : Bool) (p : RangeNodes × GraphState κ ρ) (m : BlockMeta) :
    Except PyError (RangeNodes × GraphState κ ρ) := do
  let interval ← metaToInterval m
  let call := if isSynthetic then .genSynthEvents interval else .loadAndPreprocess m.path
  let b := bindAndCache p.2 ⟨call, ⟨key, interval⟩⟩
  return (dictSet p.1 interval b.1, b.2)

/-- The nodes of one range of a data source. -/
def sourceRange (key : κ) (isSynthetic : Bool) (s : GraphState κ ρ) (range : List BlockMeta) :
    Except PyError (GraphState κ ρ) := do
  let s := { s with dag := s.dag.ensure key }
  let rangeInterval ← rangeMetaToInterval range
  let p ← range.foldlM (sourceBlock key isSynthetic) ([], s)
  let dag ← p.2.dag.file key rangeInterval p.1
  return { p.2 with dag := dag }

/-! ### Derived features -/

/-- The ranges of a dependency: of the data, or what has been recorded for a derived feature. -/
def depRanges (input : BuilderInput κ) (rangesMeta : List (κ × List (List BlockMeta)))
    (dep : FeatureNode κ) : Except PyError (List (List BlockMeta)) :=
  match if dep.isDataSource then input.dataRangesMeta dep.key else dictGet rangesMeta dep.key with
  | none => .error (.key "dep_feature")
  | some ranges => .ok ranges

/-- `prune_overlaps(get_overlaps(ranges_per_dep_feature))`, given the ranges of the dependencies. -/
def rangeOverlaps (deps : List (FeatureNode κ × Except PyError (List (List BlockMeta)))) :
    Except PyError (List (ClosedInterval ℚ × List (κ × List BlockMeta))) := do
  let dicts ← deps.mapM fun p => (p.2 >>= rangesToIntervalDict).map fun d => (p.1.key, d)
  let overlaps ← getOverlaps (dictOf dicts)
  pruneOverlaps metaToInterval overlaps

/-- The field `meta` of the blocks of a dependency: those of derived features do not have it. -/
def depMetaOf (input : BuilderInput κ) (dep : FeatureNode κ) : BlockMeta → MetaField :=
  if dep.isDataSource then input.metaOf else fun _ => .missing

/-- The group of one dependency.  Every definition has `group_dep_ranges(feature, dep_ranges)`, and
is called so here; the builder passes `(dep_ranges, feature, dep_feature)`, which none of them
takes. -/
def groupDep (input : BuilderInput κ) (grouping : Grouping) (blocks : List (κ × List BlockMeta))
    (dep : FeatureNode κ) : Except PyError (κ × IntervalDict (Cut ℚ) (List BlockMeta)) :=
  match dictGet blocks dep.key with
  | none => .error (.key "dep_feature")
  | some depRanges =>
    (grouping.group (depMetaOf input dep) depRanges).map fun groups => (dep.key, groups)

/-- `get_overlaps(grouped_ranges_by_dep_feature)`, given the blocks of the dependencies. -/
def groupOverlaps (input : BuilderInput κ) (grouping : Grouping) (deps : List (FeatureNode κ))
    (blocks : List (κ × List BlockMeta)) :
    Except PyError (List (ClosedInterval ℚ × List (κ × List BlockMeta))) := do
  let groups ← deps.mapM (groupDep input grouping blocks)
  getOverlaps (dictOf groups)

/-- The lookup of the node of one block. -/
def depLookup (s : GraphState κ ρ) (J : ClosedInterval ℚ) (dep : κ) (m : BlockMeta) :
    Except PyError (DepLookup κ) :=
  match metaToInterval m with
  | .error e => .error e
  | .ok I =>
    match s.dag.lookup dep J I with
    | none => .error (.key "range_interval")
    | some node => .ok ⟨dep, J, I, node, s.bound.length⟩

/-- The lookups for one overlap. -/
def depLookups (s : GraphState κ ρ) (J : ClosedInterval ℚ) (overlap : List (κ × List BlockMeta)) :
    Except PyError (List (κ × List (DepLookup κ))) :=
  overlap.mapM fun p => (p.2.mapM (depLookup s J p.1)).map fun ls => (p.1, ls)

/-- The path of the stored block that almost is the interval's, if there is one. -/
def storedPath (stored : List (ClosedInterval ℚ × String)) (interval : ClosedInterval ℚ) :
    Except PyError (Option String) :=
  match stored.filter fun p => intervalsAlmostEqual p.1 interval with
  | [] => .ok none
  | [p] => .ok (some p.2)
  | _ => .error (.value "More than one almost equal interval")

/-- The call for one block of a derived feature: to load it or to calculate it. -/
def featureCall (input : BuilderInput κ) (key : κ) (interval : ClosedInterval ℚ)
    (depNodes : List (κ × List ℕ)) : Except PyError (TaskCall κ) :=
  let calculate := .calculateFeature key depNodes interval (key ∈ input.featuresToStore)
  match input.storedFeatureBlocksMeta key with
  | none => .ok calculate
  | some stored => (storedPath stored interval).map fun path => path.elim calculate .loadIfNeeded

/-- The node of one overlap of the groups. -/
def featureBlock (input : BuilderInput κ) (key : κ) (J : ClosedInterval ℚ)
    (p : RangeNodes × GraphState κ ρ) (q : ClosedInterval ℚ × List (κ × List BlockMeta)) :
    Except PyError (RangeNodes × GraphState κ ρ) := do
  let s := { p.2 with dag := p.2.dag.ensure key }
  let lookups ← depLookups s J q.2
  let s := { s with lookups := s.lookups ++ lookups.flatMap Prod.snd }
  let call ← featureCall input key q.1 (lookups.map fun p => (p.1, p.2.map DepLookup.node))
  let b := bindAndCache s ⟨call, ⟨key, q.1⟩⟩
  return (dictSet p.1 q.1 b.1, b.2)

/-- The nodes of one range of a derived feature, given the overlaps of the groups. -/
def fileBlocks (input : BuilderInput κ) (key : κ) (s : GraphState κ ρ)
    (p : ClosedInterval ℚ × List (ClosedInterval ℚ × List (κ × List BlockMeta))) :
    Except PyError (GraphState κ ρ) := do
  let (nodes, s) ← p.2.foldlM (featureBlock input key p.1) ([], s)
  let dag ← s.dag.file key p.1 nodes
  let blockRangeMeta := p.2.map fun q => intervalToMeta q.1
  return { s with
    dag := dag
    rangesMeta := dictSet s.rangesMeta key
      ((dictGet s.rangesMeta key).getD [] ++ [blockRangeMeta]) }

/-! ### The traversal -/

/-- `tree_traversal_callback`. -/
def treeTraversalCallback (input : BuilderInput κ) (s : GraphState κ ρ) (t : FeatureTree κ) :
    Except PyError (GraphState κ ρ) :=
  match t.value.definition with
  | .dataSource isSynthetic =>
    match input.dataRangesMeta t.value.key with
    | none => .error (.key "feature")
    | some ranges => ranges.foldlM (sourceRange t.value.key isSynthetic) s
  | .derived grouping => do
    let deps := t.children.map RoseTree.value
    let overlaps ← rangeOverlaps (deps.map fun dep => (dep, depRanges input s.rangesMeta dep))
    overlaps.foldlM (fun s p => do
      let groups ← groupOverlaps input grouping deps p.2
      fileBlocks input t.value.key s (p.1, groups)) s

/-- `build_feature_task_graph`. -/
def buildFeatureTaskGraph (input : BuilderInput κ) (s : GraphState κ ρ) (t : FeatureTree κ) :
    Except PyError (GraphState κ ρ) :=
  t.postorder.foldlM (treeTraversalCallback input) { s with rangesMeta := [] }

/-- `build_feature_set_task_graph`; `cache` is `obj_ref_cache`. -/
def buildFeatureSetTaskGraph (input : BuilderInput κ) (features : List (FeatureTree κ))
    (cache : CacheTable κ (ClosedInterval ℚ) ρ) : Except PyError (GraphState κ ρ) :=
  features.foldlM (buildFeatureTaskGraph input) { cache := cache }

end Code

end Svoe
