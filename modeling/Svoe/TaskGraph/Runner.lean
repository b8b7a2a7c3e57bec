import Svoe.TaskGraph.BuilderInv
import Svoe.TaskGraph.Join
import Svoe.TaskGraph.Lookahead

/-!
# The runner

`Featurizer.run` makes an empty `cache`, creates the cache actor with it, and has the graph builder
count the nodes in it.  Ray copies the arguments of an actor, so the counters the builder writes are
those of the driver's dict only.

* `sound_featurizerRun` : what a run has built, and what the actor was created with.
* `not_countersMatch_run` : the actor has no counter when the graph is executed, and there are nodes
  to count.
-/

namespace Svoe

open Portion Transition

variable {κ ρ : Type} [DecidableEq κ]

/-! ### The label -/

/-- A key of the joined graph: of a feature, or of the label that is made of it. -/
structure JoinKey (κ : Type) where
  key : κ
  isLabel : Bool
  deriving DecidableEq

/-- A node of the joined graph: of a feature, or of the label. -/
abbrev JoinNode := ℕ ⊕ LookaheadTask ℕ

/-- The nodes of ranges as nodes of the joined graph. -/
def asJoinNodes {N : Type} (node : N → JoinNode)
    (ranges : List (ClosedInterval ℚ × List (ClosedInterval ℚ × N))) :
    List (ClosedInterval ℚ × List (ClosedInterval ℚ × JoinNode)) :=
  ranges.map fun r => (r.1, r.2.map fun p => (p.1, node p.2))

/-- `dag`, with the label's ranges if there is a label. -/
def joinedDag (dag : FeatureDag κ)
    (label : Option (κ × List (ClosedInterval ℚ × List (ClosedInterval ℚ × LookaheadTask ℕ)))) :
    Dag (JoinKey κ) JoinNode := fun f =>
  if f.isLabel then (label.filter fun l => l.1 = f.key).map fun l => asJoinNodes .inr l.2
  else (dictGet dag f.key).map (asJoinNodes .inl)

/-- The graph that is executed. -/
abbrev JoinedGraph (κ : Type) :=
  List (ClosedInterval ℚ × List (ClosedInterval ℚ × JoinTask (JoinKey κ) JoinNode))

/-- `build_feature_label_set_task_graph`. -/
def buildFeatureLabelSetTaskGraph (input : BuilderInput κ) (features : List (FeatureTree κ))
    (label : Option (FeatureTree κ)) (labelLookahead : Window)
    (cache : CacheTable κ (ClosedInterval ℚ) ρ) :
    Except PyError (GraphState κ ρ × JoinedGraph κ) := do
  let s ← buildFeatureSetTaskGraph input features cache
  let keys := features.map fun f => (⟨f.value.key, false⟩ : JoinKey κ)
  match label with
  | none =>
    let joined ← pointInTimeJoinDag (joinedDag s.dag none) keys none
    return (s, joined)
  | some label =>
    match dictGet s.dag label.value.key with
    | none => .error (.key "label")
    | some ranges =>
      let lookaheadDag ← buildLookaheadGraph ranges labelLookahead
      let labelFeature : JoinKey κ := ⟨label.value.key, true⟩
      let joined ← pointInTimeJoinDag (joinedDag s.dag (some (label.value.key, lookaheadDag)))
        (keys ++ [labelFeature]) (some labelFeature)
      return (s, joined)

/-! ### The run -/

/-- What `Featurizer.run` reads off its config, but the features. -/
structure FeaturizerConfig where
  labelFeature : Option ℤ
  labelLookahead : Window
  featuresToStore : List ℤ

/-- When the graph is executed: the table of the cache actor, the graph with the driver's `cache`,
and the graph to execute. -/
structure ExecutionStart (κ ρ : Type) where
  actorCache : CacheTable κ (ClosedInterval ℚ) ρ
  graph : GraphState κ ρ
  joined : JoinedGraph κ

/-- `features[i]`. -/
def featureAt (features : List (FeatureTree κ)) (i : ℤ) : Except PyError (FeatureTree κ) :=
  match iloc features i with
  | none => .error .index
  | some f => .ok f

/-- `label_feature`. -/
def labelFeature (features : List (FeatureTree κ)) : Option ℤ → Except PyError (Option (FeatureTree κ))
  | none => .ok none
  | some i => (featureAt features i).map some

/-- `create_cache_actor`: the actor gets a copy of the table. -/
def createCacheActor (cache : CacheTable κ (ClosedInterval ℚ) ρ) :
    CacheTable κ (ClosedInterval ℚ) ρ := cache

/-- `Featurizer.run` up to `execute_graph`, with what is read from the storage as `input`. -/
def featurizerRun (input : BuilderInput κ) (features : List (FeatureTree κ))
    (config : FeaturizerConfig) : Except PyError (ExecutionStart κ ρ) := do
  let label ← labelFeature features config.labelFeature
  let cache := []
  let featuresToStore ← config.featuresToStore.mapM (featureAt features)
  let cacheActor := createCacheActor cache
  let (graph, joined) ← buildFeatureLabelSetTaskGraph
    { input with featuresToStore := featuresToStore.map fun f => f.value.key }
    features label config.labelLookahead cache
  return ⟨cacheActor, graph, joined⟩

/-- The counters of a table are the numbers of nodes. -/
def CountersMatch (cache : CacheTable κ (ClosedInterval ℚ) ρ)
    (contexts : List (Context κ (ClosedInterval ℚ))) : Prop :=
  ∀ c, counter cache c = contexts.count c

/-- Without counters, nodes are not counted. -/
theorem not_countersMatch_nil {contexts : List (Context κ (ClosedInterval ℚ))}
    (h : contexts ≠ []) : ¬ CountersMatch ([] : CacheTable κ (ClosedInterval ℚ) ρ) contexts := by
  obtain ⟨c, hc⟩ := List.exists_mem_of_ne_nil contexts h
  intro hmatch
  exact (List.count_pos_iff.2 hc).ne (hmatch c)

variable {input : BuilderInput κ} {features : List (FeatureTree κ)} {config : FeaturizerConfig}
  {r : ExecutionStart κ ρ} {s : GraphState κ ρ}

/-- Features are joined only if one of them is in the graph. -/
theorem exists_of_pointInTimeJoinDag {F N : Type} [DecidableEq F] [DecidableEq N] {dag : Dag F N}
    {fs : List F} {label : Option F}
    {joined : List (ClosedInterval ℚ × List (ClosedInterval ℚ × JoinTask F N))}
    (h : pointInTimeJoinDag dag fs label = .ok joined) : ∃ f, dag f ≠ none := by
  simp only [pointInTimeJoinDag, bind_eq_ok_iff] at h
  obtain ⟨ranges, hranges, overlaps, hoverlaps, -⟩ := h
  cases ranges with
  | nil => cases hoverlaps
  | cons p ranges =>
    obtain ⟨f, -, hf⟩ := exists_of_mem_mapM hranges List.mem_cons_self
    refine ⟨f, fun hnone => ?_⟩
    rw [featureRanges, hnone] at hf
    cases hf

/-- A graph that can be joined has nodes. -/
theorem exists_buildFeatureSetTaskGraph {label : Option (FeatureTree κ)} {lookahead : Window}
    {joined : JoinedGraph κ}
    (h : buildFeatureLabelSetTaskGraph input features label lookahead [] = .ok (s, joined)) :
    buildFeatureSetTaskGraph input features [] = .ok s ∧ ∃ k, dictGet s.dag k ≠ none := by
  rw [buildFeatureLabelSetTaskGraph, bind_eq_ok_iff] at h
  obtain ⟨s', hs', h⟩ := h
  cases label with
  | none =>
    obtain ⟨joined', hj, h⟩ := bind_eq_ok_iff.1 h
    obtain ⟨rfl, -⟩ := Prod.mk.inj (Except.ok.inj h)
    obtain ⟨f, hf⟩ := exists_of_pointInTimeJoinDag hj
    refine ⟨hs', f.key, fun hnone => hf ?_⟩
    rw [joinedDag, hnone]
    split_ifs <;> rfl
  | some label =>
    dsimp only at h
    cases hlabel : dictGet s'.dag label.value.key with
    | none =>
      rw [hlabel] at h
      cases h
    | some ranges =>
      simp only [hlabel, bind_eq_ok_iff] at h
      obtain ⟨lookaheadDag, -, joined', -, h⟩ := h
      obtain ⟨rfl, -⟩ := Prod.mk.inj (Except.ok.inj h)
      exact ⟨hs', label.value.key, hlabel ▸ Option.some_ne_none ranges⟩

/-- The graph of a run is sound, it has nodes, and the actor was created with no counters. -/
theorem sound_featurizerRun (h : featurizerRun input features config = .ok r) :
    r.graph.Sound ∧ r.graph.contexts ≠ [] ∧ r.actorCache = [] := by
  simp only [featurizerRun, bind_eq_ok_iff] at h
  obtain ⟨label, -, featuresToStore, -, ⟨graph, joined⟩, hgraph, h⟩ := h
  obtain ⟨hs, k, hk⟩ := exists_buildFeatureSetTaskGraph hgraph
  have hsound := sound_buildFeatureSetTaskGraph hs
  obtain ⟨c, hc, -⟩ := hsound.bound k hk
  rw [← Except.ok.inj h]
  exact ⟨hsound, List.ne_nil_of_mem hc, rfl⟩

/-- **The cache actor counts nothing.**  In every run that comes to `execute_graph` the counters of
the actor are not the numbers of nodes; those of the driver's dict are.  Whatever calls the actor
gets, it returns no ref and tells nobody to cache. -/
theorem not_countersMatch_run {ω : Type} [DecidableEq ω]
    (h : featurizerRun input features config = .ok r) :
    ¬ CountersMatch r.actorCache r.graph.contexts ∧
      CountersMatch r.graph.cache r.graph.contexts ∧
      ∀ (as : List (CacheCall κ (ClosedInterval ℚ) ρ ω)) s,
        run cacheStep (.init r.actorCache) as = some s → ∀ c,
          (checkCache s.cache c).2 = (none, false) := by
  obtain ⟨hsound, hne, hactor⟩ := sound_featurizerRun h
  rw [hactor]
  refine ⟨not_countersMatch_nil hne, hsound.counted, fun as s hs c => ?_⟩
  have hinit : CacheInv ([] : CacheTable κ (ClosedInterval ℚ) ρ)
      (.init [] : CacheSystem κ (ClosedInterval ℚ) ρ ω) := .init fun c v hv => by cases hv
  have hinv := invariant_of_run (I := CacheInv []) (fun _ _ _ h hstep => h.of_cacheStep hstep)
    hinit hs
  rw [checkCache, hinv.lookup_of_none c rfl]

/-- A data source with one block. -/
def oneBlockInput : BuilderInput String where
  dataRangesMeta _ := some [[⟨0, 10, "block"⟩]]
  metaOf _ := .missing

/-- A data source. -/
def sourceFeature (key : String) : FeatureTree String := .node ⟨key, .dataSource false⟩ []

/-- Neither a label nor features to store. -/
def plainConfig : FeaturizerConfig := ⟨none, ⟨1, .m⟩, []⟩

/-- The run of a data source that two features of the set are. -/
theorem exists_featurizerRun_shared : ∃ r : ExecutionStart String ℕ,
    featurizerRun oneBlockInput [sourceFeature "x", sourceFeature "x"] plainConfig = .ok r ∧
      r.graph.contexts = [⟨"x", ⟨0, 10⟩⟩, ⟨"x", ⟨0, 10⟩⟩] := by
  have hok : (featurizerRun oneBlockInput [sourceFeature "x", sourceFeature "x"] plainConfig :
      Except PyError (ExecutionStart String ℕ)).toOption.map (fun r => r.graph.contexts) =
      some [⟨"x", ⟨0, 10⟩⟩, ⟨"x", ⟨0, 10⟩⟩] := by
    decide +kernel
  cases h : (featurizerRun oneBlockInput [sourceFeature "x", sourceFeature "x"] plainConfig :
      Except PyError (ExecutionStart String ℕ)) with
  | error e =>
    rw [h] at hok
    cases hok
  | ok r =>
    rw [h] at hok
    exact ⟨r, rfl, Option.some.inj hok⟩

theorem not_countersMatch_run_shared : ∃ r : ExecutionStart String ℕ,
    featurizerRun oneBlockInput [sourceFeature "x", sourceFeature "x"] plainConfig = .ok r ∧
      CountersMatch r.graph.cache r.graph.contexts ∧
      ¬ CountersMatch r.actorCache r.graph.contexts := by
  obtain ⟨r, hr, -⟩ := exists_featurizerRun_shared
  obtain ⟨hnot, hmatch, -⟩ := not_countersMatch_run (ω := ℕ) hr
  exact ⟨r, hr, hmatch, hnot⟩

/-- The block of the shared data source is needed by two nodes, and has no counter. -/
theorem not_forall_countersMatch_run :
    ¬ ∀ (input : BuilderInput String) (features : List (FeatureTree String))
      (config : FeaturizerConfig) (r : ExecutionStart String ℕ),
      featurizerRun input features config = .ok r →
        CountersMatch r.actorCache r.graph.contexts := by
  obtain ⟨r, hr, hcontexts⟩ := exists_featurizerRun_shared
  intro hall
  have hmatch := hall _ _ _ r hr
  rw [hcontexts, (sound_featurizerRun hr).2.2] at hmatch
  exact absurd (hmatch ⟨"x", ⟨0, 10⟩⟩) (by decide)

end Svoe
