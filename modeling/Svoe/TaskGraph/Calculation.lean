import Svoe.TaskGraph.Evaluate

/-!
# What a task graph calculates

The blocks of the features of a set can be calculated without a graph: feature by feature in the
order of the traversal, every block from the blocks of the dependencies that its group lists
(`Calculation`).  Building the graph and executing its tasks does just that
(`calculation_buildFeatureSetTaskGraph`): the graph can be built if and only if the blocks can be
listed, and every node that is filed gives its block, or raises what calculating the block raises.
-/

namespace Svoe

open Portion

variable {κ ρ α : Type}

/-! ### Calculating without a graph -/

/-- The blocks calculated for the features, and the ranges recorded for those that are derived. -/
structure Calculation (κ α : Type) where
  blocks : FiledBlocks κ (BlockResult α) := []
  rangesMeta : List (κ × List (List BlockMeta)) := []

/-- What is filed for the block of a feature. -/
def FiledBlocks.lookup {ν : Type} [DecidableEq κ] (d : FiledBlocks κ ν) (k : κ)
    (J I : ClosedInterval ℚ) : Option ν :=
  (dictGet d k).bind fun ranges => (dictGet ranges J).bind fun blocks => dictGet blocks I

/-- A block of a data source. -/
def sourceResult (env : TaskEnv κ α) (key : κ) (isSynthetic : Bool) (interval : ClosedInterval ℚ)
    (path : String) : BlockResult α :=
  if isSynthetic then env.genSyntheticEvents key interval else loadAndPreprocess env key path

/-- A block of a feature: to be loaded where it is stored, and calculated elsewhere. -/
def featureResult [DecidableEq κ] (env : TaskEnv κ α) (input : BuilderInput κ) (key : κ)
    (interval : ClosedInterval ℚ) (deps : List (κ × List (BlockResult α))) :
    Except PyError (BlockResult α) :=
  let calculate := calculateFeature env id key deps interval (key ∈ input.featuresToStore)
  match input.storedFeatureBlocksMeta key with
  | none => .ok calculate
  | some stored =>
    (storedPath stored interval).map fun path => path.elim calculate (loadIfNeeded env)

namespace Calculation

variable [DecidableEq κ] (env : TaskEnv κ α) (input : BuilderInput κ)

/-- The blocks of a range are what is filed under it. -/
def file (c : Calculation κ α) (key : κ) (J : ClosedInterval ℚ)
    (blocks : List (ClosedInterval ℚ × BlockResult α)) : Calculation κ α :=
  { c with blocks :=
      dictSet c.blocks key (dictSet ((dictGet c.blocks key).getD []) J (dictOf blocks)) }

/-- One block of a data source. -/
def sourceBlock (key : κ) (isSynthetic : Bool) (m : BlockMeta) :
    Except PyError (ClosedInterval ℚ × BlockResult α) :=
  (metaToInterval m).map fun interval =>
    (interval, sourceResult env key isSynthetic interval m.path)

/-- One range of a data source. -/
def sourceRange (key : κ) (isSynthetic : Bool) (c : Calculation κ α) (range : List BlockMeta) :
    Except PyError (Calculation κ α) := do
  let rangeInterval ← rangeMetaToInterval range
  let blocks ← range.mapM (sourceBlock env key isSynthetic)
  return c.file key rangeInterval blocks

/-- A block of a dependency. -/
def depBlock (c : Calculation κ α) (J : ClosedInterval ℚ) (dep : κ) (m : BlockMeta) :
    Except PyError (BlockResult α) :=
  match metaToInterval m with
  | .error e => .error e
  | .ok I =>
    match c.blocks.lookup dep J I with
    | none => .error (.key "range_interval")
    | some result => .ok result

/-- One block of a derived feature, from the blocks of its group. -/
def featureBlock (key : κ) (c : Calculation κ α) (J : ClosedInterval ℚ)
    (q : ClosedInterval ℚ × List (κ × List BlockMeta)) :
    Except PyError (ClosedInterval ℚ × BlockResult α) := do
  let deps ← q.2.mapM fun p => (p.2.mapM (c.depBlock J p.1)).map fun results => (p.1, results)
  (featureResult env input key q.1 deps).map fun result => (q.1, result)

/-- One range of a derived feature. -/
def fileBlocks (key : κ) (c : Calculation κ α)
    (p : ClosedInterval ℚ × List (ClosedInterval ℚ × List (κ × List BlockMeta))) :
    Except PyError (Calculation κ α) := do
  let blocks ← p.2.mapM (featureBlock env input key c p.1)
  -- a feature is known from its first block on
  if blocks.isEmpty && (dictGet c.blocks key).isNone then .error (.key "feature")
  else return { c.file key p.1 blocks with
    rangesMeta := dictSet c.rangesMeta key
      ((dictGet c.rangesMeta key).getD [] ++ [p.2.map fun q => intervalToMeta q.1]) }

/-- All ranges of a feature. -/
def visit (c : Calculation κ α) (t : FeatureTree κ) : Except PyError (Calculation κ α) :=
  match t.value.definition with
  | .dataSource isSynthetic =>
    match input.dataRangesMeta t.value.key with
    | none => .error (.key "feature")
    | some ranges => ranges.foldlM (sourceRange env t.value.key isSynthetic) c
  | .derived grouping => do
    let deps := t.children.map RoseTree.value
    let overlaps ← rangeOverlaps (deps.map fun dep => (dep, depRanges input c.rangesMeta dep))
    overlaps.foldlM (fun c p => do
      let groups ← groupOverlaps input grouping deps p.2
      fileBlocks env input t.value.key c (p.1, groups)) c

/-- A feature with all it depends on. -/
def tree (c : Calculation κ α) (t : FeatureTree κ) : Except PyError (Calculation κ α) :=
  t.postorder.foldlM (visit env input) { c with rangesMeta := [] }

/-- A set of features. -/
def ofFeatures (features : List (FeatureTree κ)) : Except PyError (Calculation κ α) :=
  features.foldlM (tree env input) {}

end Calculation

/-! ### Nodes and their results -/

section Nodes

variable [DecidableEq κ] {env : TaskEnv κ α} {input : BuilderInput κ} {s s₀ s' : GraphState κ ρ}
  {p : RangeNodes × GraphState κ ρ}

/-- What executing the nodes of a graph calculates. -/
def GraphState.calculation (env : TaskEnv κ α) (s : GraphState κ ρ) : Calculation κ α :=
  ⟨s.dag.resolve (nodeResult (evalTasks env s.bound)), s.rangesMeta⟩

/-- The results of the nodes of a range. -/
def nodesResults (env : TaskEnv κ α) (p : RangeNodes × GraphState κ ρ) :
    List (ClosedInterval ℚ × BlockResult α) :=
  mapValues (nodeResult (evalTasks env p.2.bound)) p.1

/-- A loop that binds the nodes of a range, begun in the state `s₀`. -/
structure Binding (s₀ : GraphState κ ρ) (p : RangeNodes × GraphState κ ρ) : Prop where
  dag_eq : p.2.dag = s₀.dag
  rangesMeta_eq : p.2.rangesMeta = s₀.rangesMeta
  bound : s₀.bound <+: p.2.bound
  below : ∀ r ∈ p.1, r.2 < p.2.bound.length

theorem lookup_resolve {ν : Type} (f : ℕ → ν) (dag : FeatureDag κ) (k : κ)
    (J I : ClosedInterval ℚ) :
    FiledBlocks.lookup (dag.resolve f) k J I = (dag.lookup k J I).map f := by
  rw [FiledBlocks.lookup, FeatureDag.resolve, dictGet_mapValues, FeatureDag.lookup]
  cases dictGet dag k with
  | none => rfl
  | some ranges =>
    rw [Option.map_some, Option.bind_some, Option.bind_some, dictGet_mapValues]
    cases dictGet ranges J with
    | none => rfl
    | some nodes =>
      rw [Option.map_some, Option.bind_some, Option.bind_some, dictGet_mapValues]

omit [DecidableEq κ] in
theorem Binding.init (s : GraphState κ ρ) : Binding s ([], s) :=
  ⟨rfl, rfl, List.prefix_rfl, nofun⟩

/-- One more node. -/
theorem Binding.bindAndCache (h : Binding s₀ p) {task : Task κ} (I : ClosedInterval ℚ)
    (hdag : s'.dag = s₀.dag) (hmeta : s'.rangesMeta = s₀.rangesMeta)
    (hbound : s'.bound = p.2.bound) :
    Binding s₀ (dictSet p.1 I (bindAndCache s' task).1, (bindAndCache s' task).2) where
  dag_eq := hdag
  rangesMeta_eq := hmeta
  bound := h.bound.trans (hbound ▸ List.prefix_append _ _)
  below r hr := by
    rw [Svoe.bindAndCache, List.length_append, List.length_singleton, hbound]
    rcases eq_or_mem_of_mem_dictSet hr with rfl | hr
    · exact hbound ▸ Nat.lt_succ_self _
    · exact (h.below r hr).trans (Nat.lt_succ_self _)

/-- The results with one more node. -/
theorem nodesResults_bindAndCache (h : Binding s₀ p) {task : Task κ} (I : ClosedInterval ℚ)
    (hbound : s'.bound = p.2.bound) :
    nodesResults env (dictSet p.1 I (bindAndCache s' task).1, (bindAndCache s' task).2) =
      dictSet (nodesResults env p) I (runTask env (evalTasks env p.2.bound) task) := by
  have hold : mapValues (nodeResult (evalTasks env (p.2.bound ++ [task]))) p.1 =
      nodesResults env p := List.map_congr_left fun r hr => congrArg (Prod.mk r.1)
    (nodeResult_of_isPrefix (prefix_evalTasks env _ _) (by simpa using h.below r hr))
  rw [nodesResults, bindAndCache, hbound, mapValues_dictSet, nodeResult_append_singleton, hold]

theorem sourceBlock_nodesResults {key : κ} {isSynthetic : Bool} (h : Binding s₀ p) (m : BlockMeta) :
    (sourceBlock key isSynthetic p m).map (nodesResults env) =
      (Calculation.sourceBlock env key isSynthetic m).map fun b =>
        dictSet (nodesResults env p) b.1 b.2 := by
  rw [sourceBlock, Calculation.sourceBlock]
  cases hI : metaToInterval m with
  | error e => rfl
  | ok I =>
    refine congrArg Except.ok ((nodesResults_bindAndCache h I rfl).trans ?_)
    cases isSynthetic <;> rfl

theorem sourceBlock_binding {key : κ} {isSynthetic : Bool} (h : Binding s₀ p) {m : BlockMeta}
    {p' : RangeNodes × GraphState κ ρ} (hp : sourceBlock key isSynthetic p m = .ok p') :
    Binding s₀ p' := by
  rw [sourceBlock, bind_eq_ok_iff] at hp
  obtain ⟨I, -, hp⟩ := hp
  rw [← Except.ok.inj hp]
  exact h.bindAndCache I h.dag_eq h.rangesMeta_eq rfl

/-! ### One block of a derived feature -/

/-- Nodes that had been bound before keep their results. -/
theorem resolve_eq_of_prefix {tasks : List (Task κ)} (hbound : s₀.bound <+: tasks)
    (hbelow : s₀.dag.Below s₀.bound.length) :
    s₀.dag.resolve (nodeResult (evalTasks env tasks)) = (s₀.calculation env).blocks := by
  obtain ⟨rest, rfl⟩ := hbound
  exact FeatureDag.resolve_congr hbelow fun node hnode =>
    nodeResult_of_isPrefix (prefix_evalTasks env _ _) (by rwa [length_evalTasks])

/-- The block of a dependency, in the graph and without it. -/
theorem depLookup_result (J : ClosedInterval ℚ) (hdag : s.dag = s₀.dag)
    (hbound : s₀.bound <+: s.bound) (hbelow : s₀.dag.Below s₀.bound.length) (dep : κ)
    (m : BlockMeta) :
    (depLookup s J dep m).map (fun l => nodeResult (evalTasks env s.bound) l.node) =
      (s₀.calculation env).depBlock J dep m := by
  rw [depLookup, Calculation.depBlock]
  cases metaToInterval m with
  | error e => rfl
  | ok I =>
    rw [← resolve_eq_of_prefix hbound hbelow]
    dsimp only
    rw [lookup_resolve, hdag]
    cases s₀.dag.lookup dep J I <;> rfl

/-- The dependencies of a block, in the graph and without it. -/
theorem depLookups_results (env : TaskEnv κ α) (J : ClosedInterval ℚ) (hdag : s.dag = s₀.dag)
    (hbound : s₀.bound <+: s.bound) (hbelow : s₀.dag.Below s₀.bound.length)
    (overlap : List (κ × List BlockMeta)) :
    (depLookups s J overlap).map (fun lookups => mapValues (List.map
        (nodeResult (evalTasks env s.bound))) (lookups.map fun p => (p.1, p.2.map DepLookup.node))) =
      overlap.mapM fun p => (p.2.mapM ((s₀.calculation env).depBlock J p.1)).map
        fun results => (p.1, results) := by
  have hdep : ∀ p : κ × List BlockMeta, ((p.2.mapM (depLookup s J p.1)).map fun ls =>
      (p.1, ls)).map (fun p => (p.1, p.2.map fun l => nodeResult (evalTasks env s.bound) l.node)) =
        (p.2.mapM ((s₀.calculation env).depBlock J p.1)).map fun results => (p.1, results) := by
    intro p
    have hmap := map_mapM (depLookup s J p.1)
      (fun l => nodeResult (evalTasks env s.bound) l.node) p.2
    simp only [depLookup_result J hdag hbound hbelow] at hmap
    rw [← hmap]
    cases p.2.mapM (depLookup s J p.1) <;> rfl
  simp only [← hdep, ← map_mapM, depLookups, mapValues, List.map_map, Function.comp_def]

/-- The call of a node, and what it gives. -/
theorem featureCall_result (env : TaskEnv κ α) (input : BuilderInput κ) (key : κ)
    (I : ClosedInterval ℚ) (results : List (BlockResult α))
    (depNodes : List (κ × List ℕ)) :
    (featureCall input key I depNodes).map (fun call => runTask env results ⟨call, ⟨key, I⟩⟩) =
      featureResult env input key I (mapValues (List.map (nodeResult results)) depNodes) := by
  have hcalculate := calculateFeature_result env (nodeResult results) key depNodes I
    (key ∈ input.featuresToStore)
  rw [featureCall, featureResult]
  cases input.storedFeatureBlocksMeta key with
  | none => exact congrArg Except.ok hcalculate
  | some stored =>
    dsimp only
    cases storedPath stored I with
    | error e => rfl
    | ok path =>
      cases path with
      | none => exact congrArg Except.ok hcalculate
      | some path => rfl

theorem featureBlock_nodesResults {key : κ} {J : ClosedInterval ℚ} (h : Binding s₀ p)
    (hensure : s₀.dag.ensure key = s₀.dag) (hbelow : s₀.dag.Below s₀.bound.length)
    (q : ClosedInterval ℚ × List (κ × List BlockMeta)) :
    (featureBlock input key J p q).map (nodesResults env) =
      (Calculation.featureBlock env input key (s₀.calculation env) J q).map fun b =>
        dictSet (nodesResults env p) b.1 b.2 := by
  have hdag : p.2.dag.ensure key = s₀.dag := by rw [h.dag_eq, hensure]
  have hdeps := depLookups_results env (s := { p.2 with dag := p.2.dag.ensure key }) J hdag
    h.bound hbelow q.2
  rw [featureBlock, Calculation.featureBlock, ← hdeps]
  cases depLookups { p.2 with dag := p.2.dag.ensure key } J q.2 with
  | error e => rfl
  | ok lookups =>
    have hcall := featureCall_result env input key q.1 (evalTasks env p.2.bound)
      (lookups.map fun p => (p.1, p.2.map DepLookup.node))
    change Except.map _ ((featureCall input key q.1
      (lookups.map fun p => (p.1, p.2.map DepLookup.node))).bind _) =
        Except.map _ (Except.map _ (featureResult ..))
    rw [← hcall]
    cases featureCall input key q.1 (lookups.map fun p => (p.1, p.2.map DepLookup.node)) with
    | error e => rfl
    | ok call => exact congrArg Except.ok (nodesResults_bindAndCache h q.1 rfl)

theorem featureBlock_binding {key : κ} {J : ClosedInterval ℚ} (h : Binding s₀ p)
    (hensure : s₀.dag.ensure key = s₀.dag) {q : ClosedInterval ℚ × List (κ × List BlockMeta)}
    {p' : RangeNodes × GraphState κ ρ} (hp : featureBlock input key J p q = .ok p') :
    Binding s₀ p' := by
  simp only [featureBlock, bind_eq_ok_iff] at hp
  obtain ⟨lookups, -, call, -, hp⟩ := hp
  rw [← Except.ok.inj hp]
  exact h.bindAndCache q.1 ((congrArg (FeatureDag.ensure · key) h.dag_eq).trans hensure)
    h.rangesMeta_eq rfl

/-! ### One range -/

theorem FeatureDag.ensure_ensure (dag : FeatureDag κ) (key : κ) :
    (dag.ensure key).ensure key = dag.ensure key := by
  have hkey : dictGet (dag.ensure key) key ≠ none := by
    rw [dictGet_ensure]
    split_ifs with hk
    · exact Option.some_ne_none _
    · exact fun hnone => hk ⟨rfl, hnone⟩
  conv_lhs => rw [ensure]
  rw [if_neg (by simpa using hkey)]

theorem FeatureDag.file_ensure (dag : FeatureDag κ) (key : κ) (J : ClosedInterval ℚ)
    (nodes : RangeNodes) : (dag.ensure key).file key J nodes =
      .ok (dictSet dag key (dictSet ((dictGet dag key).getD []) J nodes)) := by
  cases hkey : dictGet dag key with
  | none =>
    have hensure : dag.ensure key = dictSet dag key [] := by rw [ensure, hkey]; rfl
    rw [hensure, file, dictGet_dictSet, if_pos rfl]
    exact congrArg Except.ok (dictSet_dictSet dag key [] _)
  | some ranges =>
    have hensure : dag.ensure key = dag := by rw [ensure, hkey]; rfl
    rw [hensure, file, hkey, Option.getD_some]

/-- Filing the nodes of a range files their results. -/
theorem resolve_file (env : TaskEnv κ α) (s₀ : GraphState κ ρ) {tasks : List (Task κ)}
    (hbound : s₀.bound <+: tasks)
    (hbelow : s₀.dag.Below s₀.bound.length) (key : κ) (J : ClosedInterval ℚ) (nodes : RangeNodes) :
    FeatureDag.resolve (nodeResult (evalTasks env tasks))
        (dictSet s₀.dag key (dictSet ((dictGet s₀.dag key).getD []) J nodes)) =
      dictSet (s₀.calculation env).blocks key
        (dictSet ((dictGet (s₀.calculation env).blocks key).getD []) J
          (mapValues (nodeResult (evalTasks env tasks)) nodes)) := by
  rw [← resolve_eq_of_prefix hbound hbelow, FeatureDag.resolve, mapValues_dictSet,
    mapValues_dictSet, FeatureDag.resolve, dictGet_mapValues]
  cases dictGet s₀.dag key <;> rfl

theorem below_ensure {dag : FeatureDag κ} {n : ℕ} (h : dag.Below n) (key : κ) :
    (dag.ensure key).Below n := by
  unfold FeatureDag.ensure
  split_ifs
  · intro p hp q hq
    rcases eq_or_mem_of_mem_dictSet hp with rfl | hp
    · cases hq
    · exact h p hp q hq
  · exact h

theorem below_dictSet {dag : FeatureDag κ} {n n' : ℕ} (h : dag.Below n) (hn : n ≤ n') {key : κ}
    {J : ClosedInterval ℚ} {nodes : RangeNodes} (hnodes : ∀ r ∈ nodes, r.2 < n') :
    FeatureDag.Below (dictSet dag key (dictSet ((dictGet dag key).getD []) J nodes)) n' := by
  intro p hp q hq r hr
  have hold : ∀ p ∈ dag, ∀ q ∈ p.2, ∀ r ∈ q.2, r.2 < n' := fun p hp q hq r hr =>
    (h p hp q hq r hr).trans_le hn
  rcases eq_or_mem_of_mem_dictSet hp with rfl | hp
  · rcases eq_or_mem_of_mem_dictSet hq with rfl | hq
    · exact hnodes r hr
    · cases hkey : dictGet dag key with
      | none =>
        rw [hkey] at hq
        cases hq
      | some ranges =>
        rw [hkey] at hq
        obtain ⟨p, hp, rfl⟩ := Option.map_eq_some_iff.1 hkey
        exact hold p (List.mem_of_find?_eq_some hp) q hq r hr
  · exact hold p hp q hq r hr

/-- The nodes of a range of a data source give its blocks. -/
theorem foldlM_sourceBlock (env : TaskEnv κ α) (key : κ) (isSynthetic : Bool)
    (s₀ : GraphState κ ρ) (range : List BlockMeta) :
    (range.foldlM (sourceBlock key isSynthetic) (([] : RangeNodes), s₀)).map (nodesResults env) =
      (range.mapM (Calculation.sourceBlock env key isSynthetic)).map dictOf :=
  (map_foldlM (P := Binding s₀) (fun _ m _ h => sourceBlock_nodesResults h m)
    (fun _ _ _ _ h hp => sourceBlock_binding h hp) (.init s₀)).trans
      (foldlM_map_eq _ (fun d (b : ClosedInterval ℚ × BlockResult α) => dictSet d b.1 b.2) range [])

theorem binding_foldlM_sourceBlock {key : κ} {isSynthetic : Bool} {range : List BlockMeta}
    (hp : range.foldlM (sourceBlock key isSynthetic) ([], s₀) = .ok p) : Binding s₀ p :=
  foldlM_invariant (fun _ _ _ _ h hp => sourceBlock_binding h hp) (.init s₀) hp

/-- **A range of a data source**, in the graph and without it. -/
theorem sourceRange_calculation (env : TaskEnv κ α) (key : κ) (isSynthetic : Bool)
    (hbelow : s.dag.Below s.bound.length) (range : List BlockMeta) :
    (sourceRange key isSynthetic s range).map (GraphState.calculation env) =
      Calculation.sourceRange env key isSynthetic (s.calculation env) range := by
  have hblocks := foldlM_sourceBlock env key isSynthetic { s with dag := s.dag.ensure key } range
  rw [sourceRange, Calculation.sourceRange]
  cases rangeMetaToInterval range with
  | error e => rfl
  | ok J =>
    change Except.map _ ((range.foldlM (sourceBlock key isSynthetic)
      (([] : RangeNodes), { s with dag := s.dag.ensure key })).bind _) =
        (range.mapM (Calculation.sourceBlock env key isSynthetic)).bind _
    rcases map_eq_map_cases hblocks with ⟨e, hp, hbs⟩ | ⟨p, bs, hp, hbs, hres⟩
    · rw [hp, hbs]
      rfl
    · have hbinding := binding_foldlM_sourceBlock hp
      rw [hp, hbs]
      change Except.map _ ((p.2.dag.file key J p.1).bind _) = _
      rw [hbinding.dag_eq, FeatureDag.file_ensure]
      have hfile := resolve_file env s hbinding.bound hbelow key J p.1
      rw [show mapValues _ p.1 = dictOf bs from hres] at hfile
      exact congrArg Except.ok (Calculation.mk.injEq .. ▸ ⟨hfile, hbinding.rangesMeta_eq⟩)

theorem below_sourceRange {key : κ} {isSynthetic : Bool} {range : List BlockMeta}
    (hbelow : s.dag.Below s.bound.length) (h : sourceRange key isSynthetic s range = .ok s') :
    s'.dag.Below s'.bound.length := by
  simp only [sourceRange, bind_eq_ok_iff] at h
  obtain ⟨J, -, p, hp, dag, hdag, h⟩ := h
  have hbinding := binding_foldlM_sourceBlock hp
  rw [hbinding.dag_eq, FeatureDag.file_ensure] at hdag
  rw [← Except.ok.inj h, ← Except.ok.inj hdag]
  exact below_dictSet hbelow hbinding.bound.length_le hbinding.below

/-- The nodes of a range of a derived feature give its blocks. -/
theorem foldlM_featureBlock (env : TaskEnv κ α) (input : BuilderInput κ) (key : κ)
    (J : ClosedInterval ℚ) (s₀ : GraphState κ ρ) (hensure : s₀.dag.ensure key = s₀.dag)
    (hbelow : s₀.dag.Below s₀.bound.length)
    (g : List (ClosedInterval ℚ × List (κ × List BlockMeta))) :
    (g.foldlM (featureBlock input key J) (([] : RangeNodes), s₀)).map (nodesResults env) =
      (g.mapM (Calculation.featureBlock env input key (s₀.calculation env) J)).map dictOf :=
  (map_foldlM (P := Binding s₀) (fun _ q _ h => featureBlock_nodesResults h hensure hbelow q)
    (fun _ _ _ _ h hp => featureBlock_binding h hensure hp) (.init s₀)).trans
      (foldlM_map_eq _ (fun d (b : ClosedInterval ℚ × BlockResult α) => dictSet d b.1 b.2) g [])

theorem binding_foldlM_featureBlock {key : κ} {J : ClosedInterval ℚ}
    {g : List (ClosedInterval ℚ × List (κ × List BlockMeta))}
    (hensure : s₀.dag.ensure key = s₀.dag)
    (hp : g.foldlM (featureBlock input key J) ([], s₀) = .ok p) : Binding s₀ p :=
  foldlM_invariant (fun _ _ _ _ h hp => featureBlock_binding h hensure hp) (.init s₀) hp

theorem FeatureDag.ensure_of_known {dag : FeatureDag κ} {key : κ} (h : dictGet dag key ≠ none) :
    dag.ensure key = dag := by
  rw [ensure, if_neg (by simpa using h)]

/-- The first block makes the feature known. -/
theorem foldlM_featureBlock_ensure {key : κ} {J : ClosedInterval ℚ}
    {g : List (ClosedInterval ℚ × List (κ × List BlockMeta))}
    (hg : g = [] → dictGet s.dag key ≠ none) :
    g.foldlM (featureBlock input key J) ([], s) =
      g.foldlM (featureBlock input key J) ([], { s with dag := s.dag.ensure key }) := by
  match g with
  | [] => rw [FeatureDag.ensure_of_known (hg rfl)]
  | q :: g =>
    rw [List.foldlM_cons, List.foldlM_cons]
    congr 1
    simp only [featureBlock, FeatureDag.ensure_ensure]

/-- A feature without ranges changes no block. -/
theorem featureBlock_ensure (env env' : TaskEnv κ α) (input : BuilderInput κ) (key : κ)
    (s : GraphState κ ρ) : Calculation.featureBlock env' input key
        (GraphState.calculation env { s with dag := s.dag.ensure key }) =
      Calculation.featureBlock env' input key (s.calculation env) := by
  have hdep : (GraphState.calculation env { s with dag := s.dag.ensure key }).depBlock =
      (s.calculation env).depBlock := by
    funext J dep m
    rw [Calculation.depBlock, Calculation.depBlock]
    cases metaToInterval m with
    | error e => rfl
    | ok I =>
      dsimp only [GraphState.calculation]
      rw [lookup_resolve, lookup_resolve, FeatureDag.lookup_ensure]
  funext J q
  rw [Calculation.featureBlock, Calculation.featureBlock, hdep]

theorem isNone_calculation (key : κ) :
    (dictGet (s.calculation env).blocks key).isNone = (dictGet s.dag key).isNone := by
  rw [GraphState.calculation, FeatureDag.resolve, dictGet_mapValues, Option.isNone_map]

/-- **A range of a derived feature**, in the graph and without it. -/
theorem fileBlocks_calculation (env : TaskEnv κ α) (input : BuilderInput κ) (key : κ)
    (hbelow : s.dag.Below s.bound.length)
    (p : ClosedInterval ℚ × List (ClosedInterval ℚ × List (κ × List BlockMeta))) :
    (fileBlocks input key s p).map (GraphState.calculation env) =
      Calculation.fileBlocks env input key (s.calculation env) p := by
  obtain ⟨J, g⟩ := p
  rw [fileBlocks, Calculation.fileBlocks, isNone_calculation]
  by_cases hknown : g = [] → dictGet s.dag key ≠ none
  · have hblocks := foldlM_featureBlock env input key J
      { s with dag := s.dag.ensure key } (s.dag.ensure_ensure key) (below_ensure hbelow key) g
    rw [← foldlM_featureBlock_ensure hknown, featureBlock_ensure] at hblocks
    dsimp only
    rcases map_eq_map_cases hblocks with ⟨e, hp, hbs⟩ | ⟨p, bs, hp, hbs, hres⟩
    · rw [hp, hbs]
      rfl
    · have hbinding := binding_foldlM_featureBlock (s.dag.ensure_ensure key)
        (foldlM_featureBlock_ensure hknown ▸ hp)
      have hnotnew : (bs.isEmpty && (dictGet s.dag key).isNone) = false := by
        rw [Bool.and_eq_false_imp, List.isEmpty_iff]
        rintro rfl
        have hg := List.forall₂_nil_right_iff.1 (mapM_eq_ok_iff.1 hbs)
        simpa [Option.isSome_iff_ne_none] using hknown hg
      rw [hp, hbs]
      change Except.map _ ((p.2.dag.file key J p.1).bind _) =
        if (bs.isEmpty && (dictGet s.dag key).isNone) = true then _ else _
      rw [hnotnew, if_neg Bool.false_ne_true, hbinding.dag_eq, FeatureDag.file_ensure]
      have hfile := resolve_file env s hbinding.bound hbelow key J p.1
      rw [show mapValues _ p.1 = dictOf bs from hres] at hfile
      refine congrArg Except.ok (Calculation.mk.injEq .. ▸ ⟨hfile, ?_⟩)
      dsimp only
      rw [hbinding.rangesMeta_eq]
      rfl
  · obtain ⟨rfl, hnone⟩ := Classical.not_imp.1 hknown
    rw [not_not] at hnone
    rw [hnone]
    change Except.map _ ((s.dag.file key J []).bind _) = _
    rw [FeatureDag.file, hnone]
    rfl

theorem below_fileBlocks {key : κ} (hbelow : s.dag.Below s.bound.length)
    {p : ClosedInterval ℚ × List (ClosedInterval ℚ × List (κ × List BlockMeta))}
    (h : fileBlocks input key s p = .ok s') : s'.dag.Below s'.bound.length := by
  simp only [fileBlocks, bind_eq_ok_iff] at h
  obtain ⟨q, hq, dag, hdag, h⟩ := h
  rw [← Except.ok.inj h]
  by_cases hknown : p.2 = [] → dictGet s.dag key ≠ none
  · have hbinding := binding_foldlM_featureBlock (s.dag.ensure_ensure key)
      (foldlM_featureBlock_ensure hknown ▸ hq)
    rw [hbinding.dag_eq, FeatureDag.file_ensure] at hdag
    rw [← Except.ok.inj hdag]
    exact below_dictSet hbelow hbinding.bound.length_le hbinding.below
  · obtain ⟨hnil, hnone⟩ := Classical.not_imp.1 hknown
    rw [hnil] at hq
    obtain rfl := Except.ok.inj hq
    rw [FeatureDag.file, not_not.1 hnone] at hdag
    cases hdag

end Nodes

/-! ### The traversal -/

section Traversal

variable [DecidableEq κ] {env : TaskEnv κ α} {input : BuilderInput κ} {s s' : GraphState κ ρ}

theorem treeTraversalCallback_calculation (env : TaskEnv κ α) (input : BuilderInput κ)
    (hbelow : s.dag.Below s.bound.length) (t : FeatureTree κ) :
    (treeTraversalCallback input s t).map (GraphState.calculation env) =
      (s.calculation env).visit env input t := by
  rw [treeTraversalCallback, Calculation.visit]
  cases t.value.definition with
  | dataSource isSynthetic =>
    cases input.dataRangesMeta t.value.key with
    | none => rfl
    | some ranges =>
      exact map_foldlM (P := fun s : GraphState κ ρ => s.dag.Below s.bound.length)
        (fun _ range _ h => sourceRange_calculation env _ _ h range)
        (fun _ _ _ _ h hs => below_sourceRange h hs) hbelow
  | derived grouping =>
    dsimp only
    rw [show (s.calculation env).rangesMeta = s.rangesMeta from rfl]
    cases rangeOverlaps ((t.children.map RoseTree.value).map fun dep =>
      (dep, depRanges input s.rangesMeta dep)) with
    | error e => rfl
    | ok overlaps =>
      refine map_foldlM (P := fun s : GraphState κ ρ => s.dag.Below s.bound.length)
        (fun s p _ h => ?_) (fun s p s' _ h hs => ?_) hbelow
      · cases groupOverlaps input grouping (t.children.map RoseTree.value) p.2 with
        | error e => rfl
        | ok g => exact fileBlocks_calculation env input _ h _
      · obtain ⟨g, -, hs⟩ := bind_eq_ok_iff.1 hs
        exact below_fileBlocks h hs

theorem below_treeTraversalCallback (hbelow : s.dag.Below s.bound.length) {t : FeatureTree κ}
    (h : treeTraversalCallback input s t = .ok s') : s'.dag.Below s'.bound.length := by
  unfold treeTraversalCallback at h
  split at h
  · split at h
    · cases h
    · exact foldlM_invariant (P := fun s : GraphState κ ρ => s.dag.Below s.bound.length)
        (fun _ _ _ _ h hs => below_sourceRange h hs) hbelow h
  · simp only [bind_eq_ok_iff] at h
    obtain ⟨overlaps, -, h⟩ := h
    refine foldlM_invariant (P := fun s : GraphState κ ρ => s.dag.Below s.bound.length)
      (fun s p s' _ hs hstep => ?_) hbelow h
    obtain ⟨g, -, hstep⟩ := bind_eq_ok_iff.1 hstep
    exact below_fileBlocks hs hstep

theorem buildFeatureTaskGraph_calculation (env : TaskEnv κ α) (input : BuilderInput κ)
    (hbelow : s.dag.Below s.bound.length) (t : FeatureTree κ) :
    (buildFeatureTaskGraph input s t).map (GraphState.calculation env) =
      (s.calculation env).tree env input t :=
  map_foldlM (P := fun s : GraphState κ ρ => s.dag.Below s.bound.length)
    (fun _ t _ h => treeTraversalCallback_calculation env input h t)
    (fun _ _ _ _ h hs => below_treeTraversalCallback h hs) hbelow

theorem below_buildFeatureTaskGraph (hbelow : s.dag.Below s.bound.length) {t : FeatureTree κ}
    (h : buildFeatureTaskGraph input s t = .ok s') : s'.dag.Below s'.bound.length := by
  rw [buildFeatureTaskGraph] at h
  have hinit : ({ s with rangesMeta := [] } : GraphState κ ρ).dag.Below s.bound.length := hbelow
  exact foldlM_invariant (P := fun s : GraphState κ ρ => s.dag.Below s.bound.length)
    (fun _ _ _ _ h hs => below_treeTraversalCallback h hs) hinit h

theorem foldlM_buildFeatureTaskGraph_calculation (env : TaskEnv κ α) (input : BuilderInput κ)
    (hbelow : s.dag.Below s.bound.length) (features : List (FeatureTree κ)) :
    (features.foldlM (buildFeatureTaskGraph input) s).map (GraphState.calculation env) =
      features.foldlM (Calculation.tree env input) (s.calculation env) :=
  map_foldlM (P := fun s : GraphState κ ρ => s.dag.Below s.bound.length)
    (fun _ t _ h => buildFeatureTaskGraph_calculation env input h t)
    (fun _ _ _ _ h hs => below_buildFeatureTaskGraph h hs) hbelow

/-- **The graph of a feature set calculates what is calculated without it**, for features of any
shape: it can be built if the blocks can be listed, and fails as that does; and every node that is
filed under a range and an interval gives the block there, or raises what calculating it raises. -/
theorem calculation_buildFeatureSetTaskGraph (env : TaskEnv κ α) (input : BuilderInput κ)
    (features : List (FeatureTree κ)) (cache : CacheTable κ (ClosedInterval ℚ) ρ) :
    (buildFeatureSetTaskGraph input features cache).map (GraphState.calculation env) =
      Calculation.ofFeatures env input features :=
  foldlM_buildFeatureTaskGraph_calculation env input (fun _ hp => by cases hp) features

end Traversal

end Svoe
