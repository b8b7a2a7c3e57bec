import Svoe.Blocks.Blockwise
import Svoe.TaskGraph.BuilderInv
import Svoe.TaskGraph.Demultiplex

/-!
# Executing the tasks of a graph

The tasks of `featurizer/task_graph/tasks.py`, without the cache, and what the nodes of a graph give
when they are executed: a node's task gets the results of the nodes it is bound to, and raises what
they raised.  What the tasks call is a parameter (`TaskEnv`): the store's `load_df`, the methods of
the data definitions and the storing of a block.

Nodes are bound after the ones they depend on, so `evalTasks` goes once through the list of what was
bound; what is bound later changes no result (`prefix_evalTasks`).
-/

namespace Svoe

open Portion

variable {κ ρ α : Type}

/-! ### Tasks -/

/-- What the tasks call. -/
structure TaskEnv (κ α : Type) where
  /-- `data_store_adapter.load_df` -/
  loadDf : String → Except PyError (List (Event α))
  /-- `preprocess` of a data source -/
  preprocess : κ → List (Event α) → Except PyError (List (Event α))
  /-- `gen_synthetic_events` of a data source -/
  genSyntheticEvents : κ → ClosedInterval ℚ → Except PyError (List (Event α))
  /-- what comes out of the stream of a feature's definition for the named events -/
  stream : κ → List (κ × Event α) → Except PyError (List (Event α))
  /-- the storing of a feature block, with its metadata -/
  storeBlock : κ → ClosedInterval ℚ → List (Event α) → Except PyError Unit

/-- What a task returns or raises. -/
abbrev BlockResult (α : Type) := Except PyError (List (Event α))

/-- `load_if_needed`. -/
def loadIfNeeded (env : TaskEnv κ α) (path : String) : Except PyError (List (Event α)) := do
  let df ← env.loadDf path
  if isTsSorted Event.timestamp df then .ok df
  else .error (.value "[Data] df is not ts sorted")

/-- `load_and_preprocess`. -/
def loadAndPreprocess (env : TaskEnv κ α) (key : κ) (path : String) :
    Except PyError (List (Event α)) :=
  loadIfNeeded env path >>= env.preprocess key

/-- The test of a calculated block: a frame made of no events has no column `timestamp`. -/
def checkCalculated (df : List (Event α)) : BlockResult α :=
  match df with
  | [] => .error (.key "timestamp")
  | _ :: _ =>
    if isTsSorted Event.timestamp df then .ok df
    else .error (.value "[Feature] df is not ts sorted")

/-- `ray.get` of its positional arguments, for references of which each has a result. -/
def rayGetResults {R β : Type} (result : R → Except PyError β) :
    List (List R) → Except PyError (List β)
  | [refs] => refs.mapM result
  | _ => .error .type

/-- `calculate_feature`, for references to the blocks of the dependencies. -/
def calculateFeature {R : Type} [DecidableEq κ] (env : TaskEnv κ α) (result : R → BlockResult α)
    (feature : κ) (depRefs : List (κ × List R)) (interval : ClosedInterval ℚ) (store : Bool) :
    Except PyError (List (Event α)) := do
  let deps ← fetchDeps (rayGetResults result) depRefs
  let merged ← mergeBlocks deps
  let out ← env.stream feature merged
  let df ← checkCalculated (runNamedEventsStream (fun _ => out) merged (some interval))
  if store then env.storeBlock feature interval df
  return df

/-- The result of a node, among those of the nodes up to it. -/
def nodeResult (results : List (BlockResult α)) (node : ℕ) : BlockResult α :=
  results.getD node (.error (.key "node"))

/-- A task, given the results of the nodes bound before it. -/
def runTask [DecidableEq κ] (env : TaskEnv κ α) (results : List (BlockResult α)) (task : Task κ) :
    BlockResult α :=
  match task.call with
  | .genSynthEvents interval => env.genSyntheticEvents task.context.featureKey interval
  | .loadAndPreprocess path => loadAndPreprocess env task.context.featureKey path
  | .loadIfNeeded path => loadIfNeeded env path
  | .calculateFeature feature depRefs interval store =>
    calculateFeature env (nodeResult results) feature depRefs interval store

/-- The results of all nodes. -/
def evalTasks [DecidableEq κ] (env : TaskEnv κ α) (tasks : List (Task κ)) : List (BlockResult α) :=
  tasks.foldl (fun results task => results ++ [runTask env results task]) []

/-! ### Results of nodes -/

section Results

variable [DecidableEq κ] {env : TaskEnv κ α}

theorem evalTasks_append_singleton (env : TaskEnv κ α) (tasks : List (Task κ)) (task : Task κ) :
    evalTasks env (tasks ++ [task]) =
      evalTasks env tasks ++ [runTask env (evalTasks env tasks) task] := by
  rw [evalTasks, List.foldl_append]
  rfl

@[simp] theorem length_evalTasks (env : TaskEnv κ α) (tasks : List (Task κ)) :
    (evalTasks env tasks).length = tasks.length := by
  induction tasks using List.reverseRecOn with
  | nil => rfl
  | append_singleton tasks task ih =>
    rw [evalTasks_append_singleton, List.length_append, ih, List.length_append,
      List.length_singleton, List.length_singleton]

/-- Tasks that are bound later change no result. -/
theorem prefix_evalTasks (env : TaskEnv κ α) (tasks tasks' : List (Task κ)) :
    evalTasks env tasks <+: evalTasks env (tasks ++ tasks') := by
  induction tasks' using List.reverseRecOn with
  | nil => exact (List.append_nil tasks).symm ▸ List.prefix_rfl
  | append_singleton tasks' task ih =>
    rw [← List.append_assoc, evalTasks_append_singleton]
    exact ih.trans (List.prefix_append _ _)

omit [DecidableEq κ] in
theorem nodeResult_of_isPrefix {results results' : List (BlockResult α)} (h : results <+: results')
    {node : ℕ} (hnode : node < results.length) :
    nodeResult results' node = nodeResult results node := by
  obtain ⟨rest, rfl⟩ := h
  rw [nodeResult, nodeResult, List.getD_eq_getElem?_getD, List.getElem?_append_left hnode,
    List.getD_eq_getElem?_getD]

/-- The result of the node that is bound next. -/
theorem nodeResult_append_singleton (env : TaskEnv κ α) (tasks : List (Task κ)) (task : Task κ) :
    nodeResult (evalTasks env (tasks ++ [task])) tasks.length =
      runTask env (evalTasks env tasks) task := by
  rw [nodeResult, evalTasks_append_singleton, ← length_evalTasks env tasks,
    List.getD_eq_getElem?_getD, List.getElem?_concat_length, Option.getD_some]

end Results

/-! ### Results instead of references -/

section Naturality

variable [DecidableEq κ] {R β : Type}

/-- The cuts do not depend on what the references are. -/
theorem sliceDeps_mapValues {R' : Type} (f : R → R') (allObjs : List β) (start : ℕ)
    (deps : List (κ × List β)) (depRefs : List (κ × List R)) :
    sliceDeps allObjs start deps (mapValues (List.map f) depRefs) =
      sliceDeps allObjs start deps depRefs := by
  induction depRefs generalizing start deps with
  | nil => rfl
  | cons p depRefs ih =>
    obtain ⟨dep, refs⟩ := p
    rw [mapValues, List.map_cons, sliceDeps, sliceDeps, List.length_map]
    exact ih _ _

/-- **The blocks a feature gets** are the results of the references. -/
theorem fetchDeps_rayGetResults (result : R → Except PyError β) (depRefs : List (κ × List R)) :
    fetchDeps (rayGetResults result) depRefs =
      fetchDeps (rayGetResults id) (mapValues (List.map result) depRefs) := by
  have hget : rayGetResults result (depRefs.map Prod.snd) =
      rayGetResults id ((mapValues (List.map result) depRefs).map Prod.snd) := by
    match depRefs with
    | [] => rfl
    | [p] => exact (List.mapM_map : (p.2.map result).mapM id = p.2.mapM (id ∘ result)).symm
    | _ :: _ :: _ => rfl
  simp only [fetchDeps, chain, List.flatten_singleton, hget, sliceDeps_mapValues]

theorem calculateFeature_result (env : TaskEnv κ α) (result : R → BlockResult α) (feature : κ)
    (depRefs : List (κ × List R)) (interval : ClosedInterval ℚ) (store : Bool) :
    calculateFeature env result feature depRefs interval store =
      calculateFeature env id feature (mapValues (List.map result) depRefs) interval store := by
  rw [calculateFeature, fetchDeps_rayGetResults]
  rfl

end Naturality

/-! ### The blocks of a graph -/

/-- What is filed for each feature under its ranges and the intervals of its blocks. -/
abbrev FiledBlocks (κ ν : Type) :=
  List (κ × List (ClosedInterval ℚ × List (ClosedInterval ℚ × ν)))

/-- What the nodes of a graph stand for. -/
def FeatureDag.resolve {ν : Type} (f : ℕ → ν) (dag : FeatureDag κ) : FiledBlocks κ ν :=
  mapValues (mapValues (mapValues f)) dag

/-- All nodes have been bound. -/
def FeatureDag.Below (dag : FeatureDag κ) (n : ℕ) : Prop :=
  ∀ p ∈ dag, ∀ q ∈ p.2, ∀ r ∈ q.2, r.2 < n

theorem FeatureDag.resolve_congr {ν : Type} {f g : ℕ → ν} {dag : FeatureDag κ} {n : ℕ}
    (h : dag.Below n) (hfg : ∀ node < n, f node = g node) : dag.resolve f = dag.resolve g := by
  refine List.map_congr_left fun p hp => congrArg (Prod.mk p.1) ?_
  refine List.map_congr_left fun q hq => congrArg (Prod.mk q.1) ?_
  exact List.map_congr_left fun r hr => congrArg (Prod.mk r.1) (hfg r.2 (h p hp q hq r hr))

end Svoe
