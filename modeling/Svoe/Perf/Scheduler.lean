import Svoe.Perf.WorkQueue
import Mathlib.Data.List.Perm.Basic

/-!
# The scheduler

The scheduler's thread pops pods and submits a task for each, which estimates its resources.  When
the task is through, its future is done, and then its callback runs: it takes the result apart,
stores statistics, cleans the states of the pod, and decides in `reschedule_or_complete`.

* `SchedulerInv` : pods are in the work queue, done, in the scheduler's hands, or with a task that has
  not decided yet; pods on nodes have a task that has not removed them.
* `SchedulerInv.step` : every step keeps it.
-/

namespace Svoe

namespace Perf

open Raising

/-! ### Tasks -/

/-- What happens to a pod while its resources are estimated.  Payloads are given by their keys. -/
structure Estimation where
  /-- What `schedule_pod` returns. -/
  payload : Option (List String)
  /-- The last result event after that. -/
  lastResult : Option String
  /-- What `estimate_resources` returns, if the pod was scheduled and the scheduler still runs. -/
  estimate : Option (Bool × Option String)
  /-- The last result event after `delete_pod`. -/
  lastResultDeleted : Option String
  deriving DecidableEq, Repr

/-- A tuple that `run_estimator` returns, or what it raises. -/
inductive EstimatorResult where
  | three (reschedule : Bool) (reason : Option String) (payload : Option (List String))
  | four (reschedule : Bool) (lastResult : Option String) (reason : Option String)
    (payload : Option (List String))
  | raised (e : SchedulingError)
  deriving DecidableEq, Repr

/-- `run_estimator`. -/
def runEstimator (e : Estimation) : EstimatorResult :=
  match e.payload with
  | none => .four true e.lastResult none none
  | some payload =>
    let (reschedule, reason) := e.estimate.getD (false, none)
    .three reschedule (reason <|> e.lastResultDeleted) (some payload)

/-- `set_pod_info`, the last of the statistics. -/
def setPodInfo (payload : List String) : Except SchedulingError Unit :=
  match ["payload_hash", "payload_config", "svoe"].find? fun key => key ∉ payload with
  | some key => .error (.key key)
  | none => .ok ()

/-- The end of `clean_states`: `del event_queues_per_pod[pod_name]`. -/
def cleanStates (podName : String) : Raising (List String) SchedulingError Unit := do
  let eventQueuesPerPod ← get
  if podName ∈ eventQueuesPerPod then modify fun queues => queues.erase podName
  else lift (.error (.key podName))

/-- `done_estimation_callback` up to the call of `reschedule_or_complete`. -/
def doneEstimationCallback (podName : String) :
    EstimatorResult → Raising (List String) SchedulingError Completion
  | .raised e => lift (.error e)
  | .four _ _ _ _ => lift (.error (.value "too many values to unpack (expected 3)"))
  | .three reschedule reason payload => do
    lift (payload.elim (.ok ()) setPodInfo)
    cleanStates podName
    return ⟨podName, reschedule, reason⟩

/-- Where the task of a pod is. -/
inductive TaskStage where
  | running
  /-- The future is done, and the callback has not run. -/
  | done (result : EstimatorResult)
  /-- The callback is in `reschedule_or_complete`. -/
  | deciding (c : Completion) (pc : ReschedulePc)
  /-- The callback raised before. -/
  | raised (e : SchedulingError)
  deriving DecidableEq, Repr

/-- A task.  Its future has the same number. -/
structure Task where
  podName : String
  stage : TaskStage
  deriving DecidableEq, Repr

/-! ### The scheduler's thread -/

/-- Where the thread is in `run`. -/
inductive MainPc where
  /-- At the head of the loop. -/
  | loop
  | popping (pc : PopPc)
  /-- Looking for a node. -/
  | selecting (podName : String)
  /-- Behind the loop, maybe with a pod in its hands. -/
  | finished (podName : Option String)
  | crashed (podName : Option String)
  deriving DecidableEq, Repr

/-- `Scheduler`, with its tasks. -/
structure Scheduler where
  state : SchedulingState
  /-- The keys of `event_queues_per_pod`. -/
  eventQueuesPerPod : List String
  running : Bool
  initWorkQueueSize : ℕ
  /-- The keys of `futures`. -/
  futures : List ℕ
  main : MainPc
  tasks : List Task
  deriving DecidableEq, Repr

/-- What happens next. -/
inductive SchedulerAction where
  /-- The scheduler's thread goes on, with the next future of `as_completed`, or the node that is
  schedulable. -/
  | main (next : ℕ) (node : Option String)
  | complete (i : ℕ) (e : Estimation)
  /-- A task fails. -/
  | fail (i : ℕ) (e : SchedulingError)
  | callback (i : ℕ)
  /-- The watcher receives an event for a pod. -/
  | watch (podName : String)
  | stop
  deriving DecidableEq, Repr

namespace Scheduler

/-- `run` before its loop. -/
def init (workQueue : List String) : Scheduler :=
  ⟨.init workQueue, [], true, workQueue.length, [], .loop, []⟩

variable (s : Scheduler)

/-- `done()` of a future. -/
def isDone (future : ℕ) : Bool := s.tasks[future]?.any fun task => task.stage ≠ .running

/-- `remove_done_futures`. -/
def removeDoneFutures : Scheduler :=
  { s with futures := s.futures.filter fun future => !s.isDone future }

/-- A pod is scheduled on a node, and its task is submitted.  The thread calls
`get_schedulable_pod_priority`, `add_pod_to_schedule_state` and `submit` one after the other and
holds no lock; as one step they leave out the runs in which a callback removes a pod in between. -/
def submit (podName nodeName : String) : Scheduler :=
  match scheduleOnNode podName nodeName s.state with
  | (.ok _, state) =>
    { s with
      state := state
      futures := s.futures ++ [s.tasks.length]
      main := .loop
      tasks := s.tasks ++ [⟨podName, .running⟩] }
  | (.error _, state) => { s with state := state, main := .crashed (some podName) }

/-- A step of the scheduler's thread. -/
def mainStep (next : ℕ) (node : Option String) : Option Scheduler :=
  match s.main with
  | .loop =>
    if s.running ∧ s.state.podsDone.length ≠ s.initWorkQueueSize then
      some { s.removeDoneFutures with main := .popping .called }
    else some { s with main := .finished none }
  | .popping (.returned none) => some { s with running := false, main := .finished none }
  | .popping (.returned (some podName)) => some { s with main := .selecting podName }
  | .popping (.raised podName) => some { s with main := .crashed podName }
  | .popping pc =>
    (popStep s.isDone s.futures next s.state pc).map
      fun p => { s with state := p.1, main := .popping p.2 }
  | .selecting podName =>
    if s.running then
      match node with
      | none => some s
      | some nodeName => some (s.submit podName nodeName)
    else some { s with main := .finished (some podName) }
  | .finished _ | .crashed _ => none

/-- A step of the callback of a task. -/
def callbackStep (i : ℕ) (task : Task) : Option Scheduler :=
  match task.stage with
  | .running => none
  | .done result =>
    match doneEstimationCallback task.podName result s.eventQueuesPerPod with
    | (.ok c, queues) =>
      some { s with
        eventQueuesPerPod := queues
        tasks := s.tasks.set i { task with stage := .deciding c .called } }
    | (.error e, queues) =>
      some { s with
        eventQueuesPerPod := queues
        tasks := s.tasks.set i { task with stage := .raised e } }
  | .deciding c pc =>
    (rescheduleStep (.callback i) c s.state pc).map fun p =>
      { s with
        state := p.1
        tasks := s.tasks.set i { task with stage := .deciding c p.2 } }
  | .raised _ => none

end Scheduler

/-- A step of the scheduler. -/
def schedulerStep (s : Scheduler) : SchedulerAction → Option Scheduler
  | .main next node => s.mainStep next node
  | .complete i e =>
    s.tasks[i]?.bind fun task =>
      if task.stage = .running then
        some { s with tasks := s.tasks.set i { task with stage := .done (runEstimator e) } }
      else none
  | .fail i e =>
    s.tasks[i]?.bind fun task =>
      if task.stage = .running then
        some { s with tasks := s.tasks.set i { task with stage := .done (.raised e) } }
      else none
  | .callback i => s.tasks[i]?.bind (s.callbackStep i)
  | .watch podName =>
    some { s with
      eventQueuesPerPod :=
        if podName ∈ s.eventQueuesPerPod then s.eventQueuesPerPod
        else s.eventQueuesPerPod ++ [podName] }
  | .stop => some { s with running := false }

/-! ### Where pods are -/

/-- The callback has not decided what becomes of the pod. -/
def ReschedulePc.owes : ReschedulePc → Bool
  | .called | .searching _ | .removed | .inside | .removeRaised => true
  | .decided | .returned | .releaseRaised => false

/-- The callback has not removed the pod from its node. -/
def ReschedulePc.holdsNode : ReschedulePc → Bool
  | .called | .searching _ | .removeRaised => true
  | .removed | .inside | .decided | .returned | .releaseRaised => false

/-- What becomes of the pod has not been decided. -/
def TaskStage.owes : TaskStage → Bool
  | .running | .done _ | .raised _ => true
  | .deciding _ pc => pc.owes

/-- The pod has not been removed from its node. -/
def TaskStage.holdsNode : TaskStage → Bool
  | .running | .done _ | .raised _ => true
  | .deciding _ pc => pc.holdsNode

/-- The callback raised before it decided what becomes of the pod. -/
def TaskStage.isStranded : TaskStage → Bool
  | .raised _ | .deciding _ .removeRaised => true
  | .running | .done _ | .deciding _ _ => false

/-- The callback still has to decide what becomes of the pod. -/
def TaskStage.isPending (stage : TaskStage) : Bool := stage.owes && !stage.isStranded

theorem TaskStage.owes_of_isStranded {stage : TaskStage} (h : stage.isStranded) : stage.owes := by
  cases stage with
  | deciding c pc => cases pc <;> first | rfl | cases h
  | raised e => rfl
  | _ => cases h

theorem TaskStage.owes_of_holdsNode {stage : TaskStage} (h : stage.holdsNode) : stage.owes := by
  cases stage with
  | deciding c pc => cases pc <;> first | rfl | cases h
  | _ => rfl

/-- The task owes a decision about the pod. -/
def Task.owesPod (pod : String) (task : Task) : Bool := task.podName = pod && task.stage.owes

/-- The pod in the hands of the scheduler's thread. -/
def MainPc.held : MainPc → Option String
  | .loop => none
  | .popping pc => pc.held
  | .selecting podName => some podName
  | .finished podName | .crashed podName => podName

/-- How often the pod is somewhere. -/
def Scheduler.places (s : Scheduler) (pod : String) : ℕ :=
  s.state.podsWorkQueue.count pod + s.state.podsDone.count pod +
    s.main.held.toList.count pod + s.tasks.countP (Task.owesPod pod)

/-- Pods are where they should be. -/
structure SchedulerInv (workQueue : List String) (s : Scheduler) : Prop where
  assigned : Assigned s.state
  places_eq : ∀ pod, s.places pod = workQueue.count pod
  onNodes : ∀ pod ∈ s.state.assignedPods, ∃ task ∈ s.tasks,
    task.podName = pod ∧ task.stage.holdsNode
  completion : ∀ task ∈ s.tasks, ∀ c pc, task.stage = .deciding c pc → c.podName = task.podName
  reschedules : ∀ pod, (getRescheduleReasons s.state pod).length ≤ MAX_RESCHEDULES
  registered : ∀ (i : ℕ) task, s.tasks[i]? = some task → task.stage = .running → i ∈ s.futures

variable {workQueue : List String} {s s' : Scheduler} {a : SchedulerAction} {task : Task} {i : ℕ}

theorem countP_set_add {α : Type*} {l : List α} {i : ℕ} {a : α} (h : l[i]? = some a)
    (q : α → Bool) (b : α) :
    (l.set i b).countP q + (if q a then 1 else 0) = l.countP q + if q b then 1 else 0 := by
  obtain ⟨hi, rfl⟩ := List.getElem?_eq_some_iff.1 h
  rw [(List.set_perm_cons_eraseIdx hi b).countP_eq q,
    ← (List.getElem_cons_eraseIdx_perm hi).countP_eq q, List.countP_cons, List.countP_cons]
  omega

theorem schedulerInv_init (workQueue : List String) : SchedulerInv workQueue (.init workQueue) := by
  refine ⟨assigned_init workQueue, fun pod => rfl, fun pod hpod => ?_, fun task htask => ?_,
    fun pod => Nat.zero_le _, fun i task htask => ?_⟩
  · cases hpod
  · cases htask
  · cases htask

/-- **A task goes on**, and what it owes is paid. -/
theorem SchedulerInv.setStage (hinv : SchedulerInv workQueue s) (htask : s.tasks[i]? = some task)
    {state : SchedulingState} {stage : TaskStage} (queues : List String)
    (hassigned : Assigned state)
    (hpaid : ∀ pod, state.podsWorkQueue.count pod + state.podsDone.count pod +
        (if Task.owesPod pod { task with stage := stage } then 1 else 0) =
      s.state.podsWorkQueue.count pod + s.state.podsDone.count pod +
        if task.owesPod pod then 1 else 0)
    (honNodes : ∀ pod ∈ state.assignedPods, pod ∈ s.state.assignedPods ∧
      (pod = task.podName → task.stage.holdsNode → stage.holdsNode))
    (hcompletion : ∀ c pc, stage = .deciding c pc → c.podName = task.podName)
    (hreschedules : ∀ pod, (getRescheduleReasons state pod).length ≤ MAX_RESCHEDULES)
    (hrunning : stage ≠ .running) :
    SchedulerInv workQueue
      { s with
        state := state
        eventQueuesPerPod := queues
        tasks := s.tasks.set i { task with stage := stage } } := by
  have hmem : task ∈ s.tasks := List.mem_of_getElem? htask
  have hlt : i < s.tasks.length := (List.getElem?_eq_some_iff.1 htask).1
  refine ⟨hassigned, fun pod => ?_, fun pod hpod => ?_, fun other hother c pc hstage => ?_,
    hreschedules, fun j other hother hstage => ?_⟩
  · have hplaces := hinv.places_eq pod
    have hset := countP_set_add htask (Task.owesPod pod) { task with stage := stage }
    have hpaid := hpaid pod
    unfold Scheduler.places at hplaces ⊢
    dsimp only
    omega
  · obtain ⟨hpod, hholds⟩ := honNodes pod hpod
    obtain ⟨other, hother, hname, hnode⟩ := hinv.onNodes pod hpod
    obtain ⟨j, hj⟩ := List.getElem?_of_mem hother
    by_cases hij : i = j
    · subst hij
      obtain rfl := Option.some.inj (htask.symm.trans hj)
      exact ⟨_, List.mem_set hlt _, hname, hholds hname.symm hnode⟩
    · refine ⟨other, ?_, hname, hnode⟩
      exact List.mem_of_getElem? ((List.getElem?_set_ne hij).trans hj)
  · rcases List.mem_or_eq_of_mem_set hother with hother | rfl
    · exact hinv.completion other hother c pc hstage
    · exact hcompletion c pc hstage
  · by_cases hij : i = j
    · subst hij
      rw [List.getElem?_set_self hlt] at hother
      obtain rfl := Option.some.inj hother
      exact absurd hstage hrunning
    · rw [List.getElem?_set_ne hij] at hother
      exact hinv.registered j other hother hstage

theorem eq_of_doneEstimationCallback {podName : String} {result : EstimatorResult}
    {queues queues' : List String} {c : Completion}
    (h : doneEstimationCallback podName result queues = (.ok c, queues')) :
    c.podName = podName ∧ ∃ payload, result = .three c.reschedule c.reason payload := by
  cases result with
  | three reschedule reason payload =>
    rw [doneEstimationCallback] at h
    cases hpayload : payload.elim (.ok ()) setPodInfo with
    | error e => rw [hpayload, lift_error_bind] at h; cases h
    | ok u =>
      rw [hpayload, lift_ok_bind] at h
      rcases hclean : cleanStates podName queues with ⟨e | u, queues₁⟩
      · rw [bind_of_error hclean] at h; cases h
      · rw [bind_of_ok hclean] at h
        obtain ⟨hc, -⟩ := Prod.mk.inj h
        obtain rfl := Except.ok.inj hc
        exact ⟨rfl, payload, rfl⟩
  | four reschedule lastResult reason payload => cases h
  | raised e => cases h

theorem owesPod_setStage {stage : TaskStage} (h : stage.owes = task.stage.owes) (pod : String) :
    Task.owesPod pod { task with stage := stage } = task.owesPod pod := by
  rw [Task.owesPod, h, Task.owesPod]

/-- The callback of an estimation that is done gives the events and a decision to make. -/
theorem SchedulerInv.doneStep (hinv : SchedulerInv workQueue s) (htask : s.tasks[i]? = some task)
    {result : EstimatorResult} (hstage : task.stage = .done result)
    (h : s.callbackStep i task = some s') : SchedulerInv workQueue s' := by
  unfold Scheduler.callbackStep at h
  rw [hstage] at h
  dsimp only at h
  rcases hdone : doneEstimationCallback task.podName result s.eventQueuesPerPod
    with ⟨e | c, queues⟩
  · rw [hdone] at h
    obtain rfl := Option.some.inj h
    refine hinv.setStage htask queues hinv.assigned (fun pod => ?_) (fun pod hpod => ?_)
      (fun _ _ h => by cases h) hinv.reschedules (fun h => by cases h)
    · rw [owesPod_setStage (hstage ▸ rfl)]
    · exact ⟨hpod, fun _ _ => rfl⟩
  · rw [hdone] at h
    obtain rfl := Option.some.inj h
    refine hinv.setStage htask queues hinv.assigned (fun pod => ?_) (fun pod hpod => ?_)
      (fun c' pc h => ?_) hinv.reschedules (fun h => by cases h)
    · rw [owesPod_setStage (hstage ▸ rfl)]
    · exact ⟨hpod, fun _ _ => rfl⟩
    · obtain ⟨rfl, -⟩ := TaskStage.deciding.inj h
      exact (eq_of_doneEstimationCallback hdone).1

/-- A step of the decision about an estimation that is done. -/
theorem SchedulerInv.decidingStep (hinv : SchedulerInv workQueue s)
    (htask : s.tasks[i]? = some task) {c : Completion} {pc : ReschedulePc}
    (hstage : task.stage = .deciding c pc) (h : s.callbackStep i task = some s') :
    SchedulerInv workQueue s' := by
  have hmem : task ∈ s.tasks := List.mem_of_getElem? htask
  unfold Scheduler.callbackStep at h
  rw [hstage] at h
  obtain ⟨⟨state, pc'⟩, hstep, rfl⟩ := Option.map_eq_some_iff.1 h
  have hname := hinv.completion task hmem c pc hstage
  have hcompletion : ∀ c' pc'', TaskStage.deciding c pc' = .deciding c' pc'' →
      c'.podName = task.podName := fun c' pc'' h => by
    obtain ⟨rfl, -⟩ := TaskStage.deciding.inj h
    exact hname
  -- the queue and the list of pods that are done change with the decision only
  have hpaid : ∀ {state : SchedulingState} {pc' : ReschedulePc}, pc'.owes = pc.owes →
      state.podsWorkQueue = s.state.podsWorkQueue → state.podsDone = s.state.podsDone →
      ∀ pod, state.podsWorkQueue.count pod + state.podsDone.count pod +
          (if Task.owesPod pod { task with stage := .deciding c pc' } then 1 else 0) =
        s.state.podsWorkQueue.count pod + s.state.podsDone.count pod +
          if task.owesPod pod then 1 else 0 := fun howes hqueue hdone pod => by
    rw [owesPod_setStage (hstage ▸ howes), hqueue, hdone]
  have hrunning : TaskStage.deciding c pc' ≠ .running := fun h => by cases h
  cases hinv.assigned.rescheduleMove hstep with
  | call =>
    exact hinv.setStage htask _ hinv.assigned (hpaid rfl rfl rfl)
      (fun pod hpod => ⟨hpod, fun _ _ => rfl⟩) hcompletion hinv.reschedules hrunning
  | changed =>
    exact hinv.setStage htask _ hinv.assigned (hpaid rfl rfl rfl)
      (fun pod hpod => ⟨hpod, fun _ _ => rfl⟩) hcompletion hinv.reschedules hrunning
  | absent habsent =>
    refine hinv.setStage htask _ hinv.assigned (hpaid rfl rfl rfl)
      (fun pod hpod => ⟨hpod, fun heq => ?_⟩) hcompletion hinv.reschedules hrunning
    exact absurd (heq ▸ hpod) (hname ▸ habsent)
  | remove hon =>
    refine hinv.setStage htask _ (hinv.assigned.unassign hon) (hpaid rfl rfl rfl)
      (fun pod hpod => ?_) hcompletion hinv.reschedules hrunning
    obtain ⟨hold, hne⟩ := hinv.assigned.mem_assignedPods_unassign hon hpod
    exact ⟨hold, fun heq => absurd (heq.trans hname.symm) hne⟩
  | acquire =>
    exact hinv.setStage htask _ (hinv.assigned.congr rfl rfl) (hpaid rfl rfl rfl)
      (fun pod hpod => ⟨hpod, fun _ hholds => by rw [hstage] at hholds; cases hholds⟩)
      hcompletion hinv.reschedules hrunning
  | decide =>
    refine hinv.setStage htask _ (hinv.assigned.congr (podsPerNode_rescheduleOrComplete c _)
      (podsPriorities_rescheduleOrComplete c _)) (fun pod => ?_) (fun pod hpod => ?_) hcompletion
      (length_getRescheduleReasons_rescheduleOrComplete c hinv.reschedules) hrunning
    · rw [count_rescheduleOrComplete, hname]
      simp [Task.owesPod, hstage, TaskStage.owes, ReschedulePc.owes]
    · rw [SchedulingState.assignedPods, podsPerNode_rescheduleOrComplete] at hpod
      exact ⟨hpod, fun _ hholds => by rw [hstage] at hholds; cases hholds⟩
  | release =>
    exact hinv.setStage htask _ (hinv.assigned.congr rfl rfl) (hpaid rfl rfl rfl)
      (fun pod hpod => ⟨hpod, fun _ hholds => by rw [hstage] at hholds; cases hholds⟩)
      hcompletion hinv.reschedules hrunning
  | releaseRaised =>
    exact hinv.setStage htask _ hinv.assigned (hpaid rfl rfl rfl)
      (fun pod hpod => ⟨hpod, fun _ hholds => by rw [hstage] at hholds; cases hholds⟩)
      hcompletion hinv.reschedules hrunning

/-- A callback goes on. -/
theorem SchedulerInv.callbackStep (hinv : SchedulerInv workQueue s)
    (htask : s.tasks[i]? = some task) (h : s.callbackStep i task = some s') :
    SchedulerInv workQueue s' := by
  cases hstage : task.stage with
  | done result => exact hinv.doneStep htask hstage h
  | deciding c pc => exact hinv.decidingStep htask hstage h
  | running =>
    unfold Scheduler.callbackStep at h
    rw [hstage] at h
    cases h
  | raised e =>
    unfold Scheduler.callbackStep at h
    rw [hstage] at h
    cases h

/-- What a step of the scheduler's thread does. -/
inductive MainMove (s : Scheduler) (next : ℕ) : Scheduler → Prop where
  | enter (hmain : s.main = .loop)
    (h : s.running = true ∧ s.state.podsDone.length ≠ s.initWorkQueueSize) :
    MainMove s next { s.removeDoneFutures with main := .popping .called }
  | leave (hmain : s.main = .loop)
    (h : ¬ (s.running = true ∧ s.state.podsDone.length ≠ s.initWorkQueueSize)) :
    MainMove s next { s with main := .finished none }
  | giveUp (hmain : s.main = .popping (.returned none)) :
    MainMove s next { s with running := false, main := .finished none }
  | select {podName : String} (hmain : s.main = .popping (.returned (some podName))) :
    MainMove s next { s with main := .selecting podName }
  | crash {podName : Option String} (hmain : s.main = .popping (.raised podName)) :
    MainMove s next { s with main := .crashed podName }
  | pop {pc pc' : PopPc} {state : SchedulingState} (hmain : s.main = .popping pc)
    (h : popStep s.isDone s.futures next s.state pc = some (state, pc')) :
    MainMove s next { s with state := state, main := .popping pc' }
  | wait {podName : String} (hmain : s.main = .selecting podName) : MainMove s next s
  | submit {podName : String} (nodeName : String) (hmain : s.main = .selecting podName) :
    MainMove s next (s.submit podName nodeName)
  | drop {podName : String} (hmain : s.main = .selecting podName) (h : s.running = false) :
    MainMove s next { s with main := .finished (some podName) }

theorem mainMove {next : ℕ} {node : Option String} (h : s.mainStep next node = some s') :
    MainMove s next s' := by
  unfold Scheduler.mainStep at h
  cases hmain : s.main with
  | loop =>
    rw [hmain] at h
    dsimp only at h
    split_ifs at h with hcond
    all_goals obtain rfl := Option.some.inj h
    · exact .enter hmain hcond
    · exact .leave hmain hcond
  | popping pc =>
    rw [hmain] at h
    cases pc with
    | returned podName =>
      cases podName with
      | none =>
        obtain rfl := Option.some.inj h
        exact .giveUp hmain
      | some podName =>
        obtain rfl := Option.some.inj h
        exact .select hmain
    | raised podName =>
      obtain rfl := Option.some.inj h
      exact .crash hmain
    | _ =>
      obtain ⟨⟨state, pc'⟩, hpop, rfl⟩ := Option.map_eq_some_iff.1 h
      exact .pop hmain hpop
  | selecting podName =>
    rw [hmain] at h
    dsimp only at h
    split_ifs at h with hrunning
    · cases node with
      | none =>
        obtain rfl := Option.some.inj h
        exact .wait hmain
      | some nodeName =>
        obtain rfl := Option.some.inj h
        exact .submit nodeName hmain
    · obtain rfl := Option.some.inj h
      exact .drop hmain (Bool.eq_false_iff.2 hrunning)
  | finished podName => rw [hmain] at h; cases h
  | crashed podName => rw [hmain] at h; cases h

/-- The scheduler's thread goes on, with the same pod in its hands. -/
theorem SchedulerInv.setMain (hinv : SchedulerInv workQueue s) {running : Bool} {main : MainPc}
    (hheld : main.held = s.main.held) :
    SchedulerInv workQueue { s with running := running, main := main } := by
  refine ⟨hinv.assigned, fun pod => ?_, hinv.onNodes, hinv.completion, hinv.reschedules,
    hinv.registered⟩
  have hplaces := hinv.places_eq pod
  unfold Scheduler.places at hplaces ⊢
  dsimp only
  rw [hheld]
  exact hplaces

theorem SchedulerInv.submit (hinv : SchedulerInv workQueue s) {podName : String}
    (hmain : s.main = .selecting podName) (nodeName : String) :
    SchedulerInv workQueue (s.submit podName nodeName) := by
  unfold Scheduler.submit
  rcases hinv.assigned.scheduleOnNode podName nodeName with
    ⟨node, -, he⟩ | ⟨hpod, priority, he, hassigned⟩
  · rw [he]
    exact hinv.setMain (hmain ▸ rfl)
  · rw [he]
    refine ⟨hassigned, fun pod => ?_, fun pod hpod => ?_, fun task htask c pc hstage => ?_,
      hinv.reschedules, fun i task htask hstage => ?_⟩
    · -- the pod goes from the hands of the thread to the task
      have hplaces := hinv.places_eq pod
      unfold Scheduler.places at hplaces ⊢
      rw [hmain, MainPc.held, Option.toList_some, List.count_singleton] at hplaces
      have howes : List.countP (Task.owesPod pod) [⟨podName, .running⟩] =
          if podName == pod then 1 else 0 := by
        simp [List.countP_cons, Task.owesPod, TaskStage.owes]
      rw [List.countP_append, howes, MainPc.held, Option.toList_none, List.count_nil]
      dsimp only [SchedulingState.assign]
      omega
    · rcases List.mem_cons.1 (perm_assignedPods_assign.mem_iff.1 hpod) with rfl | hpod
      · exact ⟨_, List.mem_append_right _ (List.mem_singleton_self _), rfl, rfl⟩
      · obtain ⟨task, htask, hname, hholds⟩ := hinv.onNodes pod hpod
        exact ⟨task, List.mem_append_left _ htask, hname, hholds⟩
    · rcases List.mem_append.1 htask with htask | htask
      · exact hinv.completion task htask c pc hstage
      · obtain rfl := List.mem_singleton.1 htask
        cases hstage
    · rw [List.getElem?_append] at htask
      split_ifs at htask with hi
      · exact List.mem_append_left _ (hinv.registered i task htask hstage)
      · have hlength : i = s.tasks.length := by
          have hlt := (List.getElem?_eq_some_iff.1 htask).1
          rw [List.length_singleton] at hlt
          omega
        exact List.mem_append_right _ (List.mem_singleton.2 hlength)

/-- The scheduler's thread goes on. -/
theorem SchedulerInv.mainStep (hinv : SchedulerInv workQueue s) {next : ℕ} {node : Option String}
    (h : s.mainStep next node = some s') : SchedulerInv workQueue s' := by
  cases mainMove h with
  | enter hmain =>
    have hsame : SchedulerInv workQueue { s with main := .popping .called } :=
      hinv.setMain (hmain ▸ rfl)
    refine ⟨hsame.assigned, hsame.places_eq, hsame.onNodes, hsame.completion, hsame.reschedules,
      fun i task htask hstage => ?_⟩
    refine List.mem_filter.2 ⟨hsame.registered i task htask hstage, ?_⟩
    have htask : s.tasks[i]? = some task := htask
    simp [Scheduler.isDone, htask, hstage]
  | leave hmain => exact hinv.setMain (hmain ▸ rfl)
  | giveUp hmain => exact hinv.setMain (hmain ▸ rfl)
  | select hmain => exact hinv.setMain (hmain ▸ rfl)
  | crash hmain => exact hinv.setMain (hmain ▸ rfl)
  | wait => exact hinv
  | submit nodeName hmain => exact hinv.submit hmain nodeName
  | drop hmain => exact hinv.setMain (hmain ▸ rfl)
  | @pop pc pc' state hmain hpop =>
    obtain ⟨hstate, hcases⟩ := popStep_spec hpop
    have hnodes : state.podsPerNode = s.state.podsPerNode := by rw [hstate]
    have hreasons : state.rescheduleEventsPerPod = s.state.rescheduleEventsPerPod := by rw [hstate]
    have hdone : state.podsDone = s.state.podsDone := by rw [hstate]
    refine ⟨hinv.assigned.congr hnodes (by rw [hstate]), fun pod => ?_, fun pod hpod => ?_,
      hinv.completion, fun pod => ?_, hinv.registered⟩
    · have hplaces := hinv.places_eq pod
      unfold Scheduler.places at hplaces ⊢
      rw [hmain, MainPc.held] at hplaces
      rw [MainPc.held, hdone]
      rcases hcases with ⟨hqueue, hheld⟩ | ⟨popped, hqueue, hheld, hheld'⟩
      · rw [hqueue, hheld]
        exact hplaces
      · rw [hqueue, hheld, List.count_append, Option.toList_none, List.count_nil] at hplaces
        rw [hheld', Option.toList_some]
        dsimp only
        omega
    · rw [SchedulingState.assignedPods, hnodes] at hpod
      exact hinv.onNodes pod hpod
    · have hle := hinv.reschedules pod
      rwa [getRescheduleReasons, ← hreasons] at hle

/-- **Every step** keeps pods where they should be. -/
theorem SchedulerInv.step (hinv : SchedulerInv workQueue s) (h : schedulerStep s a = some s') :
    SchedulerInv workQueue s' := by
  have hdone : ∀ {i : ℕ} {task : Task} (result : EstimatorResult), s.tasks[i]? = some task →
      task.stage = .running → SchedulerInv workQueue
        { s with tasks := s.tasks.set i { task with stage := .done result } } :=
    fun {i task} result htask hstage => by
      refine hinv.setStage htask s.eventQueuesPerPod hinv.assigned (fun pod => ?_)
        (fun pod hpod => ⟨hpod, fun _ _ => rfl⟩) (fun _ _ h => by cases h) hinv.reschedules
        (fun h => by cases h)
      rw [owesPod_setStage (hstage ▸ rfl)]
  cases a with
  | main next node => exact hinv.mainStep h
  | complete i e =>
    obtain ⟨task, htask, h⟩ := Option.bind_eq_some_iff.1 h
    split_ifs at h with hstage
    obtain rfl := Option.some.inj h
    exact hdone (runEstimator e) htask hstage
  | fail i e =>
    obtain ⟨task, htask, h⟩ := Option.bind_eq_some_iff.1 h
    split_ifs at h with hstage
    obtain rfl := Option.some.inj h
    exact hdone (.raised e) htask hstage
  | callback i =>
    obtain ⟨task, htask, h⟩ := Option.bind_eq_some_iff.1 h
    exact hinv.callbackStep htask h
  | watch podName =>
    obtain rfl := Option.some.inj h
    exact ⟨hinv.assigned, hinv.places_eq, hinv.onNodes, hinv.completion, hinv.reschedules,
      hinv.registered⟩
  | stop =>
    obtain rfl := Option.some.inj h
    exact hinv.setMain rfl

end Perf

end Svoe
