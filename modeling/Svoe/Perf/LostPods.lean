import Svoe.Perf.Scheduler

/-!
# Pods that the scheduler loses

A done callback that raises leaves its pod on its node, and neither in the work queue nor among the
pods that are done.

* `settled_iff` : pods are settled exactly if no callback was stranded.
* `noneStranded_step` : the steps at which a callback is stranded.
* `settled_of_run` : all pods are settled after a run exactly if no step strands a callback.
-/

namespace Svoe

namespace Perf

open Raising

/-- A pod that is not in the hands of the scheduler's thread, and for which all callbacks have run, is
on no node, and either in the work queue or done. -/
def Settled (workQueue : List String) (s : Scheduler) : Prop :=
  ∀ pod ∈ workQueue, (∀ task ∈ s.tasks, task.podName = pod → task.stage.isPending = false) →
    s.main.held ≠ some pod → pod ∉ s.state.assignedPods ∧
      s.state.podsWorkQueue.count pod + s.state.podsDone.count pod = 1

/-- No callback was stranded. -/
def NoneStranded (s : Scheduler) : Prop := ∀ task ∈ s.tasks, task.stage.isStranded = false

/-- The result can be taken apart, and its payload has all keys that the statistics need. -/
def EstimatorResult.Delivers : EstimatorResult → Prop
  | .three _ _ payload => ∀ keys ∈ payload,
      ∀ key ∈ ["payload_hash", "payload_config", "svoe"], key ∈ keys
  | .four _ _ _ _ | .raised _ => False

/-- The next step of the callback does not raise: the result delivers what is needed, there was an
event for the pod, and no node came while the pod was searched for. -/
def Task.Passes (s : Scheduler) (task : Task) : Prop :=
  match task.stage with
  | .done result => result.Delivers ∧ task.podName ∈ s.eventQueuesPerPod
  | .deciding _ (.searching numNodes) => s.state.podsPerNode.length = numNodes
  | .running | .deciding _ _ | .raised _ => True

/-- A callback that goes on does not raise. -/
def CallbackPasses (s : Scheduler) : SchedulerAction → Prop
  | .callback i => ∀ task ∈ s.tasks[i]?, task.Passes s
  | .main _ _ | .complete _ _ | .fail _ _ | .watch _ | .stop => True

variable {workQueue : List String} {s s' : Scheduler} {a : SchedulerAction} {task : Task} {i : ℕ}

/-- **Pods are settled** exactly if no callback was stranded. -/
theorem settled_iff (hinv : SchedulerInv workQueue s) (hnodup : workQueue.Nodup) :
    Settled workQueue s ↔ NoneStranded s := by
  constructor
  · intro hsettled task htask
    by_contra hstranded
    rw [Bool.not_eq_false] at hstranded
    have howes := TaskStage.owes_of_isStranded hstranded
    have hplaces := hinv.places_eq task.podName
    have hone := List.nodup_iff_count_le_one.1 hnodup task.podName
    unfold Scheduler.places at hplaces
    -- the stranded task is the only one that owes the pod
    rw [List.countP_eq_countP_filter_add _ _ fun task => task.stage.isStranded, List.countP_filter,
      List.countP_filter] at hplaces
    have hpos : 0 < s.tasks.countP
        fun other => Task.owesPod task.podName other && other.stage.isStranded :=
      List.countP_pos_iff.2 ⟨task, htask, by simp [Task.owesPod, howes, hstranded]⟩
    have hpending : s.tasks.countP
        (fun other => Task.owesPod task.podName other && !other.stage.isStranded) = 0 := by
      omega
    have hmem : task.podName ∈ workQueue := List.count_pos_iff.1 (by omega)
    have hheld : s.main.held ≠ some task.podName := by
      intro heq
      rw [heq, Option.toList_some, List.count_singleton_self] at hplaces
      omega
    have hothers : ∀ other ∈ s.tasks, other.podName = task.podName →
        other.stage.isPending = false := fun other hother hname => by
      have hnot := List.countP_eq_zero.1 hpending other hother
      simpa [Task.owesPod, hname, TaskStage.isPending] using hnot
    obtain ⟨-, hcount⟩ := hsettled task.podName hmem hothers hheld
    omega
  · intro hnone pod hpod hpending hheld
    have hpaid : ∀ task ∈ s.tasks, ¬ Task.owesPod pod task := fun task htask howes => by
      rw [Task.owesPod, Bool.and_eq_true] at howes
      have hstage := hpending task htask (of_decide_eq_true howes.1)
      rw [TaskStage.isPending, howes.2, hnone task htask] at hstage
      cases hstage
    refine ⟨fun hnode => ?_, ?_⟩
    · obtain ⟨task, htask, hname, hholds⟩ := hinv.onNodes pod hnode
      refine hpaid task htask ?_
      simp [Task.owesPod, hname, TaskStage.owes_of_holdsNode hholds]
    · have hplaces := hinv.places_eq pod
      have hcount : s.main.held.toList.count pod = 0 :=
        List.count_eq_zero.2 fun hmem => hheld (Option.mem_toList.1 hmem)
      rw [List.count_eq_one_of_mem hnodup hpod, Scheduler.places, hcount,
        List.countP_eq_zero.2 hpaid] at hplaces
      exact hplaces

theorem setPodInfo_eq_ok_iff {payload : List String} :
    setPodInfo payload = .ok () ↔
      ∀ key ∈ ["payload_hash", "payload_config", "svoe"], key ∈ payload := by
  unfold setPodInfo
  cases hfind : ["payload_hash", "payload_config", "svoe"].find? fun key => key ∉ payload with
  | none =>
    refine iff_of_true rfl fun key hkey => ?_
    simpa using List.find?_eq_none.1 hfind key hkey
  | some key =>
    refine iff_of_false (fun h => by cases h) fun h => ?_
    have hnot : key ∉ payload := by simpa using List.find?_some hfind
    exact hnot (h key (List.mem_of_find?_eq_some hfind))

theorem doneEstimationCallback_isOk_iff {podName : String} {result : EstimatorResult}
    {queues : List String} :
    (doneEstimationCallback podName result queues).1.isOk ↔
      result.Delivers ∧ podName ∈ queues := by
  cases result with
  | three reschedule reason payload =>
    have hdelivers : EstimatorResult.Delivers (.three reschedule reason payload) ↔
        payload.elim (.ok ()) setPodInfo = .ok () := by
      cases payload with
      | none => exact iff_of_true (fun _ h => by cases h) rfl
      | some payload =>
        refine (Iff.trans ?_ setPodInfo_eq_ok_iff.symm)
        exact ⟨fun h => h payload rfl, fun h _ heq => Option.some.inj heq ▸ h⟩
    rw [hdelivers, doneEstimationCallback]
    cases hpayload : payload.elim (.ok ()) setPodInfo with
    | error e =>
      rw [lift_error_bind]
      exact iff_of_false Bool.false_ne_true (fun h => by cases h.1)
    | ok u =>
      rw [lift_ok_bind, and_iff_right rfl]
      by_cases hpod : podName ∈ queues
      · have hclean : cleanStates podName queues = (.ok (), queues.erase podName) := by
          rw [cleanStates, get_bind, if_pos hpod]
          rfl
        rw [bind_of_ok hclean]
        exact iff_of_true rfl hpod
      · have hclean : cleanStates podName queues = (.error (.key podName), queues) := by
          rw [cleanStates, get_bind, if_neg hpod]
          rfl
        rw [bind_of_error hclean]
        exact iff_of_false Bool.false_ne_true hpod
  | four reschedule lastResult reason payload =>
    exact iff_of_false Bool.false_ne_true And.left
  | raised e => exact iff_of_false Bool.false_ne_true And.left

/-- One task of a list was changed. -/
theorem forall_mem_set_iff {α : Type*} {l : List α} {i : ℕ} {a : α} {q : α → Prop}
    (h : l[i]? = some a) (ha : q a) (b : α) :
    (∀ x ∈ l.set i b, q x) ↔ (∀ x ∈ l, q x) ∧ q b := by
  constructor
  · intro hall
    refine ⟨fun x hx => ?_, hall b (List.mem_set (List.getElem?_eq_some_iff.1 h).1 b)⟩
    obtain ⟨j, hj⟩ := List.getElem?_of_mem hx
    by_cases hij : i = j
    · subst hij
      exact Option.some.inj (h.symm.trans hj) ▸ ha
    · exact hall x (List.mem_of_getElem? ((List.getElem?_set_ne hij).trans hj))
  · rintro ⟨hall, hb⟩ x hx
    rcases List.mem_or_eq_of_mem_set hx with hx | rfl
    · exact hall x hx
    · exact hb

/-- A callback is stranded exactly if it does not pass. -/
theorem callbackStep_isStranded (hinv : SchedulerInv workQueue s)
    (h : s.callbackStep i task = some s') : task.stage.isStranded = false ∧
      ∃ stage, s'.tasks = s.tasks.set i { task with stage := stage } ∧
        (stage.isStranded = false ↔ task.Passes s) := by
  unfold Scheduler.callbackStep at h
  unfold Task.Passes
  cases hstage : task.stage with
  | running => rw [hstage] at h; cases h
  | raised e => rw [hstage] at h; cases h
  | done result =>
    have hiff : (doneEstimationCallback task.podName result s.eventQueuesPerPod).1.isOk ↔
        result.Delivers ∧ task.podName ∈ s.eventQueuesPerPod := doneEstimationCallback_isOk_iff
    rw [hstage] at h
    dsimp only at h ⊢
    rcases hdone : doneEstimationCallback task.podName result s.eventQueuesPerPod
      with ⟨e | c, queues⟩
    · rw [hdone] at h hiff
      obtain rfl := Option.some.inj h
      exact ⟨rfl, _, rfl, iff_of_false (fun h => by cases h) (mt hiff.2 Bool.false_ne_true)⟩
    · rw [hdone] at h hiff
      obtain rfl := Option.some.inj h
      exact ⟨rfl, _, rfl, iff_of_true rfl (hiff.1 rfl)⟩
  | deciding c pc =>
    rw [hstage] at h
    obtain ⟨⟨state, pc'⟩, hstep, rfl⟩ := Option.map_eq_some_iff.1 h
    cases hinv.assigned.rescheduleMove hstep with
    | changed hlength =>
      exact ⟨rfl, _, rfl, iff_of_false (fun h => by cases h) hlength⟩
    | _ => exact ⟨rfl, _, rfl, iff_of_true rfl (by first | rfl | trivial)⟩

/-- **A step strands a callback** exactly if the callback does not pass. -/
theorem noneStranded_step (hinv : SchedulerInv workQueue s) (h : schedulerStep s a = some s') :
    NoneStranded s' ↔ NoneStranded s ∧ CallbackPasses s a := by
  have hdone : ∀ {i : ℕ} {task : Task} (result : EstimatorResult), s.tasks[i]? = some task →
      task.stage = .running →
        ((∀ other ∈ s.tasks.set i { task with stage := .done result },
          other.stage.isStranded = false) ↔ NoneStranded s ∧ True) :=
    fun {i task} result htask hstage => by
      rw [forall_mem_set_iff (q := fun other : Task => other.stage.isStranded = false) htask
        (hstage ▸ rfl)]
      exact and_congr_right fun _ => iff_of_true rfl trivial
  cases a with
  | main next node =>
    refine Iff.trans ?_ (and_iff_left trivial).symm
    cases mainMove h with
    | @submit podName nodeName hmain =>
      unfold Scheduler.submit NoneStranded
      rcases scheduleOnNode podName nodeName s.state with ⟨e | u, state⟩
      · exact Iff.rfl
      · exact List.forall_mem_append.trans (and_iff_left (List.forall_mem_singleton.2 rfl))
    | _ => exact Iff.rfl
  | complete i e =>
    obtain ⟨task, htask, h⟩ := Option.bind_eq_some_iff.1 h
    split_ifs at h with hstage
    obtain rfl := Option.some.inj h
    exact hdone (runEstimator e) htask hstage
  | fail i e =>
    obtain ⟨task, htask, h⟩ := Option.bind_eq_some_iff.1 h
    split_ifs at h with hstage
    obtain rfl := Option.some.inj h
    exact hdone (.raised e) htask hstage
  | callback i =>
    obtain ⟨task, htask, h⟩ := Option.bind_eq_some_iff.1 h
    obtain ⟨hold, stage, htasks, hpasses⟩ := callbackStep_isStranded hinv h
    rw [NoneStranded, htasks,
      forall_mem_set_iff (q := fun other : Task => other.stage.isStranded = false) htask hold]
    refine and_congr_right fun _ => hpasses.trans ⟨fun h task' htask' => ?_, fun h => h task htask⟩
    exact Option.some.inj (htask.symm.trans htask') ▸ h
  | watch podName =>
    obtain rfl := Option.some.inj h
    exact (and_iff_left trivial).symm
  | stop =>
    obtain rfl := Option.some.inj h
    exact (and_iff_left trivial).symm

/-- **All pods are settled** after a run exactly if all callbacks have passed at all steps. -/
theorem settled_of_run {as : List SchedulerAction} (hnodup : workQueue.Nodup)
    (h : Transition.run schedulerStep (.init workQueue) as = some s) :
    Settled workQueue s ↔ Transition.AllSteps schedulerStep CallbackPasses (.init workQueue) as := by
  have hinit := schedulerInv_init workQueue
  have hstep : ∀ s a s', SchedulerInv workQueue s → schedulerStep s a = some s' →
      SchedulerInv workQueue s' := fun _ _ _ hinv => hinv.step
  have hnone : NoneStranded (.init workQueue) := fun task htask => by cases htask
  rw [settled_iff (Transition.invariant_of_run hstep hinit h) hnodup]
  refine (Transition.iff_allSteps_of_run (fun s a s' hinv hs => ⟨hinv.step hs, ?_⟩) hinit h).trans
    (and_iff_right hnone)
  exact noneStranded_step hinv hs

/-- A pod is popped and submitted. -/
def submitted : List SchedulerAction :=
  [.main 0 none, .main 0 none, .main 0 none, .main 0 none, .main 0 (some "node")]

/-- An estimation that succeeds. -/
def succeeds : Estimation :=
  ⟨some ["payload_config", "payload_hash", "svoe"], some "POD_SCHEDULED", some (false, none),
    some "POD_DELETED"⟩

/-- An estimation whose pod cannot be scheduled. -/
def failsToSchedule : Estimation := ⟨none, some "INTERRUPTED_INTERNAL_ERROR", none, none⟩

/-- A pod for which there was no event, and one that could not be scheduled. -/
theorem not_settled_submitted :
    (∃ s, Transition.run schedulerStep (.init ["pod"])
        (submitted ++ [.complete 0 succeeds, .callback 0]) = some s ∧ ¬ Settled ["pod"] s) ∧
      ∃ s, Transition.run schedulerStep (.init ["pod"])
        (submitted ++ [.watch "pod", .complete 0 failsToSchedule, .callback 0]) = some s ∧
          ¬ Settled ["pod"] s := by
  refine ⟨⟨_, rfl, fun h => ?_⟩, ⟨_, rfl, fun h => ?_⟩⟩
  all_goals
    obtain ⟨hnode, -⟩ := h "pod" (by decide) (by decide +kernel) (by decide +kernel)
    exact hnode (by decide +kernel)

theorem settled_of_run_submitted :
    ∃ s, Transition.run schedulerStep (.init ["pod"])
        (submitted ++ [.watch "pod", .complete 0 succeeds, .callback 0, .callback 0, .callback 0,
          .callback 0, .callback 0, .callback 0]) = some s ∧
      (Settled ["pod"] s ↔ Transition.AllSteps schedulerStep CallbackPasses (.init ["pod"])
        (submitted ++ [.watch "pod", .complete 0 succeeds, .callback 0, .callback 0, .callback 0,
          .callback 0, .callback 0, .callback 0])) :=
  ⟨_, rfl, settled_of_run (List.nodup_singleton _) rfl⟩

end Perf

end Svoe
