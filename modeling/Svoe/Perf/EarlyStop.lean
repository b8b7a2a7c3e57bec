import Svoe.Perf.Scheduler

/-!
# When the scheduler stops early

`pop_or_wait_work_queue` takes all futures for done as soon as the tasks are, and the callbacks that
put pods back run later.  When it has returned `None`, `run` ends, and nobody pops these pods.

* `Exhausted` : nothing is in the work queue, and no callback will put a pod back.
* `StopInv.step` : once the scheduler's thread has given up, this stays so.
* `done_of_run` : all pods are done when the scheduler has ended, if it gives up only then.
-/

namespace Svoe

namespace Perf

open Raising

/-- The callback may still put the pod back. -/
def Task.mayRequeue (s : SchedulingState) (task : Task) : Bool :=
  task.stage.isPending &&
    match task.stage with
    | .running => true
    | .done (.three reschedule reason _) => requeues s ⟨task.podName, reschedule, reason⟩
    | .deciding c _ => requeues s c
    | .done (.four _ _ _ _) | .done (.raised _) | .raised _ => false

/-- Nothing is left to be scheduled, and nothing will be. -/
def Exhausted (s : Scheduler) : Prop :=
  s.state.podsWorkQueue = [] ∧ ∀ task ∈ s.tasks, task.mayRequeue s.state = false

/-- The next step of the scheduler's thread decides that `pop_or_wait_work_queue` returns `None`. -/
def Scheduler.givesUp (s : Scheduler) : Bool :=
  match s.main with
  | .popping (.waiting given) => ∀ f ∈ s.futures, f ∈ given
  | .popping (.inside _) => s.state.podsWorkQueue = [] ∧ ∀ f ∈ s.futures, s.isDone f
  | .loop | .popping _ | .selecting _ | .finished _ | .crashed _ => false

/-- The next step of the scheduler's thread is a `release`. -/
def MainPc.isReleasing : MainPc → Bool
  | .popping pc => pc.isReleasing
  | .loop | .selecting _ | .finished _ | .crashed _ => false

/-- The scheduler's thread gives up only when nothing will be scheduled, and it releases a lock that
is locked. -/
def GivesUpInTime (s : Scheduler) : SchedulerAction → Prop
  | .main _ _ => (s.givesUp → Exhausted s) ∧ (s.main.isReleasing → s.state.globalLock ≠ none)
  | .complete _ _ | .fail _ _ | .callback _ | .watch _ | .stop => True

instance (s : Scheduler) : Decidable (Exhausted s) := inferInstanceAs (Decidable (_ ∧ _))

instance (s : Scheduler) : (a : SchedulerAction) → Decidable (GivesUpInTime s a)
  | .main _ _ => inferInstanceAs (Decidable (_ ∧ _))
  | .complete _ _ | .fail _ _ | .callback _ | .watch _ | .stop => .isTrue trivial

/-- The callback has run, or raised. -/
def TaskStage.isOver : TaskStage → Bool
  | .raised _ => true
  | .deciding _ pc => pc = .returned || pc = .removeRaised || pc = .releaseRaised
  | .running | .done _ => false

/-- The thread has decided that `pop_or_wait_work_queue` returns `None`. -/
def PopPc.hasGivenUp : PopPc → Bool
  | .leaving none | .testing none _ | .releasing none _ | .returned none => true
  | .called | .waiting _ | .yielded _ | .inside _ | .leaving _ | .testing _ _ | .releasing _ _
  | .returned _ | .raised _ => false

/-- The thread will not pop any more. -/
def MainPc.hasGivenUp : MainPc → Bool
  | .popping pc => pc.hasGivenUp
  | .finished _ => true
  | .loop | .selecting _ | .crashed _ => false

section Threads

variable {s s' : SchedulingState} {isDone : ℕ → Bool} {pending : List ℕ} {next : ℕ} {pc pc' : PopPc}

/-- Where the thread gives up. -/
theorem hasGivenUp_of_popStep (h : popStep isDone pending next s pc = some (s', pc'))
    (hgivenUp : pc'.hasGivenUp) : pc.hasGivenUp ∨ (∃ given, pc = .waiting given ∧
      ∀ f ∈ pending, f ∈ given) ∨ ∃ given, pc = .inside given ∧ s.podsWorkQueue = [] ∧
        ∀ f ∈ pending, isDone f := by
  cases popMove_of_popStep h with
  | exhaust hgiven => exact .inr (.inl ⟨_, rfl, hgiven⟩)
  | finish hempty hdone => exact .inr (.inr ⟨_, rfl, hempty, hdone⟩)
  | @leave goOn =>
    cases goOn with
    | none => exact .inl rfl
    | some given => cases hgivenUp
  | @locked podName =>
    cases podName with
    | none => exact .inl rfl
    | some pod => cases hgivenUp
  | @unlocked podName =>
    cases podName with
    | none => exact .inl rfl
    | some pod => cases hgivenUp
  | @release podName =>
    cases podName with
    | none => exact .inl rfl
    | some pod => cases hgivenUp
  | _ => cases hgivenUp

/-- Where the thread raises. -/
theorem isReleasing_of_popStep_raised {podName : Option String}
    (h : popStep isDone pending next s pc = some (s', pc')) (hraised : pc' = .raised podName) :
    pc.isReleasing ∧ s.globalLock = none := by
  cases popMove_of_popStep h with
  | leaveRaised hfree => exact ⟨rfl, hfree⟩
  | releaseRaised hfree => exact ⟨rfl, hfree⟩
  | @leave goOn => cases goOn <;> cases hraised
  | _ => cases hraised

end Threads

/-! ### Runs without `stop` -/

/-- The thread has neither finished nor raised. -/
def MainPc.isOn : MainPc → Bool
  | .popping (.raised _) | .finished _ | .crashed _ => false
  | .loop | .popping _ | .selecting _ => true

/-- The scheduler runs until its thread gives up, and then nothing is left. -/
structure StopInv (workQueue : List String) (s : Scheduler) : Prop where
  inv : SchedulerInv workQueue s
  size : s.initWorkQueueSize = workQueue.length
  on : s.main = .finished none ∨ s.main.isOn ∧ s.running
  exhausted : s.main.hasGivenUp → Exhausted s

variable {workQueue : List String} {s s' : Scheduler} {a : SchedulerAction} {task : Task} {i : ℕ}

/-- When so many pods are done as there were, none is anywhere else. -/
theorem SchedulerInv.exhausted (hinv : SchedulerInv workQueue s)
    (hlength : s.state.podsDone.length = workQueue.length) : Exhausted s := by
  have hle : ∀ pod, s.state.podsDone.count pod ≤ workQueue.count pod := fun pod => by
    have hplaces := hinv.places_eq pod
    unfold Scheduler.places at hplaces
    omega
  have hperm : s.state.podsDone.Perm workQueue :=
    (List.subperm_ext_iff.2 fun pod _ => hle pod).perm_of_length_le (Nat.le_of_eq hlength.symm)
  have hnowhere : ∀ pod, s.state.podsWorkQueue.count pod = 0 ∧
      s.tasks.countP (Task.owesPod pod) = 0 := fun pod => by
    have hplaces := hinv.places_eq pod
    rw [Scheduler.places, hperm.count_eq] at hplaces
    omega
  refine ⟨List.eq_nil_iff_forall_not_mem.2 fun pod => List.count_eq_zero.1 (hnowhere pod).1,
    fun task htask => ?_⟩
  have howes := List.countP_eq_zero.1 (hnowhere task.podName).2 task htask
  have hstage : task.stage.owes = false := by simpa [Task.owesPod] using howes
  rw [Task.mayRequeue, TaskStage.isPending, hstage, Bool.false_and, Bool.false_and]

/-- A pod that was popped is not on a node. -/
theorem SchedulerInv.not_mem_assignedPods (hinv : SchedulerInv workQueue s)
    (hnodup : workQueue.Nodup) {podName : String} (hmain : s.main = .selecting podName) :
    podName ∉ s.state.assignedPods := by
  intro hnode
  obtain ⟨task, htask, hname, hholds⟩ := hinv.onNodes podName hnode
  have hpos : 0 < s.tasks.countP (Task.owesPod podName) := List.countP_pos_iff.2
    ⟨task, htask, by simp [Task.owesPod, hname, TaskStage.owes_of_holdsNode hholds]⟩
  have hplaces := hinv.places_eq podName
  have hone := List.nodup_iff_count_le_one.1 hnodup podName
  rw [Scheduler.places, hmain, MainPc.held, Option.toList_some, List.count_singleton_self]
    at hplaces
  omega

theorem mayRequeue_congr {state state' : SchedulingState}
    (h : state'.rescheduleEventsPerPod = state.rescheduleEventsPerPod) (task : Task) :
    task.mayRequeue state' = task.mayRequeue state := by
  unfold Task.mayRequeue
  simp only [requeues_congr h]

/-- The scheduler's thread goes on. -/
theorem StopInv.mainStep (hinv : StopInv workQueue s) (hnodup : workQueue.Nodup) {next : ℕ}
    {node : Option String} (hintime : GivesUpInTime s (.main next node))
    (h : s.mainStep next node = some s') : StopInv workQueue s' := by
  have hinv' := hinv.inv.mainStep h
  obtain ⟨hgivesUp, hreleases⟩ := hintime
  have hruns : s.main ≠ .finished none → s.running := fun hne => (hinv.on.resolve_left hne).2
  cases mainMove h with
  | enter hmain hcond => exact ⟨hinv', hinv.size, .inr ⟨rfl, hcond.1⟩, fun h => (by cases h)⟩
  | leave hmain hcond =>
    have hlength : s.state.podsDone.length = workQueue.length := by
      by_contra hne
      exact hcond ⟨hruns (hmain ▸ fun h => by cases h), hinv.size ▸ hne⟩
    exact ⟨hinv', hinv.size, .inl rfl, fun _ => hinv.inv.exhausted hlength⟩
  | giveUp hmain => exact ⟨hinv', hinv.size, .inl rfl, fun _ => hinv.exhausted (hmain ▸ rfl)⟩
  | select hmain =>
    exact ⟨hinv', hinv.size, .inr ⟨rfl, hruns (hmain ▸ fun h => by cases h)⟩, fun h => (by cases h)⟩
  | crash hmain =>
    rcases hinv.on with hfinished | ⟨hon, -⟩
    · cases hmain.symm.trans hfinished
    · rw [hmain] at hon; cases hon
  | @pop pc pc' state hmain hpop =>
    obtain ⟨hstate, hqueue⟩ := popStep_spec hpop
    refine ⟨hinv', hinv.size, .inr ⟨?_, hruns (hmain ▸ fun h => by cases h)⟩, fun hgivenUp => ?_⟩
    · cases pc' with
      | raised podName =>
        obtain ⟨hreleasing, hfree⟩ := isReleasing_of_popStep_raised hpop rfl
        exact absurd hfree (hreleases (hmain ▸ hreleasing))
      | _ => rfl
    · have hexhausted : Exhausted s := by
        rcases hasGivenUp_of_popStep hpop hgivenUp with hold | ⟨given, rfl, hgiven⟩ |
          ⟨given, rfl, hempty, hdone⟩
        · exact hinv.exhausted (hmain ▸ hold)
        · exact hgivesUp (by rw [Scheduler.givesUp, hmain]; exact decide_eq_true hgiven)
        · exact hgivesUp (by rw [Scheduler.givesUp, hmain]; exact decide_eq_true ⟨hempty, hdone⟩)
      refine ⟨?_, fun task htask => ?_⟩
      · rcases hqueue with ⟨hqueue, -⟩ | ⟨pod, hqueue, -⟩
        · exact hqueue.trans hexhausted.1
        · cases (List.append_eq_nil_iff.1 (hqueue.symm.trans hexhausted.1)).2
      · have hreasons : state.rescheduleEventsPerPod = s.state.rescheduleEventsPerPod := by
          rw [hstate]
        exact (mayRequeue_congr hreasons task).trans (hexhausted.2 task htask)
  | wait => exact hinv
  | @submit podName nodeName hmain =>
    have hpod := hinv.inv.not_mem_assignedPods hnodup hmain
    unfold Scheduler.submit at hinv' ⊢
    rcases hinv.inv.assigned.scheduleOnNode podName nodeName with
      ⟨node, hnode, -⟩ | ⟨-, priority, he, -⟩
    · cases (getNodeForScheduledPod_eq_none_iff.2 hpod).symm.trans hnode
    · rw [he] at hinv' ⊢
      exact ⟨hinv', hinv.size, .inr ⟨rfl, hruns (hmain ▸ fun h => by cases h)⟩,
        fun h => (by cases h)⟩
  | drop hmain hstopped =>
    cases (hruns (hmain ▸ fun h => by cases h)).symm.trans hstopped

/-- A task goes on that does not put its pod back. -/
theorem Exhausted.setStage (hexhausted : Exhausted s) {state : SchedulingState}
    (hqueue : state.podsWorkQueue = s.state.podsWorkQueue)
    (hreasons : state.rescheduleEventsPerPod = s.state.rescheduleEventsPerPod) {stage : TaskStage}
    (hstage : Task.mayRequeue s.state { task with stage := stage } = false)
    (queues : List String) :
    Exhausted
      { s with
        state := state
        eventQueuesPerPod := queues
        tasks := s.tasks.set i { task with stage := stage } } := by
  refine ⟨hqueue.trans hexhausted.1, fun other hother => (mayRequeue_congr hreasons other).trans ?_⟩
  rcases List.mem_or_eq_of_mem_set hother with hother | rfl
  · exact hexhausted.2 other hother
  · exact hstage

/-- When nothing is left, callbacks leave it so. -/
theorem Exhausted.callbackStep (hexhausted : Exhausted s) (hinv : SchedulerInv workQueue s)
    (htask : s.tasks[i]? = some task) (h : s.callbackStep i task = some s') : Exhausted s' := by
  have hmay := hexhausted.2 task (List.mem_of_getElem? htask)
  unfold Task.mayRequeue at hmay
  unfold Scheduler.callbackStep at h
  cases hstage : task.stage with
  | running => rw [hstage] at h; cases h
  | raised e => rw [hstage] at h; cases h
  | done result =>
    rw [hstage] at h hmay
    dsimp only at h
    rcases hdone : doneEstimationCallback task.podName result s.eventQueuesPerPod
      with ⟨e | c, queues⟩
    · rw [hdone] at h
      obtain rfl := Option.some.inj h
      exact hexhausted.setStage rfl rfl rfl queues
    · rw [hdone] at h
      obtain rfl := Option.some.inj h
      obtain ⟨hname, payload, rfl⟩ := eq_of_doneEstimationCallback hdone
      refine hexhausted.setStage rfl rfl ?_ queues
      rw [← hname] at hmay
      exact hmay
  | deciding c pc =>
    rw [hstage] at h hmay
    obtain ⟨⟨state, pc'⟩, hstep, rfl⟩ := Option.map_eq_some_iff.1 h
    have hset : ∀ {state : SchedulingState} {pc' : ReschedulePc},
        state.podsWorkQueue = s.state.podsWorkQueue →
        state.rescheduleEventsPerPod = s.state.rescheduleEventsPerPod →
        Task.mayRequeue s.state { task with stage := .deciding c pc' } = false →
        Exhausted { s with
          state := state, tasks := s.tasks.set i { task with stage := .deciding c pc' } } :=
      fun hqueue hreasons hstage => hexhausted.setStage hqueue hreasons hstage s.eventQueuesPerPod
    cases hinv.assigned.rescheduleMove hstep with
    | call | absent | remove | acquire =>
      refine hset rfl rfl ?_
      exact hmay
    | changed | release | releaseRaised =>
      refine hset rfl rfl ?_
      rfl
    | decide =>
      have hdecision : rescheduleOrComplete c s.state =
          { s.state with podsDone := s.state.podsDone ++ [c.podName] } := by
        have hfalse : requeues s.state c = false := hmay
        rw [rescheduleOrComplete, hfalse]
        rfl
      rw [hdecision]
      refine hset rfl rfl ?_
      rfl

theorem callbackStep_main (h : s.callbackStep i task = some s') :
    s'.main = s.main ∧ s'.running = s.running ∧ s'.initWorkQueueSize = s.initWorkQueueSize := by
  unfold Scheduler.callbackStep at h
  cases hstage : task.stage with
  | done result =>
    rw [hstage] at h
    dsimp only at h
    rcases hdone : doneEstimationCallback task.podName result s.eventQueuesPerPod
      with ⟨e | c, queues⟩
    all_goals
      rw [hdone] at h
      obtain rfl := Option.some.inj h
      exact ⟨rfl, rfl, rfl⟩
  | deciding c pc =>
    rw [hstage] at h
    obtain ⟨p, -, rfl⟩ := Option.map_eq_some_iff.1 h
    exact ⟨rfl, rfl, rfl⟩
  | _ => rw [hstage] at h; cases h

/-- **A step in time**: once the scheduler's thread has given up, nothing comes back. -/
theorem StopInv.step (hinv : StopInv workQueue s) (hnodup : workQueue.Nodup)
    (hintime : GivesUpInTime s a) (hstop : a ≠ .stop) (h : schedulerStep s a = some s') :
    StopInv workQueue s' := by
  have hinv' := hinv.inv.step h
  have hrunning : ∀ {i : ℕ} {task : Task}, s.tasks[i]? = some task → task.stage = .running →
      s.main.hasGivenUp → False := fun {i task} htask hstage hgivenUp => by
    have hmay := (hinv.exhausted hgivenUp).2 task (List.mem_of_getElem? htask)
    rw [Task.mayRequeue, hstage] at hmay
    cases hmay
  cases a with
  | main next node => exact hinv.mainStep hnodup hintime h
  | complete i e =>
    obtain ⟨task, htask, h⟩ := Option.bind_eq_some_iff.1 h
    split_ifs at h with hstage
    obtain rfl := Option.some.inj h
    exact ⟨hinv', hinv.size, hinv.on, fun hgivenUp => (hrunning htask hstage hgivenUp).elim⟩
  | fail i e =>
    obtain ⟨task, htask, h⟩ := Option.bind_eq_some_iff.1 h
    split_ifs at h with hstage
    obtain rfl := Option.some.inj h
    exact ⟨hinv', hinv.size, hinv.on, fun hgivenUp => (hrunning htask hstage hgivenUp).elim⟩
  | callback i =>
    obtain ⟨task, htask, hstep⟩ := Option.bind_eq_some_iff.1 h
    have hsame : s'.main = s.main ∧ s'.running = s.running ∧
        s'.initWorkQueueSize = s.initWorkQueueSize := callbackStep_main hstep
    obtain ⟨hmain, hruns, hsize⟩ := hsame
    refine ⟨hinv', hsize.trans hinv.size, by rw [hmain, hruns]; exact hinv.on, fun hgivenUp => ?_⟩
    exact (hinv.exhausted (hmain ▸ hgivenUp)).callbackStep hinv.inv htask hstep
  | watch podName =>
    obtain rfl := Option.some.inj h
    exact ⟨hinv', hinv.size, hinv.on, hinv.exhausted⟩
  | stop => exact absurd rfl hstop

/-- A pod is popped, submitted, and its estimation ends with a reason to schedule it again. -/
def oomKilled : List SchedulerAction :=
  [.main 0 none, .main 0 none, .main 0 none, .main 0 none, .main 0 (some "node"), .watch "pod",
    .complete 0 ⟨some ["payload_config", "payload_hash", "svoe"], some "POD_SCHEDULED",
      some (true, some "INTERRUPTED_OOM"), some "POD_DELETED"⟩]

/-- The pod is scheduled twice. -/
def reschedules : List SchedulerAction :=
  oomKilled ++ List.replicate 6 (.callback 0) ++ List.replicate 4 (.main 0 none) ++
    [.main 0 (some "node"), .watch "pod",
      .complete 1 ⟨some ["payload_config", "payload_hash", "svoe"], some "POD_SCHEDULED",
        some (false, none), some "POD_DELETED"⟩] ++
    List.replicate 6 (.callback 1) ++ [.main 0 none]

end Perf

end Svoe
