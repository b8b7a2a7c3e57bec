import Svoe.Common.Dict
import Svoe.Transition.Basic
import Svoe.Transition.Raising
import Mathlib.Data.Int.Notation
import Mathlib.Algebra.GroupWithZero.Nat

/-!
# The scheduling state

`SchedulingState` knows which pods still have to be estimated, on which nodes pods are scheduled,
and with which priorities: a pod that is scheduled after another one on its node gets a lower one.

* `Assigned` : a pod is on one node at most, pods on nodes have priorities, and nothing else has, and
  the priorities fall along every node.
* `Assigned.scheduleOnNode`, `Assigned.removePodFromScheduleState` : all that scheduling and removing
  a pod can do.
* `nodeAssignment_run` : what holds after all sequences of the two.
-/

namespace Svoe

namespace Perf

open Raising

/-- A thread that takes the global lock: the one of the scheduler, or the one that runs the done
callback of a task. -/
inductive Thread where
  | scheduler
  | callback (task : ℕ)
  deriving DecidableEq, Repr

/-- An exception that the scheduler's threads raise. -/
inductive SchedulingError where
  /-- `Exception(msg)`. -/
  | exception (msg : String)
  /-- `KeyError: key`. -/
  | key (key : String)
  /-- `ValueError(msg)`. -/
  | value (msg : String)
  /-- `RuntimeError(msg)`. -/
  | runtime (msg : String)
  deriving DecidableEq, Repr

/-- `SchedulingState`, without the events of the pods and the data of the OOM handler. -/
structure SchedulingState where
  podsWorkQueue : List String
  podsDone : List String
  podsPerNode : List (String × List String)
  podsPriorities : List (String × ℤ)
  rescheduleEventsPerPod : List (String × List (Option String))
  /-- The thread that holds `global_lock`.  A lock itself does not know it. -/
  globalLock : Option Thread
  deriving DecidableEq, Repr

/-- A part of a thread. -/
abbrev Scheduling := Raising SchedulingState SchedulingError

namespace SchedulingState

/-- `__init__` and `init_pods_work_queue`. -/
def init (workQueue : List String) : SchedulingState := ⟨workQueue, [], [], [], [], none⟩

/-- `get_last_scheduled_pod`. -/
def getLastScheduledPod (s : SchedulingState) (node : String) : Option String :=
  (dictGet s.podsPerNode node).bind List.getLast?

/-- `get_node_for_scheduled_pod`. -/
def getNodeForScheduledPod (s : SchedulingState) (pod : String) : Option String :=
  (s.podsPerNode.find? fun p => pod ∈ p.2).map Prod.fst

end SchedulingState

/-- `get_schedulable_pod_priority`. -/
def getSchedulablePodPriority (nodeName : String) : Scheduling ℤ := do
  let s ← get
  match s.getLastScheduledPod nodeName with
  | none => return 10000
  | some lastPod =>
    match dictGet s.podsPriorities lastPod with
    | none => lift (.error (.key lastPod))
    | some lastPriority => return lastPriority - 1

/-- `add_pod_to_schedule_state`. -/
def addPodToScheduleState (podName nodeName : String) (priority : ℤ) : Scheduling Unit := do
  let s ← get
  match s.getNodeForScheduledPod podName with
  | some node =>
    lift (.error (.exception s!"[Scheduler] Pod {podName} is already assigned to node {node}"))
  | none =>
    modify fun s =>
      { s with
        podsPerNode := dictSet s.podsPerNode nodeName
          ((dictGet s.podsPerNode nodeName).getD [] ++ [podName])
        podsPriorities := dictSet s.podsPriorities podName priority }

/-- The end of `remove_pod_from_schedule_state`: `del self.pods_priorities[pod_name]`. -/
def deletePriority (podName : String) : Scheduling Unit := do
  let s ← get
  if podName ∈ s.podsPriorities.map Prod.fst then
    modify fun s => { s with podsPriorities := dictErase s.podsPriorities podName }
  else lift (.error (.key podName))

/-- `remove_pod_from_schedule_state`. -/
def removePodFromScheduleState (podName : String) : Scheduling Unit := do
  let s ← get
  let found := s.podsPerNode.filter fun p => podName ∈ p.2
  match found.getLast? with
  | none => return ()
  | some (nodeName, pods) =>
    let count := found.length
    if count > 1 then
      lift (.error (.exception s!"[Scheduler] Found {count} pods with name {podName}, should be 1"))
    else do
      modify fun s =>
        { s with podsPerNode := dictSet s.podsPerNode nodeName (pods.erase podName) }
      deletePriority podName

/-- What changes the assignment of pods to nodes. -/
inductive AssignmentCall where
  /-- `get_schedulable_pod_priority`, and `add_pod_to_schedule_state` with that priority. -/
  | schedule (podName nodeName : String)
  | remove (podName : String)
  deriving DecidableEq, Repr

/-- A pod is scheduled in `Scheduler.run`. -/
def scheduleOnNode (podName nodeName : String) : Scheduling Unit := do
  let priority ← getSchedulablePodPriority nodeName
  addPodToScheduleState podName nodeName priority

/-- A call, which returns or raises. -/
def AssignmentCall.exec : AssignmentCall → Scheduling Unit
  | .schedule podName nodeName => scheduleOnNode podName nodeName
  | .remove podName => removePodFromScheduleState podName

/-- The state that a call leaves behind. -/
def assignmentStep (s : SchedulingState) (call : AssignmentCall) : Option SchedulingState :=
  some (call.exec s).2

/-! ### Assignments -/

namespace SchedulingState

/-- All scheduled pods. -/
def assignedPods (s : SchedulingState) : List String := s.podsPerNode.flatMap Prod.snd

/-- The priorities of pods. -/
def priorities (s : SchedulingState) (pods : List String) : List ℤ :=
  pods.filterMap (dictGet s.podsPriorities)

/-- The pods of a node. -/
def podsOn (s : SchedulingState) (node : String) : List String :=
  (dictGet s.podsPerNode node).getD []

/-- The state after a pod was scheduled. -/
def assign (s : SchedulingState) (pod node : String) (priority : ℤ) : SchedulingState :=
  { s with
    podsPerNode := dictSet s.podsPerNode node (s.podsOn node ++ [pod])
    podsPriorities := dictSet s.podsPriorities pod priority }

/-- The state after a pod was removed from a node. -/
def unassign (s : SchedulingState) (pod node : String) : SchedulingState :=
  { s with
    podsPerNode := dictSet s.podsPerNode node ((s.podsOn node).erase pod)
    podsPriorities := dictErase s.podsPriorities pod }

end SchedulingState

/-- A pod is on one node at most, exactly the pods on nodes have priorities, and these fall along
every node. -/
structure Assigned (s : SchedulingState) : Prop where
  nodes_nodup : (s.podsPerNode.map Prod.fst).Nodup
  pods_nodup : s.assignedPods.Nodup
  priorities_nodup : (s.podsPriorities.map Prod.fst).Nodup
  mem_priorities_iff : ∀ pod, pod ∈ s.podsPriorities.map Prod.fst ↔ pod ∈ s.assignedPods
  decreasing : ∀ p ∈ s.podsPerNode, (s.priorities p.2).Pairwise (· > ·)

variable {s s' : SchedulingState} {pod node : String} {priority : ℤ}

/-- Nothing else of the state matters. -/
theorem Assigned.congr (hinv : Assigned s) (hnodes : s'.podsPerNode = s.podsPerNode)
    (hpriorities : s'.podsPriorities = s.podsPriorities) : Assigned s' := by
  obtain ⟨h₁, h₂, h₃, h₄, h₅⟩ := hinv
  unfold SchedulingState.assignedPods SchedulingState.priorities at *
  constructor
  all_goals
    simp only [SchedulingState.assignedPods, SchedulingState.priorities, hnodes, hpriorities]
    assumption

theorem mem_assignedPods_iff : pod ∈ s.assignedPods ↔ ∃ p ∈ s.podsPerNode, pod ∈ p.2 :=
  List.mem_flatMap

theorem mem_assignedPods_of_mem_podsOn (h : pod ∈ s.podsOn node) : pod ∈ s.assignedPods := by
  unfold SchedulingState.podsOn at h
  cases hpods : dictGet s.podsPerNode node with
  | none => rw [hpods] at h; cases h
  | some pods =>
    rw [hpods] at h
    obtain ⟨p, hp, rfl⟩ := Option.map_eq_some_iff.1 hpods
    exact mem_assignedPods_iff.2 ⟨p, List.mem_of_find?_eq_some hp, h⟩

theorem getNodeForScheduledPod_eq_none_iff :
    s.getNodeForScheduledPod pod = none ↔ pod ∉ s.assignedPods := by
  rw [SchedulingState.getNodeForScheduledPod, Option.map_eq_none_iff, List.find?_eq_none,
    mem_assignedPods_iff]
  simp

theorem perm_assignedPods_assign :
    (s.assign pod node priority).assignedPods.Perm (pod :: s.assignedPods) := by
  have hperm := perm_flatMap_dictSet s.podsPerNode node (s.podsOn node ++ [pod])
  have hcomm : (s.assignedPods ++ (s.podsOn node ++ [pod])).Perm
      (pod :: s.assignedPods ++ s.podsOn node) := by
    rw [← List.append_assoc]
    exact List.perm_append_singleton pod _
  exact (List.perm_append_right_iff (s.podsOn node)).1 (hperm.trans hcomm)

theorem perm_assignedPods_unassign (h : pod ∈ s.podsOn node) :
    (pod :: (s.unassign pod node).assignedPods).Perm s.assignedPods := by
  have hperm := perm_flatMap_dictSet s.podsPerNode node ((s.podsOn node).erase pod)
  refine (List.perm_append_right_iff ((s.podsOn node).erase pod)).1 (List.Perm.trans ?_ hperm)
  refine List.Perm.trans ?_ ((List.perm_cons_erase h).symm.append_left _)
  exact List.perm_middle.symm

/-- The priority of the next pod of a node is lower than those of the pods that are there. -/
theorem Assigned.exists_priority (hinv : Assigned s) (node : String) :
    ∃ priority, getSchedulablePodPriority node s = (.ok priority, s) ∧
      ∀ q ∈ s.priorities (s.podsOn node), priority < q := by
  rw [getSchedulablePodPriority, get_bind, SchedulingState.getLastScheduledPod,
    SchedulingState.podsOn]
  cases hpods : dictGet s.podsPerNode node with
  | none => exact ⟨10000, rfl, by simp [SchedulingState.priorities]⟩
  | some pods =>
    dsimp only [Option.bind_some, Option.getD_some]
    rcases pods.eq_nil_or_concat' with rfl | ⟨before, lastPod, rfl⟩
    · exact ⟨10000, rfl, by simp [SchedulingState.priorities]⟩
    · have hmem : (node, before ++ [lastPod]) ∈ s.podsPerNode :=
        (dictGet_eq_some_iff hinv.nodes_nodup).1 hpods
      have hlast : lastPod ∈ s.podsPriorities.map Prod.fst :=
        (hinv.mem_priorities_iff lastPod).2 (mem_assignedPods_iff.2 ⟨_, hmem, by simp⟩)
      obtain ⟨q, hq⟩ := Option.ne_none_iff_exists'.1 (mt dictGet_eq_none_iff.1 (not_not.2 hlast))
      refine ⟨q - 1, by rw [List.getLast?_concat]; simp only [hq]; rfl, ?_⟩
      have hsplit : s.priorities (before ++ [lastPod]) = s.priorities before ++ [q] := by
        rw [SchedulingState.priorities, List.filterMap_append]
        simp [hq, SchedulingState.priorities]
      have hdecreasing := hinv.decreasing _ hmem
      rw [hsplit, List.pairwise_append] at hdecreasing
      rw [hsplit]
      intro q' hq'
      rcases List.mem_append.1 hq' with hq' | hq'
      · have hlt : q < q' := hdecreasing.2.2 q' hq' q (List.mem_singleton_self q)
        omega
      · rw [List.mem_singleton.1 hq']
        omega

theorem priorities_congr {pods : List String}
    (h : ∀ pod ∈ pods, dictGet s'.podsPriorities pod = dictGet s.podsPriorities pod) :
    s'.priorities pods = s.priorities pods := List.filterMap_congr h

/-- **A pod that is on no node** can be put behind the pods of one. -/
theorem Assigned.assign (hinv : Assigned s) (hpod : pod ∉ s.assignedPods)
    (hlower : ∀ q ∈ s.priorities (s.podsOn node), priority < q) :
    Assigned (s.assign pod node priority) := by
  have hkeep : ∀ pods : List String, (∀ pod' ∈ pods, pod' ∈ s.assignedPods) →
      (s.assign pod node priority).priorities pods = s.priorities pods := fun pods hpods =>
    priorities_congr fun pod' hpod' => by
      rw [SchedulingState.assign, dictGet_dictSet, if_neg]
      rintro rfl
      exact hpod (hpods pod hpod')
  refine ⟨nodup_keys_dictSet hinv.nodes_nodup _ _, ?_,
    nodup_keys_dictSet hinv.priorities_nodup _ _, fun pod' => ?_, fun p hp => ?_⟩
  · rw [perm_assignedPods_assign.nodup_iff, List.nodup_cons]
    exact ⟨hpod, hinv.pods_nodup⟩
  · rw [perm_assignedPods_assign.mem_iff, List.mem_cons, ← hinv.mem_priorities_iff,
      SchedulingState.assign, keys_dictSet]
    split_ifs with hmem
    · exact ⟨.inr, fun h => h.elim (fun h => h ▸ hmem) id⟩
    · rw [List.mem_append, List.mem_singleton, or_comm]
  · rcases eq_or_mem_of_mem_dictSet hp with rfl | hp
    · have hold := hkeep (s.podsOn node) fun pod' => mem_assignedPods_of_mem_podsOn
      have hnew : (s.assign pod node priority).priorities [pod] = [priority] := by
        simp [SchedulingState.priorities, SchedulingState.assign, dictGet_dictSet]
      have hsplit : (s.assign pod node priority).priorities (s.podsOn node ++ [pod]) =
          s.priorities (s.podsOn node) ++ [priority] := by
        rw [← hold, ← hnew]
        exact List.filterMap_append
      have hpods : (s.priorities (s.podsOn node)).Pairwise (· > ·) := by
        unfold SchedulingState.podsOn
        cases hget : dictGet s.podsPerNode node with
        | none => exact List.Pairwise.nil
        | some pods => exact hinv.decreasing _ ((dictGet_eq_some_iff hinv.nodes_nodup).1 hget)
      rw [hsplit, List.pairwise_append]
      refine ⟨hpods, List.pairwise_singleton _ _, fun q hq q' hq' => ?_⟩
      rw [List.mem_singleton.1 hq']
      exact hlower q hq
    · rw [hkeep p.2 fun pod' hpod' => mem_assignedPods_iff.2 ⟨p, hp, hpod'⟩]
      exact hinv.decreasing p hp

/-- **A pod that is on a node** can be removed from it. -/
theorem Assigned.unassign (hinv : Assigned s) (hpod : pod ∈ s.podsOn node) :
    Assigned (s.unassign pod node) := by
  have hperm := perm_assignedPods_unassign hpod
  have hnodup : pod ∉ (s.unassign pod node).assignedPods ∧
      (s.unassign pod node).assignedPods.Nodup :=
    List.nodup_cons.1 (hperm.nodup_iff.2 hinv.pods_nodup)
  have hkeep : ∀ p ∈ (s.unassign pod node).podsPerNode,
      (s.unassign pod node).priorities p.2 = s.priorities p.2 := fun p hp =>
    priorities_congr fun pod' hpod' => by
      rw [SchedulingState.unassign, dictGet_dictErase hinv.priorities_nodup, if_neg]
      rintro rfl
      exact hnodup.1 (mem_assignedPods_iff.2 ⟨p, hp, hpod'⟩)
  refine ⟨nodup_keys_dictSet hinv.nodes_nodup _ _, hnodup.2, ?_, fun pod' => ?_, fun p hp => ?_⟩
  · rw [SchedulingState.unassign, keys_dictErase]
    exact hinv.priorities_nodup.erase pod
  · rw [SchedulingState.unassign, keys_dictErase, hinv.priorities_nodup.mem_erase_iff,
      hinv.mem_priorities_iff, ← hperm.mem_iff, List.mem_cons]
    constructor
    · rintro ⟨hne, rfl | hmem⟩
      · exact absurd rfl hne
      · exact hmem
    · intro hmem
      refine ⟨?_, .inr hmem⟩
      rintro rfl
      exact hnodup.1 hmem
  · rw [hkeep p hp]
    rcases eq_or_mem_of_mem_dictSet hp with rfl | hp
    · have hpods : (node, s.podsOn node) ∈ s.podsPerNode := by
        unfold SchedulingState.podsOn at hpod ⊢
        cases hget : dictGet s.podsPerNode node with
        | none => rw [hget] at hpod; cases hpod
        | some pods => exact (dictGet_eq_some_iff hinv.nodes_nodup).1 hget
      exact (hinv.decreasing _ hpods).sublist (List.erase_sublist.filterMap _)
    · exact hinv.decreasing p hp

/-- The pods that are left on nodes. -/
theorem Assigned.mem_assignedPods_unassign (hinv : Assigned s) (hpod : pod ∈ s.podsOn node)
    {pod' : String} (h : pod' ∈ (s.unassign pod node).assignedPods) :
    pod' ∈ s.assignedPods ∧ pod' ≠ pod := by
  have hperm := perm_assignedPods_unassign hpod
  refine ⟨hperm.mem_iff.1 (List.mem_cons_of_mem pod h), ?_⟩
  rintro rfl
  exact (List.nodup_cons.1 (hperm.nodup_iff.2 hinv.pods_nodup)).1 h

/-- **All that scheduling a pod can do**: it raises if the pod is on a node, and else puts it on
one. -/
theorem Assigned.scheduleOnNode (hinv : Assigned s) (pod node : String) :
    (∃ assigned, s.getNodeForScheduledPod pod = some assigned ∧ scheduleOnNode pod node s =
      (.error (.exception s!"[Scheduler] Pod {pod} is already assigned to node {assigned}"), s)) ∨
    pod ∉ s.assignedPods ∧ ∃ priority,
      scheduleOnNode pod node s = (.ok (), s.assign pod node priority) ∧
        Assigned (s.assign pod node priority) := by
  obtain ⟨priority, hpriority, hlower⟩ := hinv.exists_priority node
  rw [Perf.scheduleOnNode, bind_of_ok hpriority, addPodToScheduleState, get_bind]
  cases hnode : s.getNodeForScheduledPod pod with
  | some assigned => exact .inl ⟨assigned, rfl, rfl⟩
  | none =>
    have hpod := getNodeForScheduledPod_eq_none_iff.1 hnode
    exact .inr ⟨hpod, priority, rfl, hinv.assign hpod hlower⟩

/-- **All that removing a pod can do**: it is taken from its node, if it is on one. -/
theorem Assigned.removePodFromScheduleState (hinv : Assigned s) (pod : String) :
    (pod ∉ s.assignedPods ∧ removePodFromScheduleState pod s = (.ok (), s)) ∨
    ∃ node, pod ∈ s.podsOn node ∧
      removePodFromScheduleState pod s = (.ok (), s.unassign pod node) := by
  rw [Perf.removePodFromScheduleState, get_bind]
  dsimp only
  by_cases hpod : pod ∈ s.assignedPods
  · obtain ⟨⟨node, pods⟩, hmem, hpods⟩ := mem_assignedPods_iff.1 hpod
    have hfound : s.podsPerNode.filter (fun p => pod ∈ p.2) = [(node, pods)] := by
      obtain ⟨l, l', hsplit⟩ := List.append_of_mem hmem
      have hnodup := hinv.pods_nodup
      rw [SchedulingState.assignedPods, hsplit, List.flatMap_append, List.flatMap_cons,
        List.nodup_append, List.nodup_append] at hnodup
      obtain ⟨-, ⟨-, -, hafter⟩, hbefore⟩ := hnodup
      have hl : l.filter (fun p => pod ∈ p.2) = [] := List.filter_eq_nil_iff.2 fun p hp h =>
        hbefore pod (List.mem_flatMap.2 ⟨p, hp, of_decide_eq_true h⟩) pod
          (List.mem_append_left _ hpods) rfl
      have hl' : l'.filter (fun p => pod ∈ p.2) = [] := List.filter_eq_nil_iff.2 fun p hp h =>
        hafter pod hpods pod (List.mem_flatMap.2 ⟨p, hp, of_decide_eq_true h⟩) rfl
      have hself : decide (pod ∈ (node, pods).2) = true := decide_eq_true hpods
      rw [hsplit, List.filter_append, hl, List.filter_cons, if_pos hself, hl']
      rfl
    have hget : dictGet s.podsPerNode node = some pods :=
      (dictGet_eq_some_iff hinv.nodes_nodup).2 hmem
    have hon : s.podsOn node = pods := by rw [SchedulingState.podsOn, hget]; rfl
    refine .inr ⟨node, hon ▸ hpods, ?_⟩
    rw [hfound, List.getLast?_singleton]
    have hcount : ¬ [(node, pods)].length > 1 := Nat.lt_irrefl 1
    dsimp only
    rw [if_neg hcount, modify_bind, deletePriority, get_bind,
      if_pos ((hinv.mem_priorities_iff pod).2 hpod), ← hon]
    rfl
  · have hfound : s.podsPerNode.filter (fun p => pod ∈ p.2) = [] :=
      List.filter_eq_nil_iff.2 fun p hp h =>
        hpod (mem_assignedPods_iff.2 ⟨p, hp, of_decide_eq_true h⟩)
    rw [hfound]
    exact .inl ⟨hpod, rfl⟩

theorem assigned_init (workQueue : List String) : Assigned (.init workQueue) := by
  refine ⟨List.nodup_nil, List.nodup_nil, List.nodup_nil, fun pod => Iff.rfl, ?_⟩
  rintro p ⟨⟩

/-- Every call keeps the assignments consistent. -/
theorem Assigned.step (hinv : Assigned s) {call : AssignmentCall}
    (h : assignmentStep s call = some s') : Assigned s' := by
  obtain rfl := Option.some.inj h
  cases call with
  | schedule pod node =>
    rcases hinv.scheduleOnNode pod node with ⟨assigned, -, he⟩ | ⟨-, priority, he, hassigned⟩
    · rw [AssignmentCall.exec, he]
      exact hinv
    · rw [AssignmentCall.exec, he]
      exact hassigned
  | remove pod =>
    rcases hinv.removePodFromScheduleState pod with ⟨-, he⟩ | ⟨node, hpod, he⟩
    · rw [AssignmentCall.exec, he]
      exact hinv
    · rw [AssignmentCall.exec, he]
      exact hinv.unassign hpod

/-- No node is forgotten. -/
theorem Assigned.keys_subset (hinv : Assigned s) {call : AssignmentCall}
    (h : assignmentStep s call = some s') :
    s.podsPerNode.map Prod.fst ⊆ s'.podsPerNode.map Prod.fst := by
  obtain rfl := Option.some.inj h
  cases call with
  | schedule pod node =>
    rcases hinv.scheduleOnNode pod node with ⟨assigned, -, he⟩ | ⟨-, priority, he, -⟩
    · rw [AssignmentCall.exec, he]
      exact List.Subset.refl _
    · rw [AssignmentCall.exec, he]
      exact keys_subset_keys_dictSet _ _ _
  | remove pod =>
    rcases hinv.removePodFromScheduleState pod with ⟨-, he⟩ | ⟨node, -, he⟩
    · rw [AssignmentCall.exec, he]
      exact List.Subset.refl _
    · rw [AssignmentCall.exec, he]
      exact keys_subset_keys_dictSet _ _ _

/-- **The assignments after any calls**: a pod is on one node at most and once, the pods on nodes are
those with a priority, priorities fall along every node, and a call raises only if it schedules a pod
that is on a node. -/
theorem nodeAssignment_run {workQueue : List String} {calls : List AssignmentCall}
    (h : Transition.run assignmentStep (.init workQueue) calls = some s) :
    (∀ pod, (s.podsPerNode.map fun p => p.2.count pod).sum ≤ 1) ∧
      (∀ pod, pod ∈ s.podsPriorities.map Prod.fst ↔ ∃ p ∈ s.podsPerNode, pod ∈ p.2) ∧
      (∀ p ∈ s.podsPerNode, (p.2.filterMap (dictGet s.podsPriorities)).Pairwise (· > ·)) ∧
      ∀ call e, (AssignmentCall.exec call s).1 = .error e → ∃ pod node assigned,
        call = .schedule pod node ∧ s.getNodeForScheduledPod pod = some assigned ∧
          e = .exception s!"[Scheduler] Pod {pod} is already assigned to node {assigned}" := by
  have hinv : Assigned s := Transition.invariant_of_run
    (fun _ _ _ hs hstep => hs.step hstep) (assigned_init workQueue) h
  refine ⟨fun pod => ?_, fun pod => ?_, hinv.decreasing, fun call e he => ?_⟩
  · have hcount := List.nodup_iff_count_le_one.1 hinv.pods_nodup pod
    rwa [SchedulingState.assignedPods, List.count_flatMap] at hcount
  · exact (hinv.mem_priorities_iff pod).trans mem_assignedPods_iff
  · cases call with
    | schedule pod node =>
      rcases hinv.scheduleOnNode pod node with ⟨assigned, hnode, hraise⟩ | ⟨-, priority, hok, -⟩
      · rw [AssignmentCall.exec, hraise] at he
        exact ⟨pod, node, assigned, rfl, hnode, (Except.error.inj he).symm⟩
      · rw [AssignmentCall.exec, hok] at he
        cases he
    | remove pod =>
      rcases hinv.removePodFromScheduleState pod with ⟨-, hok⟩ | ⟨node, -, hok⟩
      · rw [AssignmentCall.exec, hok] at he
        cases he
      · rw [AssignmentCall.exec, hok] at he
        cases he

/-- Two pods on a node, of which the first leaves and comes back. -/
def twoPodsCalls : List AssignmentCall :=
  [.schedule "a" "node", .schedule "b" "node", .schedule "a" "other", .remove "a",
    .schedule "a" "node"]

/-- The state after these calls. -/
def twoPods : SchedulingState :=
  ⟨[], [], [("node", ["b", "a"])], [("b", 9999), ("a", 9998)], [], none⟩

theorem nodeAssignment_run_twoPods :
    Transition.run assignmentStep (.init []) twoPodsCalls = some twoPods ∧
      ∀ pod, (twoPods.podsPerNode.map fun p => p.2.count pod).sum ≤ 1 := by
  have hrun : Transition.run assignmentStep (.init []) twoPodsCalls = some twoPods := by
    decide +kernel
  exact ⟨hrun, (nodeAssignment_run hrun).1⟩

end Perf

end Svoe
