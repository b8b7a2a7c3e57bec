import Svoe.Perf.SchedulingState
import Svoe.Transition.Lock

/-!
# Marking pods for the OOM killer

The OOM handler sets high scores for a pod that has started, and low ones for the others.
`decide_pods_marking` chooses which, `handle_oom_score_adj_script_result` takes the result; a pod is
in flight in between.  Both work under the marking lock, and a call that raises, or that returns
from the middle of `decide_pods_marking`, keeps the lock.

* `oneHigh_step` : at most one pod in flight is marked high.
* `markingStep_move`, `markingStep_leak` : when a step of a call keeps the lock for good.
* `marking_of_run` : every call gives the lock back exactly if all steps meet the condition.
-/

namespace Svoe

namespace Perf

open Raising Lock

/-- `MARKED_LOW` and `MARKED_HIGH`. -/
inductive Mark where
  | low
  | high
  deriving DecidableEq, Repr

/-- `MIN_OOM_SCORE_ADJ`. -/
def MIN_OOM_SCORE_ADJ : ℤ := -997

/-- `MAX_OOM_SCORE_ADJ`. -/
def MAX_OOM_SCORE_ADJ : ℤ := 998

/-- `oom_score` and `oom_score_adj` of a process. -/
structure OomScore where
  oomScore : Option String
  oomScoreAdj : Option String
  deriving DecidableEq, Repr

/-- The scores of the processes of pods, by containers. -/
abbrev PidTable := List (String × List (String × List (String × OomScore)))

/-- `OOMHandlerClient`, with `pids_per_container_per_pod` of the scheduling state. -/
structure OomState where
  inFlightPods : List (String × Mark)
  lastMarkedHighPod : Option String
  pidsPerContainerPerPod : PidTable
  running : Bool
  /-- The call that holds `marking_lock`. -/
  markingLock : Option ℕ
  deriving DecidableEq, Repr

/-- What the script gets: `pod_container`, `score` and the node. -/
structure Marking where
  podContainer : List (String × List String)
  score : ℤ
  node : String
  deriving DecidableEq, Repr

/-- What the script gives.  It is a dictionary, so that no pod comes twice. -/
structure ScriptResult where
  items : PidTable
  nodup : (items.map Prod.fst).Nodup
  deriving DecidableEq, Repr

/-- The calls that take the marking lock. -/
inductive MarkingCall where
  | decidePodsMarking (pod : String)
  | handleOomScoreAdjScriptResult (res : ScriptResult)
  deriving DecidableEq, Repr

/-- Where a call is. -/
inductive MarkingPc where
  | called
  /-- Before `acquire`. -/
  | starting
  /-- Behind `acquire`. -/
  | inside
  /-- In the loop of `get_node_for_scheduled_pod`, over so many nodes. -/
  | searching (pod : String) (numNodes : ℕ)
  /-- The node of the pod is known. -/
  | located (pod nodeName : String)
  /-- Before `release`. -/
  | leaving (res : List Marking)
  | returned (res : List Marking)
  | raised (e : SchedulingError)
  deriving DecidableEq, Repr

/-! ### `decide_pods_marking` -/

/-- `get_containers_per_pod`. -/
def getContainersPerPod (_pod : String) : List String :=
  ["data-feed-container", "redis", "redis-exporter"]

/-- `build_oom_script_args`, with the node. -/
def buildOomScriptArgs (pod : String) (mark : Mark) (node : String) : Marking :=
  ⟨[(pod, getContainersPerPod pod)],
    if mark = .high then MAX_OOM_SCORE_ADJ else MIN_OOM_SCORE_ADJ, node⟩

/-- `last_marked_high_pod` is forgotten if it is not on the node any more. -/
def verifyLastMarkedHighPod (state : SchedulingState) (node : String) :
    Raising OomState SchedulingError Unit := do
  let s ← get
  match s.lastMarkedHighPod with
  | none => return ()
  | some last =>
    match dictGet state.podsPerNode node with
    | none => lift (.error (.key node))
    | some pods =>
      if last ∈ pods then return () else modify fun s => { s with lastMarkedHighPod := none }

/-- The pods that the script will mark, and whether the end of `decide_pods_marking`, where the lock
is released, is reached. -/
def markPods (pod node : String) (s : OomState) : OomState × MarkingPc :=
  if s.inFlightPods.length = 0 then
    let inFlightPods := dictSet s.inFlightPods pod .high
    match s.lastMarkedHighPod with
    | none =>
      ({ s with inFlightPods := inFlightPods, lastMarkedHighPod := some pod },
        .leaving [buildOomScriptArgs pod .high node])
    | some last =>
      ({ s with inFlightPods := dictSet inFlightPods last .low, lastMarkedHighPod := some pod },
        .leaving [buildOomScriptArgs pod .high node, buildOomScriptArgs last .low node])
  else if pod ∈ s.inFlightPods.map Prod.fst then (s, .returned [])
  else
    let hasHigh := s.inFlightPods.any fun p => p.2 = .high
    let mark := if hasHigh then .low else .high
    ({ s with
        inFlightPods := dictSet s.inFlightPods pod mark
        lastMarkedHighPod := if mark = .high then some pod else s.lastMarkedHighPod },
      .leaving [buildOomScriptArgs pod mark node])

/-! ### `handle_oom_score_adj_script_result` -/

/-- The scores of a process are stored. -/
def recordPid (pod container : String) (p : String × OomScore)
    (d : PidTable) : PidTable :=
  match dictGet d pod with
  | some containers =>
    match dictGet containers container with
    | some pids => dictSet d pod (dictSet containers container (dictSet pids p.1 p.2))
    | none => dictSet d pod (dictSet containers container [p])
  | none => dictSet d pod [(container, [p])]

/-- The result for a pod is stored. -/
def recordPod (p : String × List (String × List (String × OomScore))) (d : PidTable) : PidTable :=
  p.2.foldl (fun d c => c.2.foldl (fun d q => recordPid p.1 c.1 q d) d) d

/-- The result for a pod is stored, and the pod is not in flight any more. -/
def handlePod (p : String × List (String × List (String × OomScore))) :
    Raising OomState SchedulingError Unit := do
  modify fun s => { s with pidsPerContainerPerPod := recordPod p s.pidsPerContainerPerPod }
  let s ← get
  if p.1 ∈ s.inFlightPods.map Prod.fst then
    modify fun s => { s with inFlightPods := dictErase s.inFlightPods p.1 }
  else lift (.error (.key p.1))

/-- The locked section of `handle_oom_score_adj_script_result`. -/
def handlePods : PidTable → Raising OomState SchedulingError Unit
  | [] => return ()
  | p :: res => do
    handlePod p
    handlePods res

/-! ### Steps of a call -/

/-- `handle_oom_score_adj_script_result` returns at once if the client does not run. -/
def MarkingCall.returnsAtOnce (s : OomState) : MarkingCall → Bool
  | .decidePodsMarking _ => false
  | .handleOomScoreAdjScriptResult _ => !s.running

/-- A step of the call `i`, if it does not have to wait. -/
def markingStep (i : ℕ) (call : MarkingCall) (state : SchedulingState) (s : OomState) :
    MarkingPc → Option (OomState × MarkingPc)
  | .called => some (s, if call.returnsAtOnce s then .returned [] else .starting)
  | .starting =>
    if s.markingLock = none then some ({ s with markingLock := some i }, .inside) else none
  | .inside =>
    match call with
    | .decidePodsMarking pod => some (s, .searching pod state.podsPerNode.length)
    | .handleOomScoreAdjScriptResult res =>
      match handlePods res.items s with
      | (.ok _, s) => some (s, .leaving [])
      | (.error e, s) => some (s, .raised e)
  | .searching pod numNodes =>
    if state.podsPerNode.length ≠ numNodes then
      some (s, .raised (.runtime "dictionary changed size during iteration"))
    else match state.getNodeForScheduledPod pod with
      | none =>
        some (s, .raised (.value s!"[OOMHandlerClient] {pod} is not scheduled on any node"))
      | some node => some (s, .located pod node)
  | .located pod node =>
    match verifyLastMarkedHighPod state node s with
    | (.ok _, s) => some (markPods pod node s)
    | (.error e, s) => some (s, .raised e)
  | .leaving res =>
    if s.markingLock = none then some (s, .raised (.runtime "release unlocked lock"))
    else some ({ s with markingLock := none }, .returned res)
  | .returned _ | .raised _ => none

/-! ### Interleavings -/

/-- A call that runs in a thread of its own. -/
structure MarkingThread where
  call : MarkingCall
  pc : MarkingPc
  deriving DecidableEq, Repr

/-- The calls that share a client, and the assignments of pods to nodes. -/
structure MarkingSystem where
  state : SchedulingState
  oom : OomState
  threads : List MarkingThread
  deriving DecidableEq, Repr

/-- What happens next. -/
inductive MarkingAction where
  | assignment (call : AssignmentCall)
  /-- `return_loop` starts, or `stop` is called. -/
  | setRunning (running : Bool)
  | call (call : MarkingCall)
  | advance (i : ℕ)
  deriving DecidableEq, Repr

/-- A step of a call, or of its surroundings. -/
def markingSystemStep (s : MarkingSystem) : MarkingAction → Option MarkingSystem
  | .assignment call => (assignmentStep s.state call).map fun state => { s with state := state }
  | .setRunning running => some { s with oom := { s.oom with running := running } }
  | .call call => some { s with threads := s.threads ++ [⟨call, .called⟩] }
  | .advance i =>
    s.threads[i]?.bind fun th =>
      (markingStep i th.call s.state s.oom th.pc).map
        fun p => { s with oom := p.1, threads := s.threads.set i { th with pc := p.2 } }

/-- Nothing is scheduled, and nothing was called. -/
def MarkingSystem.init (workQueue : List String) : MarkingSystem :=
  ⟨.init workQueue, ⟨[], none, [], false, none⟩, []⟩

/-- The call has returned or raised. -/
def MarkingPc.isOver : MarkingPc → Bool
  | .returned _ | .raised _ => true
  | .called | .starting | .inside | .searching _ _ | .located _ _ | .leaving _ => false

/-- The call is behind its `acquire`, and it will still release the lock. -/
def MarkingPc.isInside : MarkingPc → Bool
  | .inside | .searching _ _ | .located _ _ | .leaving _ => true
  | .called | .starting | .returned _ | .raised _ => false

/-- A call that has returned or raised does not keep the lock. -/
def LeavesMarkingLock (s : MarkingSystem) : Prop :=
  ∀ i th, s.threads[i]? = some th → th.pc.isOver → s.oom.markingLock ≠ some i

/-- At most one pod in flight is marked high. -/
def OneHigh (s : OomState) : Prop := s.inFlightPods.countP (fun p => p.2 = .high) ≤ 1

/-- The pods of a result. -/
def MarkingCall.pods : MarkingCall → List String
  | .decidePodsMarking _ => []
  | .handleOomScoreAdjScriptResult res => res.items.map Prod.fst

/-- The next step of a call does not end it without a `release`. -/
def GoesOn (state : SchedulingState) (s : OomState) (call : MarkingCall) : MarkingPc → Prop
  | .inside => ∀ pod ∈ call.pods, pod ∈ s.inFlightPods.map Prod.fst
  | .searching pod numNodes =>
    state.podsPerNode.length = numNodes ∧ state.getNodeForScheduledPod pod ≠ none
  | .located pod _ => s.inFlightPods = [] ∨ pod ∉ s.inFlightPods.map Prod.fst
  | .called | .starting | .leaving _ | .returned _ | .raised _ => True

/-- The pods of a result are in flight; a pod to be marked is on a node, and in flight only if no
pod is. -/
def MarksInTurn (s : MarkingSystem) : MarkingAction → Prop
  | .advance i => ∀ th ∈ s.threads[i]?, GoesOn s.state s.oom th.call th.pc
  | .assignment _ | .setRunning _ | .call _ => True

/-! ### At most one pod is marked high -/

section Calls

variable {i : ℕ} {call : MarkingCall} {state : SchedulingState} {s s' : OomState}
  {pc pc' : MarkingPc} {pod node : String} {items : PidTable}

theorem handlePod_eq (p : String × List (String × List (String × OomScore))) (s : OomState) :
    handlePod p s =
      if p.1 ∈ s.inFlightPods.map Prod.fst then
        (.ok (), { s with
          pidsPerContainerPerPod := recordPod p s.pidsPerContainerPerPod
          inFlightPods := dictErase s.inFlightPods p.1 })
      else
        (.error (.key p.1),
          { s with pidsPerContainerPerPod := recordPod p s.pidsPerContainerPerPod }) := by
  rw [handlePod, modify_bind, get_bind]
  dsimp only
  split_ifs <;> rfl

/-- **What the result of a script can do**: it takes pods out of flight, one after the other, until
one is not in flight. -/
theorem handlePods_spec (items : PidTable) (s : OomState) :
    (handlePods items s).2.markingLock = s.markingLock ∧
      (handlePods items s).2.inFlightPods.countP (fun p => p.2 = .high) ≤
        s.inFlightPods.countP (fun p => p.2 = .high) ∧
      ((items.map Prod.fst).Nodup → ((handlePods items s).1 = .ok () ↔
        ∀ pod ∈ items.map Prod.fst, pod ∈ s.inFlightPods.map Prod.fst)) := by
  induction items generalizing s with
  | nil => exact ⟨rfl, Nat.le_refl _, fun _ => iff_of_true rfl fun _ h => by cases h⟩
  | cons p items ih =>
    have hp := handlePod_eq p s
    split_ifs at hp with hmem
    · obtain ⟨hlock, hcount, hok⟩ := ih _
      rw [handlePods, bind_of_ok hp]
      refine ⟨hlock, Nat.le_trans hcount (countP_dictErase_le _ _ _), fun hnodup => ?_⟩
      rw [List.map_cons, List.nodup_cons] at hnodup
      rw [hok hnodup.2, List.map_cons, List.forall_mem_cons, and_iff_right hmem]
      refine forall₂_congr fun pod hpod => ?_
      have hne : pod ≠ p.1 := fun heq => hnodup.1 (heq ▸ hpod)
      rw [keys_dictErase, List.mem_erase_of_ne hne]
    · rw [handlePods, bind_of_error hp]
      refine ⟨rfl, Nat.le_refl _, fun _ => iff_of_false (fun h => by cases h) fun h => ?_⟩
      exact hmem (h _ List.mem_cons_self)

theorem verifyLastMarkedHighPod_spec (state : SchedulingState) (node : String) (s : OomState) :
    (verifyLastMarkedHighPod state node s).2.markingLock = s.markingLock ∧
      (verifyLastMarkedHighPod state node s).2.inFlightPods = s.inFlightPods ∧
      (node ∈ state.podsPerNode.map Prod.fst →
        (verifyLastMarkedHighPod state node s).1 = .ok ()) := by
  rw [verifyLastMarkedHighPod, get_bind]
  cases s.lastMarkedHighPod with
  | none => exact ⟨rfl, rfl, fun _ => rfl⟩
  | some last =>
    cases hnode : dictGet state.podsPerNode node with
    | none => exact ⟨rfl, rfl, fun h => absurd h (dictGet_eq_none_iff.1 hnode)⟩
    | some pods =>
      dsimp only
      split_ifs <;> exact ⟨rfl, rfl, fun _ => rfl⟩

theorem markPods_lock (pod node : String) (s : OomState) :
    (markPods pod node s).1.markingLock = s.markingLock := by
  unfold markPods
  split_ifs
  · cases s.lastMarkedHighPod <;> rfl
  · rfl
  · rfl

/-- Another pod is marked high only if none is. -/
theorem OneHigh.markPods (hinv : OneHigh s) (pod node : String) :
    OneHigh (markPods pod node s).1 := by
  unfold Perf.markPods
  split_ifs with hempty hmem
  · have hnone : s.inFlightPods = [] := List.length_eq_zero_iff.1 hempty
    cases s.lastMarkedHighPod with
    | none => simp [OneHigh, hnone, dictSet]
    | some last =>
      refine Nat.le_trans (countP_dictSet_le _ _ _ _) ?_
      simp [hnone, dictSet]
  · exact hinv
  · refine Nat.le_trans (countP_dictSet_le _ _ _ _) ?_
    cases hhigh : s.inFlightPods.any fun p => p.2 = .high with
    | true => simpa [OneHigh] using hinv
    | false =>
      have hzero : s.inFlightPods.countP (fun p => p.2 = .high) = 0 :=
        List.countP_eq_zero.2 fun p hp => by simpa using List.any_eq_false.1 hhigh p hp
      simp [hzero]

/-- A call that handles a result leaves if all its pods are in flight, and else raises. -/
theorem markingStep_handle {res : ScriptResult}
    (h : markingStep i (.handleOomScoreAdjScriptResult res) state s .inside = some (s', pc')) :
    s' = (handlePods res.items s).2 ∧
      (pc' = .leaving [] ∧ GoesOn state s (.handleOomScoreAdjScriptResult res) .inside ∨
        pc'.isOver ∧ ¬ GoesOn state s (.handleOomScoreAdjScriptResult res) .inside) := by
  obtain ⟨-, -, hok⟩ := handlePods_spec res.items s
  have hgoesOn := hok res.nodup
  rw [markingStep] at h
  rcases hres : handlePods res.items s with ⟨e | u, s₁⟩
  · rw [hres] at h hgoesOn
    obtain ⟨rfl, rfl⟩ := Prod.mk.inj (Option.some.inj h)
    exact ⟨rfl, .inr ⟨rfl, fun hall => by cases hgoesOn.2 hall⟩⟩
  · rw [hres] at h hgoesOn
    obtain ⟨rfl, rfl⟩ := Prod.mk.inj (Option.some.inj h)
    exact ⟨rfl, .inl ⟨rfl, hgoesOn.1 rfl⟩⟩

/-- **A step of a call** marks no second pod high. -/
theorem OneHigh.markingStep (hinv : OneHigh s) (h : markingStep i call state s pc = some (s', pc')) :
    OneHigh s' := by
  cases pc with
  | called =>
    obtain ⟨rfl, rfl⟩ := Prod.mk.inj (Option.some.inj h)
    exact hinv
  | starting =>
    rw [Perf.markingStep] at h
    split_ifs at h
    obtain ⟨rfl, rfl⟩ := Prod.mk.inj (Option.some.inj h)
    exact hinv
  | inside =>
    cases call with
    | decidePodsMarking pod =>
      obtain ⟨rfl, rfl⟩ := Prod.mk.inj (Option.some.inj h)
      exact hinv
    | handleOomScoreAdjScriptResult res =>
      obtain ⟨-, hcount, -⟩ := handlePods_spec res.items s
      obtain ⟨rfl, -⟩ := markingStep_handle h
      exact Nat.le_trans hcount hinv
  | searching pod numNodes =>
    rw [Perf.markingStep] at h
    cases hnode : state.getNodeForScheduledPod pod
    all_goals
      rw [hnode] at h
      split_ifs at h
      all_goals
        obtain ⟨rfl, rfl⟩ := Prod.mk.inj (Option.some.inj h)
        exact hinv
  | located pod node =>
    obtain ⟨-, hinFlight, -⟩ := verifyLastMarkedHighPod_spec state node s
    rw [Perf.markingStep] at h
    rcases hverify : verifyLastMarkedHighPod state node s with ⟨e | u, s₁⟩
    all_goals
      rw [hverify] at h hinFlight
      have hinv₁ : OneHigh s₁ := by rwa [OneHigh, hinFlight]
    · obtain ⟨rfl, rfl⟩ := Prod.mk.inj (Option.some.inj h)
      exact hinv₁
    · obtain rfl : (Perf.markPods pod node s₁).1 = s' := congrArg Prod.fst (Option.some.inj h)
      exact hinv₁.markPods pod node
  | leaving res =>
    rw [Perf.markingStep] at h
    split_ifs at h
    all_goals
      obtain ⟨rfl, rfl⟩ := Prod.mk.inj (Option.some.inj h)
      exact hinv
  | returned res => cases h
  | raised e => cases h

/-! ### The lock -/

theorem markPods_pc (pod node : String) (s : OomState) :
    if s.inFlightPods = [] ∨ pod ∉ s.inFlightPods.map Prod.fst then
      ∃ res, (markPods pod node s).2 = .leaving res
    else (markPods pod node s).2 = .returned [] := by
  unfold markPods
  by_cases hempty : s.inFlightPods = []
  · rw [if_pos (.inl hempty), if_pos (List.length_eq_zero_iff.2 hempty)]
    cases s.lastMarkedHighPod <;> exact ⟨_, rfl⟩
  · rw [if_neg (mt List.length_eq_zero_iff.1 hempty)]
    by_cases hmem : pod ∈ s.inFlightPods.map Prod.fst
    · rw [if_neg (by rintro (h | h); exacts [hempty h, h hmem]), if_pos hmem]
    · rw [if_pos (.inr hmem), if_neg hmem]
      exact ⟨_, rfl⟩

/-- A call that has located its pod keeps the lock, and leaves or is over. -/
theorem markingStep_located {pod node : String}
    (h : markingStep i call state s (.located pod node) = some (s', pc')) :
    s'.markingLock = s.markingLock ∧
      ((∃ res, pc' = .leaving res) ∧ GoesOn state s call (.located pod node) ∨
        pc'.isOver ∧ ((verifyLastMarkedHighPod state node s).1 = .ok () →
          ¬ GoesOn state s call (.located pod node))) := by
  obtain ⟨hsame, hinFlight, -⟩ := verifyLastMarkedHighPod_spec state node s
  rw [markingStep] at h
  rcases hverify : verifyLastMarkedHighPod state node s with ⟨e | u, s₁⟩
  · rw [hverify] at h hsame
    obtain ⟨rfl, rfl⟩ := Prod.mk.inj (Option.some.inj h)
    exact ⟨hsame, .inr ⟨rfl, fun hok => by cases hok⟩⟩
  · rw [hverify] at h hsame hinFlight
    obtain ⟨rfl, rfl⟩ : (markPods pod node s₁).1 = s' ∧ (markPods pod node s₁).2 = pc' :=
      Prod.ext_iff.1 (Option.some.inj h)
    refine ⟨(markPods_lock pod node s₁).trans hsame, ?_⟩
    have hpc := markPods_pc pod node s₁
    rw [hinFlight] at hpc
    split_ifs at hpc with hgoesOn
    · exact .inl ⟨hpc, hgoesOn⟩
    · rw [hpc]
      exact .inr ⟨rfl, fun _ => hgoesOn⟩

/-- **A step that goes on** takes a free lock, gives it back, or leaves it. -/
theorem markingStep_move (hlock : s.markingLock = some i ↔ pc.isInside)
    (hnode : ∀ pod node, pc = .located pod node → node ∈ state.podsPerNode.map Prod.fst)
    (hgoesOn : GoesOn state s call pc) (h : markingStep i call state s pc = some (s', pc')) :
    Move i s.markingLock pc.isInside s'.markingLock pc'.isInside ∧
      ∀ pod node, pc' = .located pod node → node ∈ state.podsPerNode.map Prod.fst := by
  have hkeep : ∀ {lock lock' : Option ℕ} {inside inside' : Prop}, lock' = lock →
      (inside' ↔ inside) → Move i lock inside lock' inside' := by
    rintro lock _ inside inside' rfl h
    exact .keep h
  cases pc with
  | called =>
    obtain ⟨rfl, rfl⟩ := Prod.mk.inj (Option.some.inj h)
    split_ifs <;> exact ⟨.keep Iff.rfl, fun _ _ h => by cases h⟩
  | starting =>
    rw [markingStep] at h
    split_ifs at h with hfree
    obtain ⟨rfl, rfl⟩ := Prod.mk.inj (Option.some.inj h)
    rw [hfree]
    exact ⟨.acquire rfl, fun _ _ h => by cases h⟩
  | inside =>
    cases call with
    | decidePodsMarking pod =>
      obtain ⟨rfl, rfl⟩ := Prod.mk.inj (Option.some.inj h)
      exact ⟨.keep Iff.rfl, fun _ _ h => by cases h⟩
    | handleOomScoreAdjScriptResult res =>
      obtain ⟨hsame, -, -⟩ := handlePods_spec res.items s
      obtain ⟨rfl, ⟨rfl, -⟩ | ⟨-, hnot⟩⟩ := markingStep_handle h
      · exact ⟨hkeep hsame Iff.rfl, fun _ _ h => by cases h⟩
      · exact absurd hgoesOn hnot
  | searching pod numNodes =>
    obtain ⟨hlength, hscheduled⟩ := hgoesOn
    obtain ⟨node, hfind⟩ := Option.ne_none_iff_exists'.1 hscheduled
    rw [markingStep, if_neg (not_not.2 hlength), hfind] at h
    obtain ⟨rfl, rfl⟩ := Prod.mk.inj (Option.some.inj h)
    refine ⟨.keep Iff.rfl, fun pod' node' heq => ?_⟩
    obtain ⟨-, rfl⟩ := MarkingPc.located.inj heq
    obtain ⟨p, hp, rfl⟩ := Option.map_eq_some_iff.1 hfind
    exact List.mem_map_of_mem (List.mem_of_find?_eq_some hp)
  | located pod node =>
    obtain ⟨-, -, hok⟩ := verifyLastMarkedHighPod_spec state node s
    obtain ⟨hsame, ⟨⟨res, rfl⟩, -⟩ | ⟨-, hnot⟩⟩ := markingStep_located h
    · exact ⟨hkeep hsame Iff.rfl, fun _ _ h => by cases h⟩
    · exact absurd hgoesOn (hnot (hok (hnode pod node rfl)))
  | leaving res =>
    have hown : s.markingLock = some i := hlock.2 rfl
    rw [markingStep, if_neg (hown ▸ Option.some_ne_none i)] at h
    obtain ⟨rfl, rfl⟩ := Prod.mk.inj (Option.some.inj h)
    rw [hown]
    exact ⟨.release Bool.false_ne_true, fun _ _ h => by cases h⟩
  | returned res => cases h
  | raised e => cases h

/-- **A step that does not go on** ends the call, which keeps the lock. -/
theorem markingStep_leak (hgoesOn : ¬ GoesOn state s call pc)
    (h : markingStep i call state s pc = some (s', pc')) :
    pc.isInside ∧ pc'.isOver ∧ s'.markingLock = s.markingLock := by
  cases pc with
  | inside =>
    refine ⟨rfl, ?_⟩
    cases call with
    | decidePodsMarking pod => exact absurd (fun pod hpod => by cases hpod) hgoesOn
    | handleOomScoreAdjScriptResult res =>
      obtain ⟨hsame, -, -⟩ := handlePods_spec res.items s
      obtain ⟨rfl, ⟨-, hgoes⟩ | ⟨hover, -⟩⟩ := markingStep_handle h
      · exact absurd hgoes hgoesOn
      · exact ⟨hover, hsame⟩
  | searching pod numNodes =>
    refine ⟨rfl, ?_⟩
    rw [markingStep] at h
    split_ifs at h with hlength
    · obtain ⟨rfl, rfl⟩ := Prod.mk.inj (Option.some.inj h)
      exact ⟨rfl, rfl⟩
    · cases hfind : state.getNodeForScheduledPod pod with
      | none =>
        rw [hfind] at h
        obtain ⟨rfl, rfl⟩ := Prod.mk.inj (Option.some.inj h)
        exact ⟨rfl, rfl⟩
      | some node => exact absurd ⟨not_not.1 hlength, hfind ▸ Option.some_ne_none node⟩ hgoesOn
  | located pod node =>
    obtain ⟨hsame, ⟨-, hgoes⟩ | ⟨hover, -⟩⟩ := markingStep_located h
    · exact absurd hgoes hgoesOn
    · exact ⟨rfl, hover, hsame⟩
  | _ => exact absurd trivial hgoesOn

end Calls

/-! ### Runs -/

/-- The lock is with the call that will still release it, and nodes that were found stay there. -/
structure MarkingInv (s : MarkingSystem) : Prop where
  assigned : Assigned s.state
  located : ∀ (i : ℕ) th, s.threads[i]? = some th → ∀ pod node, th.pc = .located pod node →
    node ∈ s.state.podsPerNode.map Prod.fst
  heldInside : HeldInside s.oom.markingLock (InsideAt s.threads fun th => th.pc.isInside)

variable {s s' : MarkingSystem} {a : MarkingAction} {workQueue : List String}

theorem MarkingInv.init : MarkingInv (.init workQueue) := by
  refine ⟨assigned_init workQueue, fun i th hth => (by cases hth), fun i => ?_⟩
  refine iff_of_false (fun h => by cases h) ?_
  rintro ⟨th, hth, -⟩
  cases hth

/-- **A step in turn** keeps the lock with the call that will release it. -/
theorem MarkingInv.step (hinv : MarkingInv s) (hturn : MarksInTurn s a)
    (h : markingSystemStep s a = some s') : MarkingInv s' := by
  cases a with
  | assignment call =>
    rw [markingSystemStep] at h
    obtain ⟨state, hstate, rfl⟩ := Option.map_eq_some_iff.1 h
    exact ⟨hinv.assigned.step hstate, fun i th hth pod node hpc =>
      hinv.assigned.keys_subset hstate (hinv.located i th hth pod node hpc), hinv.heldInside⟩
  | setRunning running =>
    obtain rfl := Option.some.inj h
    exact ⟨hinv.assigned, hinv.located, hinv.heldInside⟩
  | call call =>
    obtain rfl := Option.some.inj h
    refine ⟨hinv.assigned, fun i th hth pod node hpc => ?_, fun i => ?_⟩
    · rcases List.mem_append.1 (List.mem_of_getElem? hth) with hmem | hmem
      · obtain ⟨j, hj⟩ := List.getElem?_of_mem hmem
        exact hinv.located j th hj pod node hpc
      · obtain rfl := List.mem_singleton.1 hmem
        cases hpc
    · exact (hinv.heldInside i).trans (insideAt_concat rfl).symm
  | advance i =>
    obtain ⟨th, hth, hmap⟩ := Option.bind_eq_some_iff.1 h
    obtain ⟨⟨oom, pc⟩, hstep, rfl⟩ := Option.map_eq_some_iff.1 hmap
    have hold : InsideAt s.threads (fun th => th.pc.isInside) i ↔ th.pc.isInside :=
      insideAt_iff hth
    have hnew : InsideAt (s.threads.set i { th with pc := pc }) (fun th => th.pc.isInside) i ↔
        pc.isInside := insideAt_set_self hth _
    obtain ⟨hmove, hlocated⟩ := markingStep_move ((hinv.heldInside i).trans hold)
      (hinv.located i th hth) (hturn th hth) hstep
    refine ⟨hinv.assigned, fun j th' hth' pod node hpc => ?_,
      hinv.heldInside.move (t := i) ?_ fun j hj => ?_⟩
    · by_cases hij : i = j
      · subst hij
        rw [List.getElem?_set_self (List.getElem?_eq_some_iff.1 hth).1] at hth'
        obtain rfl := Option.some.inj hth'
        exact hlocated pod node hpc
      · rw [List.getElem?_set_ne hij] at hth'
        exact hinv.located j th' hth' pod node hpc
    · rw [propext hold, propext hnew]
      exact hmove
    · exact insideAt_set_ne hj.symm _

/-- No call that is over has the lock. -/
theorem MarkingInv.leavesMarkingLock (hinv : MarkingInv s) : LeavesMarkingLock s := by
  intro i th hth hover hlock
  have hinside := (insideAt_iff hth).1 ((hinv.heldInside i).1 hlock)
  cases hpc : th.pc <;> simp [hpc, MarkingPc.isOver, MarkingPc.isInside] at hover hinside

/-- **A step out of turn** leaves the lock with a call that is over. -/
theorem MarkingInv.not_leavesMarkingLock (hinv : MarkingInv s) (hturn : ¬ MarksInTurn s a)
    (h : markingSystemStep s a = some s') : ¬ LeavesMarkingLock s' := by
  cases a with
  | advance i =>
    obtain ⟨th, hth, hmap⟩ := Option.bind_eq_some_iff.1 h
    obtain ⟨⟨oom, pc⟩, hstep, rfl⟩ := Option.map_eq_some_iff.1 hmap
    have hgoesOn : ¬ GoesOn s.state s.oom th.call th.pc := fun hgoesOn => hturn fun th' hth' => by
      obtain rfl := Option.some.inj (hth.symm.trans hth')
      exact hgoesOn
    obtain ⟨hinside, hover, hlock⟩ := markingStep_leak hgoesOn hstep
    intro hleaves
    refine hleaves i { th with pc := pc } ?_ hover (hlock.trans ?_)
    · exact List.getElem?_set_self (List.getElem?_eq_some_iff.1 hth).1
    · exact (hinv.heldInside i).2 ((insideAt_iff hth).2 hinside)
  | _ => exact absurd trivial hturn

/-- A step marks no second pod high. -/
theorem oneHigh_step (hinv : OneHigh s.oom) (h : markingSystemStep s a = some s') :
    OneHigh s'.oom := by
  cases a with
  | assignment call =>
    rw [markingSystemStep] at h
    obtain ⟨state, -, rfl⟩ := Option.map_eq_some_iff.1 h
    exact hinv
  | setRunning running =>
    obtain rfl := Option.some.inj h
    exact hinv
  | call call =>
    obtain rfl := Option.some.inj h
    exact hinv
  | advance i =>
    obtain ⟨th, -, hmap⟩ := Option.bind_eq_some_iff.1 h
    obtain ⟨⟨oom, pc⟩, hstep, rfl⟩ := Option.map_eq_some_iff.1 hmap
    exact hinv.markingStep hstep

/-- **The marking protocol**: at most one pod in flight is marked high after any steps of any calls,
and every call that is over has given the lock back exactly if all steps are in turn. -/
theorem marking_of_run {as : List MarkingAction}
    (h : Transition.run markingSystemStep (.init workQueue) as = some s) :
    OneHigh s.oom ∧ (Transition.AllStates markingSystemStep LeavesMarkingLock (.init workQueue) as ↔
      Transition.AllSteps markingSystemStep MarksInTurn (.init workQueue) as) := by
  have hinit : MarkingInv (.init workQueue) := .init
  have hnone : OneHigh (MarkingSystem.init workQueue).oom := Nat.zero_le 1
  refine ⟨Transition.invariant_of_run (I := fun s => OneHigh s.oom)
    (fun _ _ _ hinv hstep => oneHigh_step hinv hstep) hnone h, ?_⟩
  refine Transition.allStates_iff_allSteps (fun s a s' hinv _ hstep => ?_) hinit
    hinit.leavesMarkingLock h
  by_cases hturn : MarksInTurn s a
  · have hinv' := hinv.step hturn hstep
    exact ⟨fun _ => hinv', iff_of_true hinv'.leavesMarkingLock hturn⟩
  · have hleak := hinv.not_leavesMarkingLock hturn hstep
    exact ⟨fun hleaves => absurd hleaves hleak, iff_of_false hleak hturn⟩

/-- A pod that is on no node is to be marked, and then one that is. -/
def marksUnscheduled : List MarkingAction :=
  [.assignment (.schedule "a" "node"), .call (.decidePodsMarking "b"), .advance 0, .advance 0,
    .advance 0, .advance 0, .call (.decidePodsMarking "a"), .advance 1]

/-- The first call raises and keeps the lock, and the second one waits for it. -/
theorem not_leavesMarkingLock_marksUnscheduled :
    (∃ s, Transition.run markingSystemStep (.init ["a", "b"]) marksUnscheduled = some s ∧
      ¬ LeavesMarkingLock s ∧ markingSystemStep s (.advance 1) = none) := by
  refine ⟨_, rfl, fun h => ?_, by decide +kernel⟩
  exact h 0 _ rfl (by decide +kernel) rfl

/-- Two pods of a node are marked, one after the other. -/
def marksTwo : List MarkingAction :=
  [.assignment (.schedule "a" "node"), .assignment (.schedule "b" "node"),
    .call (.decidePodsMarking "a"), .advance 0, .advance 0, .advance 0, .advance 0, .advance 0,
    .advance 0, .call (.decidePodsMarking "b"), .advance 1, .advance 1, .advance 1, .advance 1,
    .advance 1, .advance 1]

/-- The state after these calls. -/
def markedTwo : MarkingSystem :=
  ⟨⟨["a", "b"], [], [("node", ["a", "b"])], [("a", 10000), ("b", 9999)], [], none⟩,
    ⟨[("a", .high), ("b", .low)], some "a", [], false, none⟩,
    [⟨.decidePodsMarking "a", .returned [buildOomScriptArgs "a" .high "node"]⟩,
      ⟨.decidePodsMarking "b", .returned [buildOomScriptArgs "b" .low "node"]⟩]⟩

theorem marking_of_run_marksTwo : OneHigh markedTwo.oom ∧
    (Transition.AllStates markingSystemStep LeavesMarkingLock (.init ["a", "b"]) marksTwo ↔
      Transition.AllSteps markingSystemStep MarksInTurn (.init ["a", "b"]) marksTwo) :=
  marking_of_run (s := markedTwo) (by decide +kernel)

end Perf

end Svoe
