import Svoe.Perf.SchedulingState

/-!
# The work queue

The scheduler's thread takes pods from the work queue in `pop_or_wait_work_queue`, the done
callbacks put them back or file them as done in `reschedule_or_complete`.  Both take the global
lock, so that they are sequences of steps: a thread can be interrupted at every operation on the
lock, at `locked()`, and where it waits.  `remove_pod_from_schedule_state` is two steps, since the
dictionary that it goes through may get another node meanwhile.

* `popStep_spec` : what the scheduler's thread can do in one step.
* `Assigned.rescheduleMove` : a callback's step keeps the assignment of pods to nodes.
-/

namespace Svoe

namespace Perf

open Raising

/-- `MAX_RESCHEDULES`. -/
def MAX_RESCHEDULES : ℕ := 1

/-- `global_lock.acquire()` returns: the lock is free. -/
def acquire (t : Thread) (s : SchedulingState) : Option SchedulingState :=
  if s.globalLock = none then some { s with globalLock := some t } else none

/-- `global_lock.release()`. -/
def release : Scheduling Unit := do
  let s ← get
  if s.globalLock = none then lift (.error (.runtime "release unlocked lock"))
  else modify fun s => { s with globalLock := none }

/-! ### `pop_or_wait_work_queue` -/

/-- Where the scheduler's thread is in `pop_or_wait_work_queue`. -/
inductive PopPc where
  | called
  /-- In `as_completed`, which has given some futures so far. -/
  | waiting (given : List ℕ)
  /-- Before `acquire`, with one more future. -/
  | yielded (given : List ℕ)
  /-- Behind `acquire`. -/
  | inside (given : List ℕ)
  /-- Before the `release` of the loop, and then to continue waiting, or to return `None`. -/
  | leaving (goOn : Option (List ℕ))
  /-- Before `if self.global_lock.locked()`.  The flag says whether the thread has taken the lock. -/
  | testing (podName : Option String) (entered : Bool)
  /-- Before the last `release`. -/
  | releasing (podName : Option String) (entered : Bool)
  | returned (podName : Option String)
  | raised (podName : Option String)
  deriving DecidableEq, Repr

/-- The next step of the thread is a `release`. -/
def PopPc.isReleasing : PopPc → Bool
  | .leaving _ | .releasing _ _ => true
  | .called | .waiting _ | .yielded _ | .inside _ | .testing _ _ | .returned _ | .raised _ => false

/-- `pods_work_queue.pop()`, and what is left of the queue. -/
def popWorkQueue (s : SchedulingState) : Option (String × SchedulingState) :=
  s.podsWorkQueue.getLast?.map fun podName =>
    (podName, { s with podsWorkQueue := s.podsWorkQueue.dropLast })

/-- A step of `pop_or_wait_work_queue`, if the thread does not have to wait; `next` is the future
that `as_completed` gives. -/
def popStep (isDone : ℕ → Bool) (pending : List ℕ) (next : ℕ) (s : SchedulingState) :
    PopPc → Option (SchedulingState × PopPc)
  | .called =>
    match popWorkQueue s with
    | none => some (s, .waiting [])
    | some (podName, s) => some (s, .testing (some podName) false)
  | .waiting given =>
    if ∀ f ∈ pending, f ∈ given then some (s, .testing none false)
    else if next ∈ pending ∧ next ∉ given ∧ isDone next then some (s, .yielded (next :: given))
    else none
  | .yielded given => (acquire .scheduler s).map fun s => (s, .inside given)
  | .inside given =>
    match popWorkQueue s with
    | none =>
      -- all tasks finished and no more queued
      if ∀ f ∈ pending, isDone f then some (s, .leaving none)
      -- continue waiting
      else some (s, .leaving (some given))
    -- continue scheduling
    | some (podName, s) => some (s, .testing (some podName) true)
  | .leaving goOn =>
    match release s with
    | (.ok _, s) =>
      match goOn with
      | some given => some (s, .waiting given)
      | none => some (s, .returned none)
    | (.error _, s) => some (s, .raised none)
  | .testing podName entered =>
    if s.globalLock.isSome then some (s, .releasing podName entered)
    else some (s, .returned podName)
  | .releasing podName _ =>
    match release s with
    | (.ok _, s) => some (s, .returned podName)
    | (.error _, s) => some (s, .raised podName)
  | .returned _ | .raised _ => none

/-! ### `reschedule_or_complete` -/

/-- The arguments of `reschedule_or_complete`. -/
structure Completion where
  podName : String
  reschedule : Bool
  reason : Option String
  deriving DecidableEq, Repr

/-- Where a callback is in `reschedule_or_complete`. -/
inductive ReschedulePc where
  | called
  /-- In the loop of `remove_pod_from_schedule_state`, over so many nodes. -/
  | searching (numNodes : ℕ)
  /-- Before `acquire`. -/
  | removed
  /-- Behind `acquire`. -/
  | inside
  /-- Before `release`. -/
  | decided
  | returned
  /-- `remove_pod_from_schedule_state` raised. -/
  | removeRaised
  /-- `release` raised. -/
  | releaseRaised
  deriving DecidableEq, Repr

/-- `get_reschedule_reasons`. -/
def getRescheduleReasons (s : SchedulingState) (podName : String) : List (Option String) :=
  (dictGet s.rescheduleEventsPerPod podName).getD []

/-- `inc_reschedule_counter`. -/
def incRescheduleCounter (s : SchedulingState) (podName : String) (reason : Option String) :
    SchedulingState :=
  { s with
    rescheduleEventsPerPod :=
      dictSet s.rescheduleEventsPerPod podName (getRescheduleReasons s podName ++ [reason]) }

/-- The decision of `reschedule_or_complete`: the pod is put back into the work queue. -/
def requeues (s : SchedulingState) (c : Completion) : Bool :=
  c.reschedule && (getRescheduleReasons s c.podName).length < MAX_RESCHEDULES

/-- The locked section of `reschedule_or_complete`. -/
def rescheduleOrComplete (c : Completion) (s : SchedulingState) : SchedulingState :=
  if requeues s c then
    let s := incRescheduleCounter s c.podName c.reason
    { s with podsWorkQueue := s.podsWorkQueue ++ [c.podName] }
  else { s with podsDone := s.podsDone ++ [c.podName] }

/-- A step of `reschedule_or_complete`, if the thread does not have to wait. -/
def rescheduleStep (t : Thread) (c : Completion) (s : SchedulingState) :
    ReschedulePc → Option (SchedulingState × ReschedulePc)
  | .called => some (s, .searching s.podsPerNode.length)
  | .searching numNodes =>
    -- `RuntimeError: dictionary changed size during iteration`
    if s.podsPerNode.length ≠ numNodes then some (s, .removeRaised)
    else match removePodFromScheduleState c.podName s with
      | (.ok _, s) => some (s, .removed)
      | (.error _, s) => some (s, .removeRaised)
  | .removed => (acquire t s).map fun s => (s, .inside)
  | .inside => some (rescheduleOrComplete c s, .decided)
  | .decided =>
    match release s with
    | (.ok _, s) => some (s, .returned)
    | (.error _, s) => some (s, .releaseRaised)
  | .returned | .removeRaised | .releaseRaised => none

/-! ### The lock -/

variable {s s' : SchedulingState} {t : Thread} {isDone : ℕ → Bool} {pending : List ℕ} {next : ℕ}
  {c : Completion}

theorem acquire_eq_some_iff :
    acquire t s = some s' ↔ s.globalLock = none ∧ s' = { s with globalLock := some t } := by
  unfold acquire
  split_ifs with h
  · rw [Option.some.injEq, and_iff_right h, eq_comm]
  · exact iff_of_false (fun h => by cases h) fun hs => h hs.1

theorem release_of_unlocked (h : s.globalLock = none) :
    release s = (.error (.runtime "release unlocked lock"), s) := by
  rw [release, get_bind, if_pos h]
  rfl

theorem release_of_locked (h : s.globalLock ≠ none) :
    release s = (.ok (), { s with globalLock := none }) := by
  rw [release, get_bind, if_neg h]
  rfl

/-! ### What a step does -/

/-- The pod that the thread has popped. -/
def PopPc.held : PopPc → Option String
  | .testing podName _ | .releasing podName _ | .returned podName | .raised podName => podName
  | .called | .waiting _ | .yielded _ | .inside _ | .leaving _ => none

theorem popWorkQueue_eq_none_iff : popWorkQueue s = none ↔ s.podsWorkQueue = [] := by
  rw [popWorkQueue, Option.map_eq_none_iff, List.getLast?_eq_none_iff]

theorem popWorkQueue_eq_some_iff {pod : String} :
    popWorkQueue s = some (pod, s') ↔
      ∃ queue, s.podsWorkQueue = queue ++ [pod] ∧ s' = { s with podsWorkQueue := queue } := by
  unfold popWorkQueue
  rw [Option.map_eq_some_iff]
  constructor
  · rintro ⟨pod, hlast, heq⟩
    obtain ⟨rfl, rfl⟩ := Prod.mk.inj heq
    exact ⟨_, (List.dropLast_append_getLast? pod hlast).symm, rfl⟩
  · rintro ⟨queue, hqueue, rfl⟩
    refine ⟨pod, by rw [hqueue, List.getLast?_concat], ?_⟩
    rw [hqueue, List.dropLast_concat]

/-- What a step of `pop_or_wait_work_queue` does. -/
inductive PopMove (isDone : ℕ → Bool) (pending : List ℕ) (next : ℕ) (s : SchedulingState) :
    PopPc → SchedulingState → PopPc → Prop where
  | empty (h : s.podsWorkQueue = []) : PopMove isDone pending next s .called s (.waiting [])
  | pop {queue : List String} {pod : String} (h : s.podsWorkQueue = queue ++ [pod]) :
    PopMove isDone pending next s .called { s with podsWorkQueue := queue }
      (.testing (some pod) false)
  | exhaust {given : List ℕ} (h : ∀ f ∈ pending, f ∈ given) :
    PopMove isDone pending next s (.waiting given) s (.testing none false)
  | yield {given : List ℕ} : PopMove isDone pending next s (.waiting given) s
      (.yielded (next :: given))
  | acquire {given : List ℕ} (h : s.globalLock = none) :
    PopMove isDone pending next s (.yielded given) { s with globalLock := some .scheduler }
      (.inside given)
  | finish {given : List ℕ} (h : s.podsWorkQueue = []) (hdone : ∀ f ∈ pending, isDone f) :
    PopMove isDone pending next s (.inside given) s (.leaving none)
  | goOn {given : List ℕ} (h : s.podsWorkQueue = []) :
    PopMove isDone pending next s (.inside given) s (.leaving (some given))
  | popInside {given : List ℕ} {queue : List String} {pod : String}
    (h : s.podsWorkQueue = queue ++ [pod]) :
    PopMove isDone pending next s (.inside given) { s with podsWorkQueue := queue }
      (.testing (some pod) true)
  | leave {goOn : Option (List ℕ)} (h : s.globalLock ≠ none) :
    PopMove isDone pending next s (.leaving goOn) { s with globalLock := none }
      (goOn.elim (.returned none) .waiting)
  | leaveRaised {goOn : Option (List ℕ)} (h : s.globalLock = none) :
    PopMove isDone pending next s (.leaving goOn) s (.raised none)
  | locked {podName : Option String} {entered : Bool} (h : s.globalLock ≠ none) :
    PopMove isDone pending next s (.testing podName entered) s (.releasing podName entered)
  | unlocked {podName : Option String} {entered : Bool} (h : s.globalLock = none) :
    PopMove isDone pending next s (.testing podName entered) s (.returned podName)
  | release {podName : Option String} {entered : Bool} (h : s.globalLock ≠ none) :
    PopMove isDone pending next s (.releasing podName entered) { s with globalLock := none }
      (.returned podName)
  | releaseRaised {podName : Option String} {entered : Bool} (h : s.globalLock = none) :
    PopMove isDone pending next s (.releasing podName entered) s (.raised podName)

/-- **A step of `pop_or_wait_work_queue`**. -/
theorem popMove_of_popStep {pc pc' : PopPc}
    (h : popStep isDone pending next s pc = some (s', pc')) :
    PopMove isDone pending next s pc s' pc' := by
  cases pc with
  | called =>
    rw [popStep] at h
    rcases hpop : popWorkQueue s with _ | ⟨pod, s₁⟩ <;> rw [hpop] at h
    · obtain ⟨rfl, rfl⟩ := Prod.mk.inj (Option.some.inj h)
      exact .empty (popWorkQueue_eq_none_iff.1 hpop)
    · obtain ⟨rfl, rfl⟩ := Prod.mk.inj (Option.some.inj h)
      obtain ⟨queue, hqueue, rfl⟩ := popWorkQueue_eq_some_iff.1 hpop
      exact .pop hqueue
  | waiting given =>
    rw [popStep] at h
    split_ifs at h with hgiven
    all_goals obtain ⟨rfl, rfl⟩ := Prod.mk.inj (Option.some.inj h)
    · exact .exhaust hgiven
    · exact .yield
  | yielded given =>
    obtain ⟨s₁, hacquire, heq⟩ := Option.map_eq_some_iff.1 h
    obtain ⟨rfl, rfl⟩ := Prod.mk.inj heq
    obtain ⟨hfree, rfl⟩ := acquire_eq_some_iff.1 hacquire
    exact .acquire hfree
  | inside given =>
    rw [popStep] at h
    rcases hpop : popWorkQueue s with _ | ⟨pod, s₁⟩ <;> rw [hpop] at h
    · have hempty := popWorkQueue_eq_none_iff.1 hpop
      dsimp only at h
      split_ifs at h with hdone
      all_goals obtain ⟨rfl, rfl⟩ := Prod.mk.inj (Option.some.inj h)
      · exact .finish hempty hdone
      · exact .goOn hempty
    · obtain ⟨rfl, rfl⟩ := Prod.mk.inj (Option.some.inj h)
      obtain ⟨queue, hqueue, rfl⟩ := popWorkQueue_eq_some_iff.1 hpop
      exact .popInside hqueue
  | leaving goOn =>
    rw [popStep] at h
    by_cases hlock : s.globalLock = none
    · rw [release_of_unlocked hlock] at h
      obtain ⟨rfl, rfl⟩ := Prod.mk.inj (Option.some.inj h)
      exact .leaveRaised hlock
    · rw [release_of_locked hlock] at h
      cases goOn <;> obtain ⟨rfl, rfl⟩ := Prod.mk.inj (Option.some.inj h)
      all_goals exact .leave hlock
  | testing podName entered =>
    rw [popStep] at h
    split_ifs at h with hlock
    all_goals obtain ⟨rfl, rfl⟩ := Prod.mk.inj (Option.some.inj h)
    · exact .locked (Option.isSome_iff_ne_none.1 hlock)
    · exact .unlocked (Option.not_isSome_iff_eq_none.1 hlock)
  | releasing podName entered =>
    rw [popStep] at h
    by_cases hlock : s.globalLock = none
    · rw [release_of_unlocked hlock] at h
      obtain ⟨rfl, rfl⟩ := Prod.mk.inj (Option.some.inj h)
      exact .releaseRaised hlock
    · rw [release_of_locked hlock] at h
      obtain ⟨rfl, rfl⟩ := Prod.mk.inj (Option.some.inj h)
      exact .release hlock
  | returned podName => cases h
  | raised podName => cases h

/-- Pods and the lock are all that `pop_or_wait_work_queue` changes. -/
theorem popStep_spec {pc pc' : PopPc} (h : popStep isDone pending next s pc = some (s', pc')) :
    s' = { s with podsWorkQueue := s'.podsWorkQueue, globalLock := s'.globalLock } ∧
      (s'.podsWorkQueue = s.podsWorkQueue ∧ pc'.held = pc.held ∨
        ∃ pod, s.podsWorkQueue = s'.podsWorkQueue ++ [pod] ∧ pc.held = none ∧ pc'.held = some pod) := by
  cases popMove_of_popStep h with
  | pop hqueue => exact ⟨rfl, .inr ⟨_, hqueue, rfl, rfl⟩⟩
  | popInside hqueue => exact ⟨rfl, .inr ⟨_, hqueue, rfl, rfl⟩⟩
  | @leave goOn => cases goOn <;> exact ⟨rfl, .inl ⟨rfl, rfl⟩⟩
  | _ => exact ⟨rfl, .inl ⟨rfl, rfl⟩⟩

/-- What a step of `reschedule_or_complete` does. -/
inductive RescheduleMove (t : Thread) (c : Completion) (s : SchedulingState) :
    ReschedulePc → SchedulingState → ReschedulePc → Prop where
  | call : RescheduleMove t c s .called s (.searching s.podsPerNode.length)
  | changed {numNodes : ℕ} (h : s.podsPerNode.length ≠ numNodes) :
    RescheduleMove t c s (.searching numNodes) s .removeRaised
  | absent (h : c.podName ∉ s.assignedPods) :
    RescheduleMove t c s (.searching s.podsPerNode.length) s .removed
  | remove {node : String} (h : c.podName ∈ s.podsOn node) :
    RescheduleMove t c s (.searching s.podsPerNode.length) (s.unassign c.podName node) .removed
  | acquire : RescheduleMove t c s .removed { s with globalLock := some t } .inside
  | decide : RescheduleMove t c s .inside (rescheduleOrComplete c s) .decided
  | release : RescheduleMove t c s .decided { s with globalLock := none } .returned
  | releaseRaised : RescheduleMove t c s .decided s .releaseRaised

/-- **A step of `reschedule_or_complete`**, where the assignments are consistent. -/
theorem Assigned.rescheduleMove (hinv : Assigned s) {pc pc' : ReschedulePc}
    (h : rescheduleStep t c s pc = some (s', pc')) : RescheduleMove t c s pc s' pc' := by
  cases pc with
  | called =>
    obtain ⟨rfl, rfl⟩ := Prod.mk.inj (Option.some.inj h)
    exact .call
  | searching numNodes =>
    rw [rescheduleStep] at h
    split_ifs at h with hlength
    · obtain ⟨rfl, rfl⟩ := Prod.mk.inj (Option.some.inj h)
      exact .changed hlength
    · obtain rfl := not_not.1 hlength
      rcases hinv.removePodFromScheduleState c.podName with ⟨hpod, hremove⟩ | ⟨node, hpod, hremove⟩
      · rw [hremove] at h
        obtain ⟨rfl, rfl⟩ := Prod.mk.inj (Option.some.inj h)
        exact .absent hpod
      · rw [hremove] at h
        obtain ⟨rfl, rfl⟩ := Prod.mk.inj (Option.some.inj h)
        exact .remove hpod
  | removed =>
    obtain ⟨s₁, hacquire, heq⟩ := Option.map_eq_some_iff.1 h
    obtain ⟨rfl, rfl⟩ := Prod.mk.inj heq
    obtain ⟨-, rfl⟩ := acquire_eq_some_iff.1 hacquire
    exact .acquire
  | inside =>
    obtain ⟨rfl, rfl⟩ := Prod.mk.inj (Option.some.inj h)
    exact .decide
  | decided =>
    rw [rescheduleStep] at h
    by_cases hlock : s.globalLock = none
    · rw [release_of_unlocked hlock] at h
      obtain ⟨rfl, rfl⟩ := Prod.mk.inj (Option.some.inj h)
      exact .releaseRaised
    · rw [release_of_locked hlock] at h
      obtain ⟨rfl, rfl⟩ := Prod.mk.inj (Option.some.inj h)
      exact .release
  | returned => cases h
  | removeRaised => cases h
  | releaseRaised => cases h

/-! ### Decisions -/

/-- The pod is put back or filed as done. -/
theorem count_rescheduleOrComplete (c : Completion) (s : SchedulingState) (pod : String) :
    (rescheduleOrComplete c s).podsWorkQueue.count pod +
        (rescheduleOrComplete c s).podsDone.count pod =
      s.podsWorkQueue.count pod + s.podsDone.count pod + if c.podName = pod then 1 else 0 := by
  unfold rescheduleOrComplete incRescheduleCounter
  have hone : [c.podName].count pod = if c.podName = pod then 1 else 0 := by
    simp [List.count_singleton]
  cases requeues s c
  all_goals
    simp only [Bool.false_eq_true, if_true, if_false, List.count_append, hone]
    omega

theorem podsPerNode_rescheduleOrComplete (c : Completion) (s : SchedulingState) :
    (rescheduleOrComplete c s).podsPerNode = s.podsPerNode := by
  unfold rescheduleOrComplete incRescheduleCounter
  split_ifs <;> rfl

theorem podsPriorities_rescheduleOrComplete (c : Completion) (s : SchedulingState) :
    (rescheduleOrComplete c s).podsPriorities = s.podsPriorities := by
  unfold rescheduleOrComplete incRescheduleCounter
  split_ifs <;> rfl

/-- A pod is put back only so often. -/
theorem length_getRescheduleReasons_rescheduleOrComplete (c : Completion)
    (h : ∀ pod, (getRescheduleReasons s pod).length ≤ MAX_RESCHEDULES) (pod : String) :
    (getRescheduleReasons (rescheduleOrComplete c s) pod).length ≤ MAX_RESCHEDULES := by
  unfold rescheduleOrComplete
  split_ifs with hrequeues
  · have hlt : (getRescheduleReasons s c.podName).length < MAX_RESCHEDULES := by
      unfold requeues at hrequeues
      rw [Bool.and_eq_true] at hrequeues
      exact of_decide_eq_true hrequeues.2
    unfold getRescheduleReasons incRescheduleCounter at *
    rw [dictGet_dictSet]
    split_ifs
    · rw [Option.getD_some, List.length_append]
      exact hlt
    · exact h pod
  · exact h pod

theorem requeues_congr (h : s'.rescheduleEventsPerPod = s.rescheduleEventsPerPod) :
    requeues s' c = requeues s c := by
  rw [requeues, getRescheduleReasons, h, requeues, getRescheduleReasons]

end Perf

end Svoe
