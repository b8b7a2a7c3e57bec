import Mathlib.Algebra.Order.Field.Rat
import Svoe.Common.Dict
import Svoe.Common.Frame
import Svoe.Transition.Raising

/-!
# Counting failed probes

`PodKubeEventsLog.update_state` logs the kubernetes events about pods.  For the events with the
reason `Unhealthy` it counts the failed probes per pod, container and type of probe; the estimation
of a pod is interrupted when these counts get too high.  The counters of a pod are set up for the
container of its first unhealthy event only.

* `countsInv_logAll` : what the counters hold after any events.
* `reported_iff` : an event is reported with its count exactly if it is about the counted container.
* `probesCounted_iff` : when all unhealthy events are reported with the right count.
-/

namespace Svoe

namespace Perf

open Raising

/-! ### Events -/

/-- `KubeRawEvent`, an event of the kubernetes API. -/
structure KubeRawEvent where
  type : String
  objectKind : String
  objectReason : Option String
  objectMessage : String
  objectCount : Option ℕ
  involvedObjectKind : String
  involvedObjectName : String
  involvedObjectFieldPath : Option String
  objectLastTimestamp : Option ℚ
  deriving DecidableEq, Repr

/-- `RawEvent`: one of the kubernetes API, or of another class with the given name. -/
inductive RawEvent where
  | kube (event : KubeRawEvent)
  | other (className : String)
  deriving DecidableEq, Repr

/-- `CONTAINER_EVENT` and `POD_EVENT` of `PodKubeLoggedEvent`. -/
inductive KubeEventType where
  | containerEvent
  | podEvent
  deriving DecidableEq, Repr

/-- `PodKubeLoggedEvent`, with the items of `data` as fields. -/
structure PodKubeLoggedEvent where
  type : KubeEventType
  podName : String
  containerName : Option String
  reason : Option String
  count : Option ℕ
  message : String
  clusterTime : Option ℚ
  rawEvent : KubeRawEvent
  deriving DecidableEq, Repr

/-- The probes of a container. -/
inductive Probe where
  | startup
  | liveness
  | readiness
  deriving DecidableEq, Repr

/-- The reason that a failed probe is logged with. -/
def Probe.reason : Probe → String
  | .startup => "UnhealthyStartup"
  | .liveness => "UnhealthyLiveness"
  | .readiness => "UnhealthyReadiness"

/-- `{'startup': _, 'liveness': _, 'readiness': _}`. -/
structure ProbeCounts where
  startup : ℕ
  liveness : ℕ
  readiness : ℕ
  deriving DecidableEq, Repr

/-- The count of a probe. -/
def ProbeCounts.count (counts : ProbeCounts) : Probe → ℕ
  | .startup => counts.startup
  | .liveness => counts.liveness
  | .readiness => counts.readiness

/-- Change the count of a probe. -/
def ProbeCounts.setCount (counts : ProbeCounts) (count : ℕ) : Probe → ProbeCounts
  | .startup => { counts with startup := count }
  | .liveness => { counts with liveness := count }
  | .readiness => { counts with readiness := count }

theorem ProbeCounts.ext_count {c c' : ProbeCounts}
    (h : ∀ probe, c.count probe = c'.count probe) : c = c' := by
  have hs : c.startup = c'.startup := h .startup
  have hl : c.liveness = c'.liveness := h .liveness
  have hr : c.readiness = c'.readiness := h .readiness
  cases c
  cases c'
  simp_all

@[simp] theorem ProbeCounts.count_setCount (counts : ProbeCounts) (n : ℕ) (probe probe' : Probe) :
    (counts.setCount n probe).count probe' = if probe' = probe then n else counts.count probe' := by
  cases probe <;> cases probe' <;> rfl

/-- The type of the probe, by the beginning of the message. -/
def probeOf (message : String) : Option Probe :=
  if "Startup".toList.isPrefixOf message.toList then some .startup
  else if "Liveness".toList.isPrefixOf message.toList then some .liveness
  else if "Readiness".toList.isPrefixOf message.toList then some .readiness
  else none

/-- `str.split(sep)`, behind so many more characters of a separator. -/
def splitAtSep (sep : List Char) : ℕ → List Char → List (List Char)
  | _, [] => [[]]
  | skip + 1, _ :: cs => splitAtSep sep skip cs
  | 0, c :: cs =>
    if sep.isPrefixOf (c :: cs) then [] :: splitAtSep sep (sep.length - 1) cs
    else (splitAtSep sep 0 cs).modifyHead (c :: ·)

/-- The container that a field path names: `split('spec.containers')[1][1:-1]`. -/
def containerOf (fieldPath : Option String) : Except PyError (Option String) :=
  match fieldPath with
  | none => .ok none
  | some path =>
    if path = "" then .ok none
    else
      match (splitAtSep "spec.containers".toList 0 path.toList)[1]? with
      | none => .error .index
      | some split => .ok (some (String.ofList split.tail.dropLast))

example : containerOf (some "spec.containers{data-feed-container}") =
    .ok (some "data-feed-container") := by
  decide +kernel

/-! ### The log -/

/-- `PodKubeEventsLog`.  `called` are the events that the callbacks have got. -/
structure PodKubeEventsLog where
  unhealthyCount : List (String × List (Option String × ProbeCounts))
  podEventQueues : List (String × List PodKubeLoggedEvent)
  called : List PodKubeLoggedEvent
  deriving DecidableEq, Repr

/-- `__init__`. -/
def PodKubeEventsLog.initial : PodKubeEventsLog := ⟨[], [], []⟩

/-- `_log_event_and_callback`. -/
def logEventAndCallback (event : PodKubeLoggedEvent) (s : PodKubeEventsLog) : PodKubeEventsLog :=
  let queue := (dictGet s.podEventQueues event.podName).getD []
  { s with
    podEventQueues := dictSet s.podEventQueues event.podName (queue ++ [event])
    called := s.called ++ [event] }

/-- The checks of `update_state`; `none` is the return for `DELETED`. -/
def checkEvent : RawEvent → Except PyError (Option KubeRawEvent)
  | .other className => .error (.value ("Unsupported raw_event class: " ++ className))
  | .kube event =>
    if event.involvedObjectKind ≠ "Pod" then
      .error (.value ("Unsupported involved_object_kind: " ++ event.involvedObjectKind))
    else if event.type ∉ ["ADDED", "MODIFIED", "DELETED"] then
      .error (.value ("Unknown raw_event.type: " ++ event.type))
    else if event.objectKind ≠ "Event" then
      .error (.value ("Unknown raw_event.kind: " ++ event.type))
    else if event.type ∉ ["ADDED", "MODIFIED"] then .ok none
    else .ok (some event)

/-- The counters of a pod, set up for one container if there are none. -/
def setUpCounters (podName : String) (containerName : Option String) (s : PodKubeEventsLog) :
    PodKubeEventsLog :=
  if dictGet s.unhealthyCount podName = none then
    { s with unhealthyCount := dictSet s.unhealthyCount podName [(containerName, ⟨0, 0, 0⟩)] }
  else s

/-- The case of `Unhealthy`: the reason and the count to log. -/
def countUnhealthy (podName : String) (containerName : Option String) (message : String) :
    Raising PodKubeEventsLog PyError (String × ℕ) := do
  modify (setUpCounters podName containerName)
  let s ← get
  let perContainer := (dictGet s.unhealthyCount podName).getD []
  match dictGet perContainer containerName with
  | none => lift (.error (.key (containerName.getD "None")))
  | some counts =>
    match probeOf message with
    | none => lift (.error (.value ("Unknown Unhealthy message: " ++ message)))
    | some probe => do
      let count := counts.count probe + 1
      modify fun s =>
        { s with
          unhealthyCount := dictSet s.unhealthyCount podName
            (dictSet perContainer containerName (counts.setCount count probe)) }
      return (probe.reason, count)

/-- The event that is logged. -/
def loggedEvent (event : KubeRawEvent) (containerName : Option String)
    (data : Option String × Option ℕ) : PodKubeLoggedEvent where
  type := if containerName = none ∨ containerName = some "" then .podEvent else .containerEvent
  podName := event.involvedObjectName
  containerName := containerName
  reason := data.1
  count := data.2
  message := event.objectMessage
  clusterTime := event.objectLastTimestamp
  rawEvent := event

/-- `update_state`. -/
def updateState (rawEvent : RawEvent) : Raising PodKubeEventsLog PyError Unit := do
  match ← lift (checkEvent rawEvent) with
  | none => return ()
  | some event =>
    let containerName ← lift (containerOf event.involvedObjectFieldPath)
    let data ←
      if event.objectReason = some "Unhealthy" then do
        let (reason, count) ←
          countUnhealthy event.involvedObjectName containerName event.objectMessage
        pure (some reason, some count)
      else pure (event.objectReason, event.objectCount)
    modify (logEventAndCallback (loggedEvent event containerName data))

/-- The log after some events, whether they raised or not. -/
def logAll (events : List RawEvent) : PodKubeEventsLog :=
  events.foldl (fun s event => (updateState event s).2) .initial

/-! ### Unhealthy events -/

/-- An event that comes to the counters. -/
structure UnhealthyEvent where
  podName : String
  containerName : Option String
  message : String
  deriving DecidableEq, Repr

/-- The event `ADDED` or `MODIFIED` about an unhealthy container, if it is one. -/
def unhealthyEvent (rawEvent : RawEvent) : Option UnhealthyEvent :=
  match checkEvent rawEvent with
  | .ok (some event) =>
    if event.objectReason = some "Unhealthy" then
      match containerOf event.involvedObjectFieldPath with
      | .ok containerName => some ⟨event.involvedObjectName, containerName, event.objectMessage⟩
      | .error _ => none
    else none
  | _ => none

/-- The number of the events about failed probes of one type. -/
def probesFailed (us : List UnhealthyEvent) (podName : String) (containerName : Option String)
    (probe : Probe) : ℕ :=
  us.countP fun u =>
    u.podName = podName ∧ u.containerName = containerName ∧ probeOf u.message = some probe

/-- The numbers of the events about one container. -/
def countsOf (us : List UnhealthyEvent) (podName : String) (containerName : Option String) :
    ProbeCounts :=
  ⟨probesFailed us podName containerName .startup, probesFailed us podName containerName .liveness,
    probesFailed us podName containerName .readiness⟩

/-- The first event about a pod. -/
def firstOf (us : List UnhealthyEvent) (podName : String) : Option UnhealthyEvent :=
  us.find? fun u => u.podName = podName

/-- What the counters hold: the numbers of one container of each pod, that of its first event. -/
def CountsInv (us : List UnhealthyEvent) (s : PodKubeEventsLog) : Prop :=
  ∀ podName, dictGet s.unhealthyCount podName =
    (firstOf us podName).map fun u => [(u.containerName, countsOf us podName u.containerName)]

variable {us : List UnhealthyEvent} {u u₀ : UnhealthyEvent} {s : PodKubeEventsLog}
  {rawEvent : RawEvent} {probe : Probe}

@[simp] theorem count_countsOf (us : List UnhealthyEvent) (podName : String)
    (containerName : Option String) (probe : Probe) :
    (countsOf us podName containerName).count probe =
      probesFailed us podName containerName probe := by
  cases probe <;> rfl

theorem probesFailed_append (us : List UnhealthyEvent) (u : UnhealthyEvent) (podName : String)
    (containerName : Option String) (probe : Probe) :
    probesFailed (us ++ [u]) podName containerName probe =
      probesFailed us podName containerName probe +
        if u.podName = podName ∧ u.containerName = containerName ∧ probeOf u.message = some probe
        then 1 else 0 := by
  simp [probesFailed, List.countP_append, List.countP_singleton]

/-- An event about another container does not change the numbers. -/
theorem countsOf_append_of_ne {podName : String} {containerName : Option String}
    (h : ¬ (u.podName = podName ∧ u.containerName = containerName ∧
      (probeOf u.message).isSome)) :
    countsOf (us ++ [u]) podName containerName = countsOf us podName containerName := by
  refine ProbeCounts.ext_count fun probe => ?_
  rw [count_countsOf, count_countsOf, probesFailed_append, if_neg, Nat.add_zero]
  rintro ⟨hpod, hcontainer, hprobe⟩
  exact h ⟨hpod, hcontainer, by rw [hprobe]; rfl⟩

/-- A failed probe is counted. -/
theorem countsOf_append_of_probe (h : probeOf u.message = some probe) :
    countsOf (us ++ [u]) u.podName u.containerName =
      (countsOf us u.podName u.containerName).setCount
        (probesFailed us u.podName u.containerName probe + 1) probe := by
  refine ProbeCounts.ext_count fun probe' => ?_
  rw [ProbeCounts.count_setCount, count_countsOf, count_countsOf, probesFailed_append, h]
  by_cases hprobe : probe' = probe
  · subst hprobe
    simp
  · simp [hprobe, Ne.symm hprobe]

/-- No numbers before the first event about a pod. -/
theorem countsOf_of_firstOf_eq_none {podName : String} (h : firstOf us podName = none)
    (containerName : Option String) : countsOf us podName containerName = ⟨0, 0, 0⟩ := by
  have hzero : ∀ probe, probesFailed us podName containerName probe = 0 := by
    intro probe
    refine List.countP_eq_zero.2 fun u hu hp => ?_
    have hne := List.find?_eq_none.1 h u hu
    exact hne (by simpa using (of_decide_eq_true hp).1)
  exact ProbeCounts.ext_count fun probe => by
    rw [count_countsOf, hzero]
    cases probe <;> rfl

theorem firstOf_append (us : List UnhealthyEvent) (u : UnhealthyEvent) (podName : String) :
    firstOf (us ++ [u]) podName =
      (firstOf us podName).or (if u.podName = podName then some u else none) := by
  rw [firstOf, List.find?_append, ← firstOf]
  by_cases h : u.podName = podName <;> simp [h]

/-! ### The counters -/

/-- The counters are set up for the first event about the pod. -/
theorem dictGet_setUpCounters (h : CountsInv us s) (u : UnhealthyEvent) (podName : String) :
    dictGet (setUpCounters u.podName u.containerName s).unhealthyCount podName =
      (firstOf (us ++ [u]) podName).map fun u₀ =>
        [(u₀.containerName, countsOf us podName u₀.containerName)] := by
  rw [firstOf_append, setUpCounters]
  by_cases hnone : dictGet s.unhealthyCount u.podName = none
  · have hfirst : firstOf us u.podName = none := by
      rw [h u.podName, Option.map_eq_none_iff] at hnone
      exact hnone
    rw [if_pos hnone, dictGet_dictSet]
    by_cases hpod : u.podName = podName
    · subst hpod
      simp [hfirst, countsOf_of_firstOf_eq_none hfirst]
    · rw [if_neg hpod, if_neg hpod, h podName, Option.or_none]
  · rw [if_neg hnone, h podName]
    by_cases hpod : u.podName = podName
    · subst hpod
      rw [h u.podName, Option.map_eq_none_iff] at hnone
      obtain ⟨u₀, hu₀⟩ := Option.ne_none_iff_exists'.1 hnone
      rw [hu₀]
      rfl
    · rw [if_neg hpod, Option.or_none]

/-- An event that is not counted leaves the counters as they were set up. -/
theorem countsInv_setUpCounters (h : CountsInv us s)
    (hfirst : firstOf (us ++ [u]) u.podName = some u₀)
    (hskip : u₀.containerName = u.containerName → probeOf u.message = none) :
    CountsInv (us ++ [u]) (setUpCounters u.podName u.containerName s) := by
  intro podName
  rw [dictGet_setUpCounters h]
  refine Option.map_congr fun u₁ hu₁ => ?_
  rw [countsOf_append_of_ne]
  rintro ⟨rfl, hcontainer, hprobe⟩
  obtain rfl : u₀ = u₁ := Option.some.inj (hfirst.symm.trans hu₁)
  rw [hskip hcontainer.symm] at hprobe
  cases hprobe

/-- An event of another container than the first one raises. -/
theorem countUnhealthy_of_ne (h : CountsInv us s)
    (hfirst : firstOf (us ++ [u]) u.podName = some u₀)
    (hne : u₀.containerName ≠ u.containerName) :
    countUnhealthy u.podName u.containerName u.message s =
      (.error (.key (u.containerName.getD "None")),
        setUpCounters u.podName u.containerName s) := by
  rw [countUnhealthy, modify_bind, get_bind, dictGet_setUpCounters h, hfirst]
  simp [dictGet, hne, lift]

/-- An unknown message raises. -/
theorem countUnhealthy_of_message (h : CountsInv us s)
    (hfirst : firstOf (us ++ [u]) u.podName = some u₀)
    (hcontainer : u₀.containerName = u.containerName) (hprobe : probeOf u.message = none) :
    countUnhealthy u.podName u.containerName u.message s =
      (.error (.value ("Unknown Unhealthy message: " ++ u.message)),
        setUpCounters u.podName u.containerName s) := by
  rw [countUnhealthy, modify_bind, get_bind, dictGet_setUpCounters h, hfirst]
  simp [dictGet, hcontainer, hprobe, lift]

/-- The event of a failed probe of the counted container. -/
theorem countUnhealthy_of_probe (h : CountsInv us s)
    (hfirst : firstOf (us ++ [u]) u.podName = some u₀)
    (hcontainer : u₀.containerName = u.containerName) (hprobe : probeOf u.message = some probe) :
    ∃ unhealthyCount,
      countUnhealthy u.podName u.containerName u.message s =
        (.ok (probe.reason, probesFailed us u.podName u.containerName probe + 1),
          { s with unhealthyCount := unhealthyCount }) ∧
      CountsInv (us ++ [u]) { s with unhealthyCount := unhealthyCount } := by
  have hset : ∃ d, setUpCounters u.podName u.containerName s = { s with unhealthyCount := d } := by
    rw [setUpCounters]
    split_ifs
    · exact ⟨_, rfl⟩
    · exact ⟨s.unhealthyCount, rfl⟩
  obtain ⟨d, hd⟩ := hset
  have hget := dictGet_setUpCounters h u
  rw [hd] at hget
  refine ⟨dictSet d u.podName
    [(u.containerName, (countsOf us u.podName u.containerName).setCount
      (probesFailed us u.podName u.containerName probe + 1) probe)], ?_, ?_⟩
  · rw [countUnhealthy, modify_bind, get_bind, hd, hget, hfirst]
    simp [dictGet, dictSet, hcontainer, hprobe, modify_bind, pure_apply]
  · intro podName
    rw [dictGet_dictSet]
    by_cases hpod : u.podName = podName
    · subst hpod
      rw [if_pos rfl, hfirst, Option.map_some, hcontainer, countsOf_append_of_probe hprobe]
    · rw [if_neg hpod, hget]
      refine Option.map_congr fun u₁ _ => ?_
      rw [countsOf_append_of_ne fun hu => hpod hu.1]

/-! ### Runs of the log -/

/-- `update_state` on an event that comes to the counters. -/
theorem updateState_of_unhealthyEvent (hu : unhealthyEvent rawEvent = some u)
    (s : PodKubeEventsLog) :
    ∃ event : KubeRawEvent, event.involvedObjectName = u.podName ∧
      updateState rawEvent s =
        match countUnhealthy u.podName u.containerName u.message s with
        | (.ok (reason, count), s') =>
          (.ok (), logEventAndCallback
            (loggedEvent event u.containerName (some reason, some count)) s')
        | (.error e, s') => (.error e, s') := by
  rw [unhealthyEvent] at hu
  split at hu
  · rename_i event hcheck
    split_ifs at hu with hreason
    split at hu
    · rename_i containerName hcontainer
      obtain rfl := Option.some.inj hu
      refine ⟨event, rfl, ?_⟩
      rw [updateState, hcheck, lift_ok_bind]
      dsimp only
      rw [hcontainer, lift_ok_bind, if_pos hreason]
      rcases hcount : countUnhealthy event.involvedObjectName containerName event.objectMessage s
        with ⟨e | ⟨reason, count⟩, s'⟩
      · rw [bind_of_error hcount]
      · rw [bind_of_ok hcount]
        rfl
    · cases hu
  · cases hu

/-- Other events do not change the counters. -/
theorem unhealthyCount_updateState (hu : unhealthyEvent rawEvent = none) (s : PodKubeEventsLog) :
    (updateState rawEvent s).2.unhealthyCount = s.unhealthyCount := by
  rw [unhealthyEvent] at hu
  rw [updateState]
  rcases hcheck : checkEvent rawEvent with e | event?
  · rw [lift_error_bind]
  · rw [hcheck] at hu
    rw [lift_ok_bind]
    cases event? with
    | none => rfl
    | some event =>
      dsimp only at hu ⊢
      rcases hcontainer : containerOf event.involvedObjectFieldPath with e | containerName
      · rw [lift_error_bind]
      · rw [hcontainer] at hu
        rw [lift_ok_bind]
        split_ifs at hu ⊢
        rfl

/-- An event that comes to the counters, whether it is counted or raises. -/
theorem countsInv_updateState (h : CountsInv us s) (hu : unhealthyEvent rawEvent = some u) :
    CountsInv (us ++ [u]) (updateState rawEvent s).2 := by
  obtain ⟨event, -, hupdate⟩ := updateState_of_unhealthyEvent hu s
  obtain ⟨u₀, hfirst⟩ : ∃ u₀, firstOf (us ++ [u]) u.podName = some u₀ := by
    rw [firstOf_append, if_pos rfl]
    cases firstOf us u.podName with
    | none => exact ⟨u, rfl⟩
    | some u₀ => exact ⟨u₀, rfl⟩
  rw [hupdate]
  by_cases hcontainer : u₀.containerName = u.containerName
  · rcases hprobe : probeOf u.message with _ | probe
    · rw [countUnhealthy_of_message h hfirst hcontainer hprobe]
      exact countsInv_setUpCounters h hfirst fun _ => hprobe
    · obtain ⟨unhealthyCount, hcount, hinv⟩ := countUnhealthy_of_probe h hfirst hcontainer hprobe
      rw [hcount]
      exact hinv
  · rw [countUnhealthy_of_ne h hfirst hcontainer]
    exact countsInv_setUpCounters h hfirst fun heq => absurd heq hcontainer

/-- **What the counters hold after any events.** -/
theorem countsInv_logAll (events : List RawEvent) :
    CountsInv (events.filterMap unhealthyEvent) (logAll events) := by
  induction events using List.reverseRecOn with
  | nil => exact fun _ => rfl
  | append_singleton events rawEvent ih =>
    rw [logAll, List.foldl_append, List.foldl_cons, List.foldl_nil, ← logAll,
      List.filterMap_append]
    cases hu : unhealthyEvent rawEvent with
    | none =>
      rw [List.filterMap_cons_none hu, List.filterMap_nil, List.append_nil]
      intro podName
      rw [unhealthyCount_updateState hu]
      exact ih podName
    | some u =>
      rw [List.filterMap_cons_some hu, List.filterMap_nil]
      exact countsInv_updateState ih hu

/-- `update_state` returns, and what it puts into the pod's queue and gives to the callbacks is an
event with the number of the failed probes up to it. -/
structure Reported (events : List RawEvent) (rawEvent : RawEvent) (u : UnhealthyEvent)
    (probe : Probe) : Prop where
  returns : (updateState rawEvent (logAll events)).1 = .ok ()
  reported : ∃ event : PodKubeLoggedEvent,
    (updateState rawEvent (logAll events)).2.called = (logAll events).called ++ [event] ∧
    dictGet (updateState rawEvent (logAll events)).2.podEventQueues u.podName =
      some ((dictGet (logAll events).podEventQueues u.podName).getD [] ++ [event]) ∧
    event.podName = u.podName ∧ event.containerName = u.containerName ∧
    event.reason = some probe.reason ∧
    event.count = some (probesFailed ((events ++ [rawEvent]).filterMap unhealthyEvent) u.podName
      u.containerName probe)

/-- An event is reported exactly if it is about the container of the pod's first event. -/
theorem reported_iff {events : List RawEvent} (hu : unhealthyEvent rawEvent = some u)
    (hprobe : probeOf u.message = some probe) :
    Reported events rawEvent u probe ↔
      ∀ u₀ ∈ firstOf (events.filterMap unhealthyEvent) u.podName,
        u₀.containerName = u.containerName := by
  have hinv := countsInv_logAll events
  obtain ⟨event, hpod, hupdate⟩ := updateState_of_unhealthyEvent hu (logAll events)
  have hfirst := firstOf_append (events.filterMap unhealthyEvent) u u.podName
  rw [if_pos rfl] at hfirst
  constructor
  · intro hreported u₀ hu₀
    by_contra hne
    rw [hu₀] at hfirst
    have hraise := hreported.returns
    rw [hupdate, countUnhealthy_of_ne hinv hfirst hne] at hraise
    cases hraise
  · intro hcontainer
    obtain ⟨u₀, hu₀, hu₀u⟩ : ∃ u₀,
        firstOf (events.filterMap unhealthyEvent ++ [u]) u.podName = some u₀ ∧
          u₀.containerName = u.containerName := by
      cases hnone : firstOf (events.filterMap unhealthyEvent) u.podName with
      | none => exact ⟨u, by rw [hfirst, hnone]; rfl, rfl⟩
      | some u₀ => exact ⟨u₀, by rw [hfirst, hnone]; rfl, hcontainer u₀ hnone⟩
    obtain ⟨unhealthyCount, hcount, -⟩ := countUnhealthy_of_probe hinv hu₀ hu₀u hprobe
    rw [hcount] at hupdate
    dsimp only at hupdate
    refine ⟨by rw [hupdate], loggedEvent event u.containerName (some probe.reason, some _),
      by rw [hupdate]; rfl, ?_, hpod, rfl, rfl, ?_⟩
    · rw [hupdate, ← hpod]
      exact (dictGet_dictSet _ _ _ _).trans (if_pos rfl)
    · rw [List.filterMap_append, List.filterMap_cons_some hu, List.filterMap_nil,
        probesFailed_append, if_pos ⟨rfl, rfl, hprobe⟩]
      rfl

/-- Every failed probe is reported with the number of them so far. -/
def ProbesCounted (events : List RawEvent) : Prop :=
  ∀ before rawEvent after u probe, events = before ++ rawEvent :: after →
    unhealthyEvent rawEvent = some u → probeOf u.message = some probe →
    Reported before rawEvent u probe

/-- The failed probes of a pod are all of the container of its first unhealthy event. -/
def OneContainer (events : List RawEvent) : Prop :=
  ∀ before rawEvent after u probe, events = before ++ rawEvent :: after →
    unhealthyEvent rawEvent = some u → probeOf u.message = some probe →
    ∀ u₀ ∈ firstOf (before.filterMap unhealthyEvent) u.podName,
      u₀.containerName = u.containerName

/-- **The failed probes are counted exactly if every pod has one container that gets unhealthy.** -/
theorem probesCounted_iff (events : List RawEvent) : ProbesCounted events ↔ OneContainer events :=
  ⟨fun h before rawEvent after u probe heq hu hprobe =>
      (reported_iff hu hprobe).1 (h before rawEvent after u probe heq hu hprobe),
    fun h before rawEvent after u probe heq hu hprobe =>
      (reported_iff hu hprobe).2 (h before rawEvent after u probe heq hu hprobe)⟩

/-- A failed liveness probe of a container of the pod `pod-0`. -/
def livenessFailed (fieldPath : String) : RawEvent :=
  .kube ⟨"ADDED", "Event", some "Unhealthy", "Liveness probe failed", some 1, "Pod", "pod-0",
    some fieldPath, none⟩

/-- The second container of a pod that gets unhealthy raises. -/
theorem not_probesCounted_twoContainers :
    ¬ ProbesCounted [livenessFailed "spec.containers{redis}",
      livenessFailed "spec.containers{data-feed-container}"] := by
  intro h
  have hreported := h [livenessFailed "spec.containers{redis}"]
    (livenessFailed "spec.containers{data-feed-container}") []
    ⟨"pod-0", some "data-feed-container", "Liveness probe failed"⟩ .liveness rfl
    (by decide +kernel) (by decide +kernel)
  exact absurd hreported.returns (by decide +kernel)

end Perf

end Svoe
