import Mathlib.Algebra.Order.Field.Rat
import Svoe.Common.DeltaLog
import Svoe.Common.Dict
import Svoe.Common.Frame
import Svoe.Transition.Raising

/-!
# The log of the changes of pods

Every event about a pod object has the whole status of the pod.  `PodObjectEventsLog.update_state`
logs what differs from the last event about the pod: its phase, its conditions, and the state, the
probes and the restarts of its containers.  The watcher restarts its stream every ten seconds, and
is told of all pods again each time.

* `exists_logs_of_ok` : what is logged for one event.
* `replay_updateAll` : the logged changes, put together, have every item of the last event.
* `updateAll_withoutRepeats` : what is told again is not logged again.
-/

namespace Svoe

namespace Perf

open Raising

variable {υ : Type}

/-! ### Events -/

/-- An object of the JSON of a pod; its values are compared only. -/
abbrev JsonObject (υ : Type) := List (String × υ)

/-- `status_filtered`. -/
structure PodStatus (υ : Type) where
  phase : Option υ
  conditions : Option (List (JsonObject υ))
  containerStatuses : Option (List (JsonObject υ))
  deriving DecidableEq, Repr

/-- `PodObjectRawEvent`. -/
structure PodObjectRawEvent (υ : Type) where
  type : String
  podName : String
  status : PodStatus υ
  deriving DecidableEq, Repr

/-- `RawEvent`: one about a pod object, or of another class with the given name. -/
inductive ObjectRawEvent (υ : Type) where
  | pod (event : PodObjectRawEvent υ)
  | other (className : String)
  deriving DecidableEq, Repr

/-- The types of `PodObjectLoggedEvent`. -/
inductive PodObjectEventType where
  | podDeleted
  | podPhaseChanged
  | podConditionChanged
  | containerStateChanged
  | containerStartupProbeStateChanged
  | containerReadinessProbeStateChanged
  | containerRestartCountChanged
  deriving DecidableEq, Repr

/-- `PodObjectLoggedEvent`, but its `local_time`. -/
structure PodObjectLoggedEvent (υ : Type) where
  type : PodObjectEventType
  podName : String
  containerName : Option υ
  data : Option (JsonObject υ)
  clusterTime : Option ℚ
  rawEvent : PodObjectRawEvent υ
  deriving DecidableEq, Repr

/-- `PodObjectEventsLog`.  `called` are the events that the callbacks have got. -/
structure PodObjectEventsLog (υ : Type) where
  lastRawEventPerPod : List (String × PodObjectRawEvent υ)
  podEventQueues : List (String × List (PodObjectLoggedEvent υ))
  called : List (PodObjectLoggedEvent υ)
  deriving DecidableEq, Repr

namespace PodObjectEventsLog

/-- `__init__`. -/
def initial : PodObjectEventsLog υ := ⟨[], [], []⟩

/-- `_log_event_and_callback`. -/
def logEventAndCallback (s : PodObjectEventsLog υ) (event : PodObjectLoggedEvent υ) :
    PodObjectEventsLog υ :=
  let queue := (dictGet s.podEventQueues event.podName).getD []
  { s with
    podEventQueues := dictSet s.podEventQueues event.podName (queue ++ [event])
    called := s.called ++ [event] }

/-- What is logged one after the other. -/
def logAll (s : PodObjectEventsLog υ) (events : List (PodObjectLoggedEvent υ)) :
    PodObjectEventsLog υ :=
  events.foldl (fun s event => s.logEventAndCallback event) s

/-- The queue of a pod. -/
def queue (s : PodObjectEventsLog υ) (podName : String) : List (PodObjectLoggedEvent υ) :=
  (dictGet s.podEventQueues podName).getD []

/-- The status of the last event about a pod. -/
def lastStatus (s : PodObjectEventsLog υ) (podName : String) : PodStatus υ :=
  ((dictGet s.lastRawEventPerPod podName).map PodObjectRawEvent.status).getD ⟨none, none, none⟩

end PodObjectEventsLog

/-! ### Comparing -/

section Code

variable [DecidableEq υ]

/-- `d1 == d2`. -/
def dictEq (d₁ d₂ : JsonObject υ) : Bool :=
  (d₁ ++ d₂).all fun p => dictGet d₁ p.1 = dictGet d₂ p.1

/-- `filtered_dict`. -/
def filteredDict (d : JsonObject υ) (filterKeys : List String) : JsonObject υ :=
  d.filter fun p => p.1 ∈ filterKeys

/-- `equal_dicts`; the first one is not `None`. -/
def equalDicts (d₁ : JsonObject υ) (d₂ : Option (JsonObject υ)) (compareByKeys : List String) :
    Bool :=
  match d₂ with
  | none => false
  | some d₂ =>
    if d₁.isEmpty || d₂.isEmpty then dictEq d₁ d₂
    else dictEq (filteredDict d₁ compareByKeys) (filteredDict d₂ compareByKeys)

/-- `d[key]`. -/
def getJson (d : JsonObject υ) (key : String) : Except PyError υ :=
  match dictGet d key with
  | none => .error (.key key)
  | some v => .ok v

/-- `next((l for l in last if l[key] == d[key]), None)`. -/
def nextWith (key : String) (d : JsonObject υ) : List (JsonObject υ) →
    Except PyError (Option (JsonObject υ))
  | [] => .ok none
  | l :: last => do
    let v ← getJson l key
    let w ← getJson d key
    if v = w then return some l else nextWith key d last

/-- `filter_keys` of the conditions. -/
def conditionKeys : List String := ["status", "reason", "message"]

/-- The types of events about a container, with their `filter_keys`. -/
def containerEvents : List (PodObjectEventType × List String) :=
  [(.containerStateChanged, ["state"]), (.containerStartupProbeStateChanged, ["started"]),
    (.containerReadinessProbeStateChanged, ["ready"]),
    (.containerRestartCountChanged, ["restartCount"])]

/-! ### The log -/

variable (parseTimestamp : υ → Except PyError ℚ)

/-- The phase of a pod. -/
def logPhase (event : PodObjectRawEvent υ) : Raising (PodObjectEventsLog υ) PyError Unit := do
  match event.status.phase with
  | none => return ()
  | some phase =>
    let s ← get
    if (s.lastStatus event.podName).phase = some phase then return ()
    else
      modify (·.logEventAndCallback
        ⟨.podPhaseChanged, event.podName, none, some [("phase", phase)], none, event⟩)

/-- The time of a condition. -/
def clusterTime (condition : JsonObject υ) : Except PyError (Option ℚ) :=
  match dictGet condition "lastTransitionTime" with
  | none => .ok none
  | some time => (parseTimestamp time).map some

/-- One condition of a pod. -/
def logCondition (event : PodObjectRawEvent υ) (condition : JsonObject υ) :
    Raising (PodObjectEventsLog υ) PyError Unit := do
  let s ← get
  let lastCondition ←
    lift (nextWith "type" condition ((s.lastStatus event.podName).conditions.getD []))
  if equalDicts condition lastCondition conditionKeys then return ()
  else
    let time ← lift (clusterTime parseTimestamp condition)
    let type ← lift (getJson condition "type")
    let data := dictUpdate [("type", type)] (filteredDict condition conditionKeys)
    modify (·.logEventAndCallback
      ⟨.podConditionChanged, event.podName, none, some data, time, event⟩)

/-- One of the things that can change of a container. -/
def logContainerEvent (event : PodObjectRawEvent υ) (containerStatus : JsonObject υ)
    (last : Option (JsonObject υ)) (p : PodObjectEventType × List String) :
    Raising (PodObjectEventsLog υ) PyError Unit := do
  if equalDicts containerStatus last p.2 then return ()
  else
    let containerName ← lift (getJson containerStatus "name")
    let data := filteredDict containerStatus (p.2 ++ ["last_state"])
    modify (·.logEventAndCallback
      ⟨p.1, event.podName, some containerName, some data, none, event⟩)

/-- One container of a pod. -/
def logContainer (event : PodObjectRawEvent υ) (containerStatus : JsonObject υ) :
    Raising (PodObjectEventsLog υ) PyError Unit := do
  let s ← get
  let last ←
    lift (nextWith "name" containerStatus ((s.lastStatus event.podName).containerStatuses.getD []))
  containerEvents.forM (logContainerEvent event containerStatus last)

/-- `self.last_raw_event_per_pod[pod_name] = raw_event`. -/
def PodObjectEventsLog.setLast (event : PodObjectRawEvent υ) (s : PodObjectEventsLog υ) :
    PodObjectEventsLog υ :=
  { s with lastRawEventPerPod := dictSet s.lastRawEventPerPod event.podName event }

/-- `PodObjectEventsLog.update_state`. -/
def updatePodState (rawEvent : ObjectRawEvent υ) :
    Raising (PodObjectEventsLog υ) PyError Unit := do
  match rawEvent with
  | .other className => lift (.error (.value ("Unsupported raw_event class: " ++ className)))
  | .pod event =>
    if event.type ∉ ["ADDED", "MODIFIED", "DELETED"] then
      lift (.error (.value ("Unknown raw_event.type: " ++ event.type)))
    else if event.type = "DELETED" then do
      modify (·.logEventAndCallback ⟨.podDeleted, event.podName, none, none, none, event⟩)
      modify (.setLast event)
    else do
      logPhase event
      (event.status.conditions.getD []).forM (logCondition parseTimestamp event)
      (event.status.containerStatuses.getD []).forM (logContainer event)
      modify (.setLast event)

/-- The events of a stream, or of one stream after the other. -/
def updateAll (events : List (ObjectRawEvent υ)) : Raising (PodObjectEventsLog υ) PyError Unit :=
  events.forM (updatePodState parseTimestamp)

end Code

/-! ### What a log says -/

/-- What an event about a pod may change. -/
inductive PodItem (υ : Type) where
  | phase
  | condition (type : υ)
  | container (name : υ) (type : PodObjectEventType)
  deriving DecidableEq, Repr

section Items

variable [DecidableEq υ]

/-- The items of a container. -/
def containerItems (containerStatus : JsonObject υ) : List (PodItem υ × JsonObject υ) :=
  ((dictGet containerStatus "name").map fun name => containerEvents.map fun p =>
    (.container name p.1, filteredDict containerStatus p.2)).getD []

/-- The items of a status. -/
def statusItems (status : PodStatus υ) : List (PodItem υ × JsonObject υ) :=
  (status.phase.map fun phase => (.phase, [("phase", phase)])).toList ++
    ((status.conditions.getD []).filterMap fun c => (dictGet c "type").map fun type =>
      (.condition type, filteredDict c conditionKeys)) ++
    (status.containerStatuses.getD []).flatMap containerItems

/-- The item that a logged event is about, and what it has become. -/
def loggedItem (event : PodObjectLoggedEvent υ) : Option (PodItem υ × JsonObject υ) :=
  let data := event.data.getD []
  match event.type with
  | .podDeleted => none
  | .podPhaseChanged => some (.phase, data)
  | .podConditionChanged =>
    (dictGet data "type").map fun type => (.condition type, filteredDict data conditionKeys)
  | type => event.containerName.map fun name =>
    (.container name type, filteredDict data ((dictGet containerEvents type).getD []))

/-- The state of a pod, as a reader of the log has it: a deletion brings the status that the pod had
in the end, which is logged in no other way. -/
def replayEvent (known : PodItem υ → Option (JsonObject υ)) (event : PodObjectLoggedEvent υ) :
    PodItem υ → Option (JsonObject υ) :=
  match event.type with
  | .podDeleted => dictGet (statusItems event.rawEvent.status)
  | _ => DeltaLog.applyItems known (loggedItem event).toList

/-- The state of a pod after some logged events. -/
def replay (events : List (PodObjectLoggedEvent υ)) : PodItem υ → Option (JsonObject υ) :=
  events.foldl replayEvent fun _ => none

/-- The objects of a list have different values of a key. -/
structure KeyedObjects (key : String) (objects : List (JsonObject υ)) : Prop where
  known : ∀ d ∈ objects, dictGet d key ≠ none
  distinct : (objects.map fun d => dictGet d key).Nodup
  keys : ∀ d ∈ objects, (d.map Prod.fst).Nodup

/-- A status as kubernetes sends it: the conditions have different types, the containers different
names, and the times can be parsed. -/
structure PodStatus.Ok (parseTimestamp : υ → Except PyError ℚ) (status : PodStatus υ) : Prop where
  conditions : KeyedObjects "type" (status.conditions.getD [])
  containers : KeyedObjects "name" (status.containerStatuses.getD [])
  times : ∀ c ∈ status.conditions.getD [], ∃ time, clusterTime parseTimestamp c = .ok time

omit [DecidableEq υ] in
/-- Nothing is known before the first event. -/
theorem podStatus_ok_empty (parseTimestamp : υ → Except PyError ℚ) :
    (⟨none, none, none⟩ : PodStatus υ).Ok parseTimestamp :=
  ⟨⟨nofun, .nil, nofun⟩, ⟨nofun, .nil, nofun⟩, nofun⟩

end Items

/-! ### Comparing objects -/

section Compare

variable [DecidableEq υ] {d d' : JsonObject υ} {keys : List String} {k : String}

theorem dictEq_iff : dictEq d d' ↔ ∀ k, dictGet d k = dictGet d' k := by
  simp only [dictEq, List.all_eq_true, List.mem_append, decide_eq_true_eq]
  refine ⟨fun h k => ?_, fun h p _ => h p.1⟩
  by_cases hk : k ∈ d.map Prod.fst ∨ k ∈ d'.map Prod.fst
  · rcases hk with hk | hk <;> obtain ⟨p, hp, rfl⟩ := List.mem_map.1 hk
    · exact h p (.inl hp)
    · exact h p (.inr hp)
  · rw [not_or] at hk
    rw [dictGet_eq_none_iff.2 hk.1, dictGet_eq_none_iff.2 hk.2]

theorem dictEq_refl (d : JsonObject υ) : dictEq d d :=
  dictEq_iff.2 fun _ => rfl

theorem dictEq_trans (d₁ d₂ d₃ : JsonObject υ) (h : dictEq d₁ d₂) (h' : dictEq d₂ d₃) :
    dictEq d₁ d₃ :=
  dictEq_iff.2 fun k => (dictEq_iff.1 h k).trans (dictEq_iff.1 h' k)

/-- `next` on objects that have the key. -/
theorem nextWith_eq {key : String} {last : List (JsonObject υ)} (hd : dictGet d key ≠ none)
    (h : ∀ l ∈ last, dictGet l key ≠ none) :
    nextWith key d last = .ok (last.find? fun l => dictGet l key = dictGet d key) := by
  obtain ⟨w, hw⟩ := Option.ne_none_iff_exists'.1 hd
  induction last with
  | nil => rfl
  | cons l last ih =>
    obtain ⟨hl, hlast⟩ := List.forall_mem_cons.1 h
    obtain ⟨v, hv⟩ := Option.ne_none_iff_exists'.1 hl
    rw [nextWith, getJson, getJson, hv, hw]
    change (if v = w then _ else _) = _
    by_cases hvw : v = w
    · rw [if_pos hvw, List.find?_cons_of_pos (by simp [hv, hvw])]
      rfl
    · rw [if_neg hvw, List.find?_cons_of_neg (by simp [hv, hvw]), ih hlast]
      simp only [hw]

/-- Objects that have a key are compared by their filtered items. -/
theorem equalDicts_eq {last : Option (JsonObject υ)} (hd : d ≠ [])
    (h : ∀ l, last = some l → l ≠ []) :
    equalDicts d last keys =
      (last.map fun l => filteredDict l keys).any fun l => dictEq (filteredDict d keys) l := by
  cases last with
  | none => rfl
  | some l =>
    rw [equalDicts, if_neg (by simp [hd, h l rfl])]
    rfl

end Compare

/-! ### The items of a status -/

section Status

variable [DecidableEq υ] {key : String} {objects : List (JsonObject υ)} {status : PodStatus υ}
  {parseTimestamp : υ → Except PyError ℚ}

/-- The object with a value of the key. -/
def objectWith (key : String) (objects : List (JsonObject υ)) (v : υ) : Option (JsonObject υ) :=
  objects.find? fun d => dictGet d key = some v

theorem dictGet_filterMap_condition (conditions : List (JsonObject υ)) (type : υ) :
    dictGet (conditions.filterMap fun c => (dictGet c "type").map fun type =>
        ((.condition type : PodItem υ), filteredDict c conditionKeys)) (.condition type) =
      (objectWith "type" conditions type).map (filteredDict · conditionKeys) := by
  induction conditions with
  | nil => rfl
  | cons c conditions ih =>
    rw [objectWith, List.find?_cons, List.filterMap_cons]
    cases hc : dictGet c "type" with
    | none => exact ih
    | some type' =>
      rw [Option.map_some, dictGet_cons]
      by_cases htype : type' = type
      · simp [htype]
      · simpa [htype, objectWith] using ih

theorem dictGet_flatMap_containerItems (containerStatuses : List (JsonObject υ)) (name : υ)
    {p : PodObjectEventType × List String} (hp : p ∈ containerEvents) :
    dictGet (containerStatuses.flatMap containerItems) (.container name p.1) =
      (objectWith "name" containerStatuses name).map (filteredDict · p.2) := by
  have hitems : ∀ c : JsonObject υ, dictGet (containerItems c) (.container name p.1) =
      if dictGet c "name" = some name then some (filteredDict c p.2) else none := by
    intro c
    rw [containerItems]
    cases hc : dictGet c "name" with
    | none => rfl
    | some name' =>
      simp only [containerEvents, List.mem_cons, List.not_mem_nil, or_false] at hp
      by_cases hname : name' = name
      · rcases hp with rfl | rfl | rfl | rfl <;> simp [containerEvents, dictGet_cons, hname]
      · rcases hp with rfl | rfl | rfl | rfl <;> simp [containerEvents, hname, dictGet]
  induction containerStatuses with
  | nil => rfl
  | cons c containerStatuses ih =>
    rw [List.flatMap_cons, dictGet_append, hitems, ih, objectWith, objectWith, List.find?_cons]
    by_cases hc : dictGet c "name" = some name <;> simp [hc]

omit [DecidableEq υ] in
theorem keys_filterMap_condition (conditions : List (JsonObject υ)) :
    (conditions.filterMap fun c => (dictGet c "type").map fun type =>
        ((.condition type : PodItem υ), filteredDict c conditionKeys)).map Prod.fst =
      (conditions.filterMap (dictGet · "type")).map .condition := by
  rw [List.map_filterMap, List.map_filterMap]
  refine List.filterMap_congr fun c _ => ?_
  cases dictGet c "type" <;> rfl

omit [DecidableEq υ] in
theorem keys_flatMap_containerItems (containerStatuses : List (JsonObject υ)) :
    (containerStatuses.flatMap containerItems).map Prod.fst =
      (containerStatuses.filterMap (dictGet · "name")).flatMap fun name =>
        containerEvents.map fun p => .container name p.1 := by
  induction containerStatuses with
  | nil => rfl
  | cons c containerStatuses ih =>
    rw [List.flatMap_cons, List.map_append, ih, containerItems, List.filterMap_cons]
    cases dictGet c "name" <;> rfl

/-- An item is found among those of its kind. -/
theorem dictGet_statusItems (status : PodStatus υ) :
    dictGet (statusItems status) .phase = status.phase.map (fun phase => [("phase", phase)]) ∧
      (∀ type, dictGet (statusItems status) (.condition type) =
        (objectWith "type" (status.conditions.getD []) type).map
          (filteredDict · conditionKeys)) ∧
      ∀ name, ∀ p ∈ containerEvents, dictGet (statusItems status) (.container name p.1) =
        (objectWith "name" (status.containerStatuses.getD []) name).map (filteredDict · p.2) := by
  have hcondition : ∀ k, (∀ type, k ≠ .condition type) →
      dictGet ((status.conditions.getD []).filterMap fun c => (dictGet c "type").map fun type =>
        ((.condition type : PodItem υ), filteredDict c conditionKeys)) k = none := by
    intro k hk
    rw [dictGet_eq_none_iff, keys_filterMap_condition, List.mem_map]
    rintro ⟨type, -, rfl⟩
    exact hk type rfl
  have hcontainer : ∀ k, (∀ name type, k ≠ .container name type) →
      dictGet ((status.containerStatuses.getD []).flatMap containerItems) k = none := by
    intro k hk
    rw [dictGet_eq_none_iff, keys_flatMap_containerItems, List.mem_flatMap]
    rintro ⟨name, -, hmem⟩
    obtain ⟨p, -, rfl⟩ := List.mem_map.1 hmem
    exact hk name p.1 rfl
  have hphase : ∀ k, k ≠ .phase → dictGet (status.phase.map fun phase =>
      ((.phase : PodItem υ), [("phase", phase)])).toList k = none := by
    intro k hk
    cases status.phase with
    | none => rfl
    | some phase => simp [dictGet, hk.symm]
  refine ⟨?_, fun type => ?_, fun name p hp => ?_⟩
  · rw [statusItems, dictGet_append, dictGet_append, hcondition .phase (by simp),
      hcontainer .phase (by simp)]
    cases status.phase <;> rfl
  · rw [statusItems, dictGet_append, dictGet_append, hphase (.condition type) (by simp),
      hcontainer (.condition type) (by simp), dictGet_filterMap_condition, Option.none_or, Option.or_none]
  · rw [statusItems, dictGet_append, dictGet_append, hphase (.container name p.1) (by simp),
      hcondition (.container name p.1) (by simp), dictGet_flatMap_containerItems _ _ hp, Option.none_or,
      Option.none_or]

omit [DecidableEq υ] in
theorem KeyedObjects.nodup_filterMap (h : KeyedObjects key objects) :
    (objects.filterMap (dictGet · key)).Nodup := by
  have hnodup := h.distinct.filterMap (f := id) fun _ _ _ ha ha' => ha.trans ha'.symm
  rwa [List.filterMap_map] at hnodup

omit [DecidableEq υ] in
/-- The items of a status are different ones. -/
theorem PodStatus.Ok.nodup_keys (h : status.Ok parseTimestamp) :
    ((statusItems status).map Prod.fst).Nodup := by
  rw [statusItems, List.map_append, List.map_append, keys_filterMap_condition,
    keys_flatMap_containerItems]
  have hcontainers : ((status.containerStatuses.getD []).filterMap (dictGet · "name")).flatMap
      (fun name => containerEvents.map fun p => (.container name p.1 : PodItem υ)) |>.Nodup := by
    refine List.nodup_flatMap.2 ⟨fun name _ => ?_, h.containers.nodup_filterMap.imp ?_⟩
    · simp [containerEvents]
    · intro name name' hne k hk hk'
      obtain ⟨p, -, rfl⟩ := List.mem_map.1 hk
      obtain ⟨p', -, heq⟩ := List.mem_map.1 hk'
      exact hne (PodItem.container.inj heq).1.symm
  refine List.nodup_append.2 ⟨List.nodup_append.2 ⟨?_, ?_, ?_⟩, hcontainers, ?_⟩
  · cases status.phase <;> simp
  · exact h.conditions.nodup_filterMap.map fun _ _ heq => PodItem.condition.inj heq
  · rintro a ha b hb rfl
    obtain ⟨type, -, rfl⟩ := List.mem_map.1 hb
    obtain ⟨q, hq, heq⟩ := List.mem_map.1 ha
    cases hphase : status.phase <;> simp [hphase] at hq
    exact absurd (hq ▸ heq) nofun
  · rintro a ha b hb rfl
    obtain ⟨name, -, hb⟩ := List.mem_flatMap.1 hb
    obtain ⟨p, -, rfl⟩ := List.mem_map.1 hb
    rcases List.mem_append.1 ha with ha | ha
    · obtain ⟨q, hq, heq⟩ := List.mem_map.1 ha
      cases hphase : status.phase <;> simp [hphase] at hq
      exact absurd (hq ▸ heq) nofun
    · obtain ⟨type, -, heq⟩ := List.mem_map.1 ha
      cases heq

end Status

/-! ### What is logged for one event -/

section Logs

variable [DecidableEq υ] {podName : String} {last : PodStatus υ}
  {x y : Raising (PodObjectEventsLog υ) PyError Unit} {items items' : List (PodItem υ × JsonObject υ)}
  {parseTimestamp : υ → Except PyError ℚ} {event : PodObjectRawEvent υ}

omit [DecidableEq υ] in
@[simp] theorem lastStatus_logAll (s : PodObjectEventsLog υ)
    (events : List (PodObjectLoggedEvent υ)) (podName : String) :
    (s.logAll events).lastStatus podName = s.lastStatus podName := by
  induction events generalizing s with
  | nil => rfl
  | cons e events ih => exact ih _

omit [DecidableEq υ] in
theorem logAll_append (s : PodObjectEventsLog υ) (es es' : List (PodObjectLoggedEvent υ)) :
    s.logAll (es ++ es') = (s.logAll es).logAll es' :=
  List.foldl_append

/-- The computation logs those of the items that differ from the last status of the pod. -/
def Logs (podName : String) (last : PodStatus υ) (x : Raising (PodObjectEventsLog υ) PyError Unit)
    (items : List (PodItem υ × JsonObject υ)) : Prop :=
  ∃ es, (∀ s, s.lastStatus podName = last → x s = (.ok (), s.logAll es)) ∧
    (∀ e ∈ es, e.podName = podName ∧ e.type ≠ .podDeleted ∧ (loggedItem e).isSome) ∧
      es.filterMap loggedItem = DeltaLog.delta dictEq (statusItems last) items

theorem logs_nil (h : ∀ s, s.lastStatus podName = last → x s = (.ok (), s)) :
    Logs podName last x [] :=
  ⟨[], h, nofun, rfl⟩

/-- One computation after the other. -/
theorem Logs.bind (hx : Logs podName last x items) (hy : Logs podName last y items') :
    Logs podName last (x >>= fun _ => y) (items ++ items') := by
  obtain ⟨es, hes, hall, hitems⟩ := hx
  obtain ⟨es', hes', hall', hitems'⟩ := hy
  refine ⟨es ++ es', fun s hs => ?_, fun e he => ?_, ?_⟩
  · rw [bind_of_ok (hes s hs), hes' _ ((lastStatus_logAll s es podName).trans hs), logAll_append]
  · exact (List.mem_append.1 he).elim (hall e) (hall' e)
  · rw [List.filterMap_append, hitems, hitems', DeltaLog.delta, DeltaLog.delta, DeltaLog.delta,
      List.filter_append]

theorem Logs.forM {β : Type} {f : β → Raising (PodObjectEventsLog υ) PyError Unit}
    {g : β → List (PodItem υ × JsonObject υ)} {l : List β}
    (h : ∀ b ∈ l, Logs podName last (f b) (g b)) : Logs podName last (l.forM f) (l.flatMap g) := by
  induction l with
  | nil => exact logs_nil fun _ _ => rfl
  | cons b l ih =>
    exact (h b List.mem_cons_self).bind (ih fun b' hb' => h b' (List.mem_cons_of_mem b hb'))

/-- One item, that is logged if it differs. -/
theorem logs_singleton {p : PodItem υ × JsonObject υ} {e : PodObjectLoggedEvent υ}
    (h : ∀ s, s.lastStatus podName = last → x s = (.ok (),
      if DeltaLog.unchanged dictEq (statusItems last) p then s else s.logEventAndCallback e))
    (hpod : e.podName = podName) (htype : e.type ≠ .podDeleted) (hitem : loggedItem e = some p) :
    Logs podName last x [p] := by
  by_cases hsame : DeltaLog.unchanged dictEq (statusItems last) p
  · refine ⟨[], fun s hs => (h s hs).trans (by rw [if_pos hsame]; rfl), nofun, ?_⟩
    simp [DeltaLog.delta, hsame]
  · refine ⟨[e], fun s hs => (h s hs).trans (by rw [if_neg hsame]; rfl), ?_, ?_⟩
    · rw [List.forall_mem_singleton]
      exact ⟨hpod, htype, by rw [hitem]; rfl⟩
    · simp [DeltaLog.delta, hsame, hitem]

theorem logs_phase (event : PodObjectRawEvent υ) (last : PodStatus υ) :
    Logs event.podName last (logPhase event)
      (event.status.phase.map fun phase => ((.phase : PodItem υ), [("phase", phase)])).toList := by
  cases hphase : event.status.phase with
  | none => exact logs_nil fun s _ => by rw [logPhase, hphase]; rfl
  | some phase =>
    refine logs_singleton (e := ⟨.podPhaseChanged, event.podName, none, some [("phase", phase)],
      none, event⟩) (fun s hs => ?_) rfl nofun rfl
    have hsame : DeltaLog.unchanged dictEq (statusItems last) (.phase, [("phase", phase)]) =
        decide (last.phase = some phase) := by
      rw [DeltaLog.unchanged, (dictGet_statusItems last).1]
      cases last.phase with
      | none => rfl
      | some phase' => simp [dictEq, dictGet, eq_comm]
    rw [logPhase, hphase]
    dsimp only
    rw [get_bind, hs, hsame]
    by_cases heq : last.phase = some phase
    · rw [if_pos heq, if_pos (decide_eq_true heq)]
      rfl
    · rw [if_neg heq, if_neg (by simpa using heq)]
      rfl

omit [DecidableEq υ] in
/-- Filtering twice. -/
theorem filteredDict_filteredDict {d : JsonObject υ} {keys keys' : List String} (h : keys ⊆ keys') :
    filteredDict (filteredDict d keys') keys = filteredDict d keys := by
  rw [filteredDict, filteredDict, filteredDict, List.filter_filter]
  refine List.filter_congr fun p _ => ?_
  by_cases hp : p.1 ∈ keys
  · simp [hp, h hp]
  · simp [hp]

omit [DecidableEq υ] in
/-- The data of a changed condition. -/
theorem loggedItem_condition {c : JsonObject υ} (hkeys : (c.map Prod.fst).Nodup) (type : υ)
    (time : Option ℚ) : loggedItem ⟨.podConditionChanged, event.podName, none,
        some (dictUpdate [("type", type)] (filteredDict c conditionKeys)), time, event⟩ =
      some (.condition type, filteredDict c conditionKeys) := by
  have hdata : dictUpdate [("type", type)] (filteredDict c conditionKeys) =
      ("type", type) :: filteredDict c conditionKeys := by
    refine dictUpdate_of_nodup (List.nodup_cons.2 ⟨fun hmem => ?_,
      hkeys.sublist (List.filter_sublist.map _)⟩)
    obtain ⟨p, hp, hkey⟩ := List.mem_map.1 hmem
    obtain ⟨-, hp⟩ := List.mem_filter.1 hp
    simp [hkey, conditionKeys] at hp
  have hfiltered := filteredDict_filteredDict (d := c) (List.Subset.refl conditionKeys)
  rw [loggedItem]
  dsimp only [Option.getD_some]
  rw [hdata, dictGet_cons, if_pos rfl, Option.map_some, filteredDict, List.filter_cons,
    if_neg (by simp [conditionKeys])]
  exact congrArg (fun d => some (PodItem.condition type, d)) hfiltered

omit [DecidableEq υ] in
theorem ne_nil_of_dictGet {d : JsonObject υ} {key : String} (h : dictGet d key ≠ none) : d ≠ [] := by
  rintro rfl
  exact h rfl

theorem logs_condition (hlast : last.Ok parseTimestamp) {c : JsonObject υ}
    (hknown : dictGet c "type" ≠ none) (hkeys : (c.map Prod.fst).Nodup)
    (htime : ∃ time, clusterTime parseTimestamp c = .ok time) :
    Logs event.podName last (logCondition parseTimestamp event c)
      ((dictGet c "type").map fun type =>
        ((.condition type : PodItem υ), filteredDict c conditionKeys)).toList := by
  obtain ⟨type, htype⟩ := Option.ne_none_iff_exists'.1 hknown
  obtain ⟨time, htime⟩ := htime
  rw [htype]
  refine logs_singleton (fun s hs => ?_) rfl (by simp) (loggedItem_condition hkeys type time)
  have hnext := nextWith_eq hknown hlast.conditions.known
  rw [htype] at hnext
  have hequal : equalDicts c (objectWith "type" (last.conditions.getD []) type) conditionKeys =
      DeltaLog.unchanged dictEq (statusItems last) (.condition type, filteredDict c conditionKeys) := by
    rw [DeltaLog.unchanged, (dictGet_statusItems last).2.1]
    refine equalDicts_eq (ne_nil_of_dictGet hknown) fun l hl => ?_
    exact ne_nil_of_dictGet (hlast.conditions.known l (List.mem_of_find?_eq_some hl))
  rw [logCondition, get_bind, hs, hnext, lift_ok_bind]
  change (if equalDicts c (objectWith "type" (last.conditions.getD []) type) conditionKeys
    then _ else _ : Raising _ _ _) s = _
  rw [hequal]
  split_ifs with hsame
  · rfl
  · rw [htime, lift_ok_bind, getJson, htype]
    rfl

theorem logs_container (hlast : last.Ok parseTimestamp) {c : JsonObject υ}
    (hknown : dictGet c "name" ≠ none) :
    Logs event.podName last (logContainer event c) (containerItems c) := by
  obtain ⟨name, hname⟩ := Option.ne_none_iff_exists'.1 hknown
  have hnext := nextWith_eq hknown hlast.containers.known
  rw [hname] at hnext
  have hone : ∀ p ∈ containerEvents, Logs event.podName last
      (logContainerEvent event c (objectWith "name" (last.containerStatuses.getD []) name) p)
      [(.container name p.1, filteredDict c p.2)] := by
    intro p hp
    have hequal : equalDicts c (objectWith "name" (last.containerStatuses.getD []) name) p.2 =
        DeltaLog.unchanged dictEq (statusItems last) (.container name p.1, filteredDict c p.2) := by
      rw [DeltaLog.unchanged, (dictGet_statusItems last).2.2 name p hp]
      refine equalDicts_eq (ne_nil_of_dictGet hknown) fun l hl => ?_
      exact ne_nil_of_dictGet (hlast.containers.known l (List.mem_of_find?_eq_some hl))
    have hfiltered : filteredDict (filteredDict c (p.2 ++ ["last_state"])) p.2 =
        filteredDict c p.2 := filteredDict_filteredDict (List.subset_append_left _ _)
    have htype : p.1 ≠ .podDeleted ∧ loggedItem ⟨p.1, event.podName, some name,
        some (filteredDict c (p.2 ++ ["last_state"])), none, event⟩ =
          some (.container name p.1, filteredDict c p.2) := by
      rw [← hfiltered]
      simp only [containerEvents, List.mem_cons, List.not_mem_nil, or_false] at hp
      rcases hp with rfl | rfl | rfl | rfl <;> exact ⟨by simp, rfl⟩
    refine logs_singleton (fun s _ => ?_) rfl htype.1 htype.2
    rw [logContainerEvent, hequal]
    split_ifs with hsame
    · rfl
    · rw [getJson, hname]
      rfl
  obtain ⟨es, hes, hall⟩ := Logs.forM hone
  have hitems : containerItems c = containerEvents.flatMap fun p =>
      [((.container name p.1 : PodItem υ), filteredDict c p.2)] := by
    rw [containerItems, hname]
    rfl
  rw [hitems]
  refine ⟨es, fun s hs => ?_, hall⟩
  rw [logContainer, get_bind, hs, hnext, lift_ok_bind]
  exact hes s hs

/-- **What is logged for an event** that does not delete the pod: the items that differ. -/
theorem exists_logs_of_ok (hlast : last.Ok parseTimestamp) (hevent : event.status.Ok parseTimestamp)
    (htype : event.type = "ADDED" ∨ event.type = "MODIFIED") :
    ∃ es, (∀ s, s.lastStatus event.podName = last →
        updatePodState parseTimestamp (.pod event) s = (.ok (), (s.logAll es).setLast event)) ∧
      (∀ e ∈ es, e.podName = event.podName ∧ e.type ≠ .podDeleted ∧ (loggedItem e).isSome) ∧
        es.filterMap loggedItem =
          DeltaLog.delta dictEq (statusItems last) (statusItems event.status) := by
  have hconditions : Logs event.podName last
      ((event.status.conditions.getD []).forM (logCondition parseTimestamp event)) _ :=
    .forM fun c hc => logs_condition hlast (hevent.conditions.known c hc)
      (hevent.conditions.keys c hc) (hevent.times c hc)
  have hcontainers : Logs event.podName last
      ((event.status.containerStatuses.getD []).forM (logContainer event)) _ :=
    .forM fun c hc => logs_container hlast (hevent.containers.known c hc)
  obtain ⟨es, hes, hall⟩ := ((logs_phase event last).bind hconditions).bind hcontainers
  rw [← List.filterMap_eq_flatMap_toList] at hall
  refine ⟨es, fun s hs => ?_, hall⟩
  have hchanged : event.type ∈ ["ADDED", "MODIFIED", "DELETED"] ∧ event.type ≠ "DELETED" := by
    rcases htype with h | h <;> rw [h] <;> decide
  have hrun := hes s hs
  obtain ⟨_, s₂, hfirst, hrun⟩ := Raising.bind_eq_ok_iff.1 hrun
  obtain ⟨_, s₁, hphase, hconditions⟩ := Raising.bind_eq_ok_iff.1 hfirst
  change (if _ then _ else _ : Raising (PodObjectEventsLog υ) PyError Unit) s = _
  rw [if_neg (not_not.2 hchanged.1), if_neg hchanged.2, bind_of_ok hphase, bind_of_ok hconditions,
    bind_of_ok hrun]
  rfl

/-- A reader puts the changes into what is known. -/
theorem foldl_replayEvent {es : List (PodObjectLoggedEvent υ)}
    (h : ∀ e ∈ es, e.type ≠ .podDeleted) (known : PodItem υ → Option (JsonObject υ)) :
    es.foldl replayEvent known = DeltaLog.applyItems known (es.filterMap loggedItem) := by
  induction es generalizing known with
  | nil => rfl
  | cons e es ih =>
    obtain ⟨he, hes⟩ := List.forall_mem_cons.1 h
    have hone : replayEvent known e = DeltaLog.applyItems known (loggedItem e).toList := by
      rw [replayEvent]
      split
      · next hdeleted => exact absurd hdeleted he
      · rfl
    rw [List.foldl_cons, hone, ih hes, List.filterMap_cons]
    cases loggedItem e <;> rfl

/-- An event as kubernetes sends it. -/
structure PodObjectRawEvent.Ok (parseTimestamp : υ → Except PyError ℚ)
    (event : PodObjectRawEvent υ) : Prop where
  type : event.type ∈ ["ADDED", "MODIFIED", "DELETED"]
  status : event.status.Ok parseTimestamp

/-- **One event**: it brings a reader of the log from the last status to its own, and one that
repeats the last status is not logged. -/
theorem exists_updatePodState (hlast : last.Ok parseTimestamp) (hevent : event.Ok parseTimestamp) :
    ∃ es, (∀ s, s.lastStatus event.podName = last →
        updatePodState parseTimestamp (.pod event) s = (.ok (), (s.logAll es).setLast event)) ∧
      (∀ e ∈ es, e.podName = event.podName) ∧
      (∀ known, DeltaLog.Agrees dictEq known (statusItems last) →
        DeltaLog.Agrees dictEq (es.foldl replayEvent known) (statusItems event.status)) ∧
      (event.type ≠ "DELETED" → event.status = last → es = []) := by
  by_cases hdeleted : event.type = "DELETED"
  · refine ⟨[⟨.podDeleted, event.podName, none, none, none, event⟩], fun s _ => ?_, ?_, ?_,
      fun h => absurd hdeleted h⟩
    · change (if _ then _ else _ : Raising (PodObjectEventsLog υ) PyError Unit) _ = _
      rw [if_neg (not_not.2 hevent.type), if_pos hdeleted]
      rfl
    · exact List.forall_mem_singleton.2 rfl
    · exact fun known _ p hp =>
        ⟨p.2, (dictGet_eq_some_iff hevent.status.nodup_keys).2 hp, dictEq_refl _⟩
  · have htype : event.type = "ADDED" ∨ event.type = "MODIFIED" := by
      simpa [hdeleted] using hevent.type
    obtain ⟨es, hes, hall, hitems⟩ := exists_logs_of_ok hlast hevent.status htype
    refine ⟨es, hes, fun e he => (hall e he).1, fun known hknown => ?_, fun _ hsame => ?_⟩
    · rw [foldl_replayEvent fun e he => (hall e he).2.1, hitems]
      exact DeltaLog.agrees_applyItems dictEq_refl dictEq_trans hevent.status.nodup_keys hknown
    · rw [hsame, DeltaLog.delta_self dictEq_refl hlast.nodup_keys, List.filterMap_eq_nil_iff]
        at hitems
      refine List.eq_nil_iff_forall_not_mem.2 fun e he => ?_
      obtain ⟨-, -, hsome⟩ := hall e he
      rw [hitems e he] at hsome
      cases hsome

/-! ### Runs -/

/-- The status of the last of the events about a pod. -/
def statusAfter (events : List (PodObjectRawEvent υ)) (podName : String) : PodStatus υ :=
  (((events.filter fun event => event.podName = podName).getLast?).map
    PodObjectRawEvent.status).getD ⟨none, none, none⟩

/-- The events that are not about a pod as it was already. -/
def withoutRepeats (before : List (PodObjectRawEvent υ)) :
    List (PodObjectRawEvent υ) → List (PodObjectRawEvent υ)
  | [] => []
  | event :: events =>
    if event.type ≠ "DELETED" ∧ event.status = statusAfter before event.podName then
      withoutRepeats before events
    else event :: withoutRepeats (before ++ [event]) events

omit [DecidableEq υ] in
theorem statusAfter_snoc (events : List (PodObjectRawEvent υ)) (event : PodObjectRawEvent υ)
    (podName : String) : statusAfter (events ++ [event]) podName =
      if event.podName = podName then event.status else statusAfter events podName := by
  rw [statusAfter, List.filter_append]
  by_cases h : event.podName = podName
  · simp [h]
  · simp [h, statusAfter]

omit [DecidableEq υ] in
theorem statusAfter_ok {events : List (PodObjectRawEvent υ)}
    (h : ∀ event ∈ events, event.Ok parseTimestamp) (podName : String) :
    (statusAfter events podName).Ok parseTimestamp := by
  rw [statusAfter]
  cases hlast : (events.filter fun event => event.podName = podName).getLast? with
  | none => exact podStatus_ok_empty parseTimestamp
  | some event => exact (h event (List.mem_of_mem_filter (List.mem_of_getLast? hlast))).status

omit [DecidableEq υ] in
theorem called_logAll (s : PodObjectEventsLog υ) (es : List (PodObjectLoggedEvent υ)) :
    (s.logAll es).called = s.called ++ es := by
  induction es generalizing s with
  | nil => exact (List.append_nil _).symm
  | cons e es ih => exact (ih _).trans (List.append_assoc ..)

omit [DecidableEq υ] in
theorem queue_logAll (s : PodObjectEventsLog υ) (es : List (PodObjectLoggedEvent υ))
    (podName : String) : (s.logAll es).queue podName =
      s.queue podName ++ es.filter fun e => e.podName = podName := by
  induction es generalizing s with
  | nil => exact (List.append_nil _).symm
  | cons e es ih =>
    have hone : (s.logEventAndCallback e).queue podName =
        s.queue podName ++ [e].filter fun e => e.podName = podName := by
      rw [PodObjectEventsLog.queue, PodObjectEventsLog.queue,
        PodObjectEventsLog.logEventAndCallback, dictGet_dictSet]
      by_cases h : e.podName = podName
      · simp [h]
      · simp [h]
    rw [List.filter_cons]
    refine (ih _).trans ?_
    rw [hone]
    by_cases h : e.podName = podName <;> simp [h]

omit [DecidableEq υ] in
/-- What is logged depends on what was logged before only. -/
theorem podEventQueues_logAll {s s' : PodObjectEventsLog υ}
    (h : s.podEventQueues = s'.podEventQueues) (es : List (PodObjectLoggedEvent υ)) :
    (s.logAll es).podEventQueues = (s'.logAll es).podEventQueues := by
  induction es generalizing s s' with
  | nil => exact h
  | cons e es ih =>
    refine ih (?_ : dictSet _ _ _ = dictSet _ _ _)
    rw [h]

omit [DecidableEq υ] in
@[simp] theorem lastStatus_setLast (s : PodObjectEventsLog υ) (event : PodObjectRawEvent υ)
    (podName : String) : (s.setLast event).lastStatus podName =
      if event.podName = podName then event.status else s.lastStatus podName := by
  rw [PodObjectEventsLog.lastStatus, PodObjectEventsLog.setLast, dictGet_dictSet]
  by_cases h : event.podName = podName
  · simp [h]
  · simp [h, PodObjectEventsLog.lastStatus]

/-- The log after some events. -/
structure LogInv (before : List (PodObjectRawEvent υ)) (s : PodObjectEventsLog υ) : Prop where
  last : ∀ podName, s.lastStatus podName = statusAfter before podName
  agrees : ∀ podName,
    DeltaLog.Agrees dictEq (replay (s.queue podName)) (statusItems (statusAfter before podName))
  called : ∀ podName, (s.called.filter fun e => e.podName = podName) = s.queue podName

theorem logInv_initial : LogInv [] (.initial : PodObjectEventsLog υ) :=
  ⟨fun _ => rfl, nofun, fun _ => rfl⟩

/-- One more event. -/
theorem LogInv.step {before : List (PodObjectRawEvent υ)} {s : PodObjectEventsLog υ}
    (h : LogInv before s) {es : List (PodObjectLoggedEvent υ)}
    (hpod : ∀ e ∈ es, e.podName = event.podName)
    (hagrees : ∀ known,
      DeltaLog.Agrees dictEq known (statusItems (statusAfter before event.podName)) →
        DeltaLog.Agrees dictEq (es.foldl replayEvent known) (statusItems event.status)) :
    LogInv (before ++ [event]) ((s.logAll es).setLast event) where
  last podName := by rw [lastStatus_setLast, lastStatus_logAll, statusAfter_snoc, h.last]
  agrees podName := by
    change DeltaLog.Agrees dictEq (replay ((s.logAll es).queue podName)) _
    rw [queue_logAll, replay, List.foldl_append, statusAfter_snoc]
    by_cases heq : event.podName = podName
    · rw [if_pos heq, List.filter_eq_self.2 fun e he => decide_eq_true ((hpod e he).trans heq)]
      exact hagrees _ (heq ▸ h.agrees podName)
    · rw [if_neg heq, List.filter_eq_nil_iff.2 fun e he => by simpa [hpod e he] using heq]
      exact h.agrees podName
  called podName := by
    change ((s.logAll es).called.filter _) = (s.logAll es).queue podName
    rw [called_logAll, queue_logAll, List.filter_append, h.called]

/-- All events, one after the other. -/
theorem LogInv.run {before events : List (PodObjectRawEvent υ)} {s : PodObjectEventsLog υ}
    (h : LogInv before s) (hbefore : ∀ event ∈ before, event.Ok parseTimestamp)
    (hevents : ∀ event ∈ events, event.Ok parseTimestamp) :
    ∃ s', updateAll parseTimestamp (events.map .pod) s = (.ok (), s') ∧
      LogInv (before ++ events) s' := by
  induction events generalizing before s with
  | nil => exact ⟨s, rfl, (List.append_nil before).symm ▸ h⟩
  | cons event events ih =>
    obtain ⟨hevent, hevents⟩ := List.forall_mem_cons.1 hevents
    obtain ⟨es, hes, hpod, hagrees, -⟩ :=
      exists_updatePodState (statusAfter_ok hbefore event.podName) hevent
    have hbefore' : ∀ e ∈ before ++ [event], e.Ok parseTimestamp :=
      List.forall_mem_append.2 ⟨hbefore, List.forall_mem_singleton.2 hevent⟩
    obtain ⟨s', hrun, hs'⟩ := ih (h.step hpod hagrees) hbefore' hevents
    rw [List.append_assoc] at hs'
    exact ⟨s', (bind_of_ok (hes s (h.last event.podName))).trans hrun, hs'⟩

/-- **The logged changes say how every pod is**: no event that kubernetes sends makes the log fail,
and who puts the logged events of a pod together knows every item of the last event about it, its
phase, its conditions and its containers, with its value.  What the last event does not have any more
may still be there.  The callbacks get what is put into the queues. -/
theorem replay_updateAll {events : List (PodObjectRawEvent υ)}
    (h : ∀ event ∈ events, event.Ok parseTimestamp) :
    ∃ s, updateAll parseTimestamp (events.map .pod) .initial = (.ok (), s) ∧
      ∀ podName, DeltaLog.Agrees dictEq (replay (s.queue podName))
          (statusItems (statusAfter events podName)) ∧
        (s.called.filter fun e => e.podName = podName) = s.queue podName := by
  obtain ⟨s, hrun, hs⟩ := logInv_initial.run nofun h
  exact ⟨s, hrun, fun podName => ⟨hs.agrees podName, hs.called podName⟩⟩

/-- The events about a pod that starts, is told of again, and is deleted. -/
def podEvents : List (PodObjectRawEvent String) :=
  let status phase ready : PodStatus String :=
    ⟨some phase, some [[("type", "Ready"), ("status", ready)]],
      some [[("name", "redis"), ("state", ready), ("ready", ready)]]⟩
  [⟨"ADDED", "data-feed", status "Pending" "False"⟩,
    ⟨"MODIFIED", "data-feed", status "Running" "True"⟩,
    ⟨"ADDED", "data-feed", status "Running" "True"⟩,
    ⟨"DELETED", "data-feed", status "Running" "True"⟩]

theorem podEvents_ok : ∀ event ∈ podEvents, event.Ok fun _ => .ok 0 := by
  have hok : ∀ phase ready : String, PodStatus.Ok (fun _ => .ok 0)
      ⟨some phase, some [[("type", "Ready"), ("status", ready)]],
        some [[("name", "redis"), ("state", ready), ("ready", ready)]]⟩ := by
    intro phase ready
    refine ⟨⟨?_, ?_, ?_⟩, ⟨?_, ?_, ?_⟩, ?_⟩ <;> simp [dictGet, clusterTime]
  simp only [podEvents, List.forall_mem_cons]
  exact ⟨⟨by decide, hok ..⟩, ⟨by decide, hok ..⟩, ⟨by decide, hok ..⟩, ⟨by decide, hok ..⟩,
    List.forall_mem_nil _⟩

theorem replay_updateAll_podEvents :
    ∃ s, updateAll (fun _ => .ok 0) (podEvents.map .pod) .initial = (.ok (), s) ∧
      ∀ podName, DeltaLog.Agrees dictEq (replay (s.queue podName))
          (statusItems (statusAfter podEvents podName)) ∧
        (s.called.filter fun e => e.podName = podName) = s.queue podName :=
  replay_updateAll podEvents_ok

/-- Two logs with the same events. -/
structure SameLog (before : List (PodObjectRawEvent υ)) (s s' : PodObjectEventsLog υ) : Prop where
  queues : s.podEventQueues = s'.podEventQueues
  called : s.called = s'.called
  last : ∀ podName, s.lastStatus podName = statusAfter before podName
  last' : ∀ podName, s'.lastStatus podName = statusAfter before podName

omit [DecidableEq υ] in
theorem SameLog.step {before : List (PodObjectRawEvent υ)} {s s' : PodObjectEventsLog υ}
    (h : SameLog before s s') (event : PodObjectRawEvent υ) (es : List (PodObjectLoggedEvent υ)) :
    SameLog (before ++ [event]) ((s.logAll es).setLast event) ((s'.logAll es).setLast event) where
  queues := podEventQueues_logAll h.queues es
  called := by
    change (s.logAll es).called = (s'.logAll es).called
    rw [called_logAll, called_logAll, h.called]
  last podName := by rw [lastStatus_setLast, lastStatus_logAll, statusAfter_snoc, h.last]
  last' podName := by rw [lastStatus_setLast, lastStatus_logAll, statusAfter_snoc, h.last']

theorem SameLog.run {before events : List (PodObjectRawEvent υ)}
    {s s' : PodObjectEventsLog υ} (h : SameLog before s s')
    (hbefore : ∀ event ∈ before, event.Ok parseTimestamp)
    (hevents : ∀ event ∈ events, event.Ok parseTimestamp) :
    ∃ t t', updateAll parseTimestamp (events.map .pod) s = (.ok (), t) ∧
      updateAll parseTimestamp ((withoutRepeats before events).map .pod) s' = (.ok (), t') ∧
        t.podEventQueues = t'.podEventQueues ∧ t.called = t'.called := by
  induction events generalizing before s s' with
  | nil => exact ⟨s, s', rfl, rfl, h.queues, h.called⟩
  | cons event events ih =>
    obtain ⟨hevent, hevents⟩ := List.forall_mem_cons.1 hevents
    obtain ⟨es, hes, -, -, hrepeat⟩ :=
      exists_updatePodState (statusAfter_ok hbefore event.podName) hevent
    have hstep := hes s (h.last event.podName)
    rw [withoutRepeats]
    split_ifs with hagain
    · -- the status is the one that the log has
      obtain rfl := hrepeat hagain.1 hagain.2
      have hsame : SameLog before (s.setLast event) s' := by
        refine ⟨h.queues, h.called, fun podName => ?_, h.last'⟩
        rw [lastStatus_setLast, h.last]
        split_ifs with heq
        · exact heq ▸ hagain.2
        · rfl
      obtain ⟨t, t', ht, ht', hlog⟩ := ih hsame hbefore hevents
      exact ⟨t, t', (bind_of_ok hstep).trans ht, ht', hlog⟩
    · have hbefore' : ∀ e ∈ before ++ [event], e.Ok parseTimestamp :=
        List.forall_mem_append.2 ⟨hbefore, List.forall_mem_singleton.2 hevent⟩
      obtain ⟨t, t', ht, ht', hlog⟩ := ih (h.step event es) hbefore' hevents
      exact ⟨t, t', (bind_of_ok hstep).trans ht,
        (bind_of_ok (hes s' (h.last' event.podName))).trans ht', hlog⟩

/-- **What the restarted streams tell again is not logged again**: the queues and the callbacks get
what they would get if every message about a pod that has not changed were left out. -/
theorem updateAll_withoutRepeats {events : List (PodObjectRawEvent υ)}
    (h : ∀ event ∈ events, event.Ok parseTimestamp) :
    ∃ s s', updateAll parseTimestamp (events.map .pod) .initial = (.ok (), s) ∧
      updateAll parseTimestamp ((withoutRepeats [] events).map .pod) .initial = (.ok (), s') ∧
        s.podEventQueues = s'.podEventQueues ∧ s.called = s'.called :=
  SameLog.run ⟨rfl, rfl, fun _ => rfl, fun _ => rfl⟩ nofun h

theorem updateAll_withoutRepeats_podEvents :
    (withoutRepeats [] podEvents).length = 3 ∧
      ∃ s s', updateAll (fun _ => .ok 0) (podEvents.map .pod) .initial = (.ok (), s) ∧
        updateAll (fun _ => .ok 0) ((withoutRepeats [] podEvents).map .pod) .initial =
          (.ok (), s') ∧
        s.podEventQueues = s'.podEventQueues ∧ s.called = s'.called :=
  ⟨by decide, updateAll_withoutRepeats podEvents_ok⟩

end Logs

end Perf

end Svoe
