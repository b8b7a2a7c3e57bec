import Svoe.Common.Dict
import Svoe.Transition.Basic

/-!
# Waking up the estimator

The estimator of a pod records a phase in `add_phase_event`, and waits in `wait_event` for an object
that it installs there.  Callbacks of the watcher call `wake_event`, which waits until there is an
object for the pod, and sets it.  The object of a phase stays until the next one is installed: a
callback that comes between the two steps of the estimator sets the object of the phase before.

* `WakeInv.step` : a callback that is called in a phase sets the object of this phase, if it does not
  look for it too early.
* `wakes_of_allSteps` : then no wait times out for which there was a callback.
-/

namespace Svoe

namespace Perf

/-- `PhaseResultState`, without the result events. -/
structure PhaseResultState where
  phaseEventsPerPod : List (String × List String)
  /-- Objects are numbers. -/
  waitEventPerPod : List (String × ℕ)
  /-- Which of the objects are set. -/
  events : List Bool
  deriving DecidableEq, Repr

namespace PhaseResultState

variable (s : PhaseResultState) (podName : String)

/-- The phases of a pod. -/
def phases : List String := (dictGet s.phaseEventsPerPod podName).getD []

/-- `get_last_phase_event_type`. -/
def getLastPhaseEventType : Option String := (s.phases podName).getLast?

/-- `add_phase_event`. -/
def addPhaseEvent (phase : String) : PhaseResultState :=
  { s with
    phaseEventsPerPod := dictSet s.phaseEventsPerPod podName (s.phases podName ++ [phase]) }

/-- `wait_event_per_pod[pod_name] = threading.Event()`. -/
def installEvent : PhaseResultState :=
  { s with
    waitEventPerPod := dictSet s.waitEventPerPod podName s.events.length
    events := s.events ++ [false] }

/-- `is_set()`. -/
def isSet (event : ℕ) : Bool := s.events.getD event false

/-- `set()`. -/
def setEvent (event : ℕ) : PhaseResultState := { s with events := s.events.set event true }

end PhaseResultState

/-- Where the estimator of a pod is. -/
inductive EstimatorPc where
  | idle
  /-- Behind `add_phase_event`, before `wait_event`. -/
  | recorded
  /-- In `wait`. -/
  | waiting (event : ℕ)
  deriving DecidableEq, Repr

/-- Where a callback is. -/
inductive WakePc where
  /-- Before the test of the last phase. -/
  | received
  /-- At the head of the loop of `wake_event`. -/
  | checking (retryCount : ℕ)
  /-- Behind the loop. -/
  | leaving
  /-- Before `set()`. -/
  | found (event : ℕ)
  | returned
  deriving DecidableEq, Repr

/-- A callback for an event that wakes the estimator. -/
structure WakeCall where
  podName : String
  /-- The phase to which the event belongs; interrupts belong to none. -/
  phase : Option String
  maxRetries : ℕ
  /-- The number of the phase in which `wake_event` was called, before the end of its wait. -/
  issuedIn : Option ℕ
  pc : WakePc
  deriving DecidableEq, Repr

/-- The estimators and the callbacks that share a state. -/
structure WakeSystem where
  state : PhaseResultState
  estimators : List (String × EstimatorPc)
  wakes : List WakeCall
  deriving DecidableEq, Repr

/-- What happens next. -/
inductive WakeAction where
  | addPhaseEvent (podName phase : String)
  | waitEvent (podName : String)
  | triggered (podName : String)
  | timedOut (podName : String)
  | callback (podName : String) (phase : Option String) (maxRetries : ℕ)
  | advance (i : ℕ)
  deriving DecidableEq, Repr

namespace WakeSystem

/-- Nothing has happened yet. -/
def init : WakeSystem := ⟨⟨[], [], []⟩, [], []⟩

variable (s : WakeSystem) (podName : String)

/-- Where the estimator of the pod is. -/
def estimatorPc : EstimatorPc := (dictGet s.estimators podName).getD .idle

/-- The number of phases that the estimator of the pod has recorded. -/
def phaseNumber : ℕ := (s.state.phases podName).length

/-- The phase whose wait has not ended. -/
def openPhase : Option ℕ :=
  if s.estimatorPc podName = .idle then none else some (s.phaseNumber podName)

/-- The estimator of the pod waits for an object that is not set. -/
def waitsUnset : Bool :=
  match s.estimatorPc podName with
  | .waiting event => !s.state.isSet event
  | .idle | .recorded => false

/-- The estimator of the pod goes on. -/
def setEstimator (pc : EstimatorPc) : WakeSystem :=
  { s with estimators := dictSet s.estimators podName pc }

end WakeSystem

/-- A step of a callback. -/
def wakeStep (s : WakeSystem) (w : WakeCall) : Option (PhaseResultState × WakeCall) :=
  match w.pc with
  | .received =>
    if w.phase = none ∨ s.state.getLastPhaseEventType w.podName = w.phase then
      some (s.state, { w with issuedIn := s.openPhase w.podName, pc := .checking 0 })
    else some (s.state, { w with pc := .returned })
  | .checking retryCount =>
    if w.podName ∉ s.state.waitEventPerPod.map Prod.fst ∧ retryCount ≤ w.maxRetries then
      some (s.state, { w with pc := .checking (retryCount + 1) })
    else some (s.state, { w with pc := .leaving })
  | .leaving =>
    match dictGet s.state.waitEventPerPod w.podName with
    | some event => some (s.state, { w with pc := .found event })
    -- `[Err] Pod not in wait state`
    | none => some (s.state, { w with pc := .returned })
  | .found event => some (s.state.setEvent event, { w with pc := .returned })
  | .returned => none

/-- A step of an estimator or of a callback. -/
def wakeSystemStep (s : WakeSystem) : WakeAction → Option WakeSystem
  | .addPhaseEvent podName phase =>
    if s.estimatorPc podName = .idle then
      some ({ s with state := s.state.addPhaseEvent podName phase }.setEstimator podName .recorded)
    else none
  | .waitEvent podName =>
    if s.estimatorPc podName = .recorded then
      some ({ s with state := s.state.installEvent podName }.setEstimator podName
        (.waiting s.state.events.length))
    else none
  | .triggered podName =>
    match s.estimatorPc podName with
    | .waiting event => if s.state.isSet event then some (s.setEstimator podName .idle) else none
    | .idle | .recorded => none
  | .timedOut podName =>
    if s.waitsUnset podName then some (s.setEstimator podName .idle) else none
  | .callback podName phase maxRetries =>
    some { s with wakes := s.wakes ++ [⟨podName, phase, maxRetries, none, .received⟩] }
  | .advance i =>
    s.wakes[i]?.bind fun w =>
      (wakeStep s w).map fun p => { s with state := p.1, wakes := s.wakes.set i p.2 }

/-- A wait that times out is one of a phase in which no callback has called `wake_event`. -/
def NoWakeLost (s : WakeSystem) : WakeAction → Prop
  | .timedOut podName => s.waitsUnset podName →
      ∀ w ∈ s.wakes, w.podName = podName → w.issuedIn ≠ s.openPhase podName
  | .addPhaseEvent _ _ | .waitEvent _ | .triggered _ | .callback _ _ _ | .advance _ => True

/-- A callback that was called in the phase of its pod does not look for the object of the phase
before it is installed, and a wait does not time out while such a callback is on its way. -/
def WakesInTime (s : WakeSystem) : WakeAction → Prop
  | .advance i => ∀ w ∈ s.wakes[i]?, w.pc = .leaving → w.issuedIn = s.openPhase w.podName →
      s.estimatorPc w.podName ≠ .recorded
  | .timedOut podName => ∀ w ∈ s.wakes, w.podName = podName →
      w.issuedIn = s.openPhase podName → w.pc = .returned
  | .addPhaseEvent _ _ | .waitEvent _ | .triggered _ | .callback _ _ _ => True

instance (s : WakeSystem) : (a : WakeAction) → Decidable (NoWakeLost s a)
  | .timedOut _ => inferInstanceAs (Decidable (_ → _))
  | .addPhaseEvent _ _ | .waitEvent _ | .triggered _ | .callback _ _ _ | .advance _ => .isTrue trivial

instance (s : WakeSystem) : (a : WakeAction) → Decidable (WakesInTime s a)
  | .timedOut podName => inferInstanceAs (Decidable (∀ w ∈ s.wakes, w.podName = podName →
      w.issuedIn = s.openPhase podName → w.pc = .returned))
  | .advance i => inferInstanceAs (Decidable (∀ w ∈ s.wakes[i]?, w.pc = .leaving →
      w.issuedIn = s.openPhase w.podName → s.estimatorPc w.podName ≠ .recorded))
  | .addPhaseEvent _ _ | .waitEvent _ | .triggered _ | .callback _ _ _ => .isTrue trivial

/-! ### Frames -/

section Frames

variable {s : PhaseResultState} {t : WakeSystem} {event event' : ℕ}

theorem phases_addPhaseEvent (podName podName' phase : String) :
    (s.addPhaseEvent podName phase).phases podName' =
      if podName = podName' then s.phases podName ++ [phase] else s.phases podName' := by
  rw [PhaseResultState.phases, PhaseResultState.addPhaseEvent, dictGet_dictSet]
  split_ifs <;> rfl

theorem estimatorPc_setEstimator (podName podName' : String) (pc : EstimatorPc) :
    (t.setEstimator podName pc).estimatorPc podName' =
      if podName = podName' then pc else t.estimatorPc podName' := by
  rw [WakeSystem.estimatorPc, WakeSystem.setEstimator, dictGet_dictSet]
  split_ifs <;> rfl

theorem waitsUnset_iff {podName : String} : t.waitsUnset podName ↔
    ∃ event, t.estimatorPc podName = .waiting event ∧ t.state.isSet event = false := by
  unfold WakeSystem.waitsUnset
  cases t.estimatorPc podName with
  | waiting event => simp
  | _ => simp

theorem isSet_installEvent (podName : String) (h : s.isSet event) :
    (s.installEvent podName).isSet event := by
  unfold PhaseResultState.isSet PhaseResultState.installEvent at *
  rw [List.getD_eq_getElem?_getD] at *
  cases hevent : s.events[event]? with
  | none => rw [hevent] at h; cases h
  | some b =>
    rw [List.getElem?_append_left (List.getElem?_eq_some_iff.1 hevent).1]
    exact h

theorem isSet_setEvent (h : s.isSet event') : (s.setEvent event).isSet event' := by
  unfold PhaseResultState.isSet PhaseResultState.setEvent at *
  rw [List.getD_eq_getElem?_getD] at *
  rw [List.getElem?_set]
  split_ifs with heq hlt
  · rfl
  · rw [List.getElem?_eq_none (heq ▸ Nat.le_of_not_lt hlt)] at h
    cases h
  · exact h

theorem isSet_setEvent_self (h : event < s.events.length) : (s.setEvent event).isSet event := by
  unfold PhaseResultState.isSet PhaseResultState.setEvent
  rw [List.getD_eq_getElem?_getD, List.getElem?_set_self h]
  rfl

end Frames

/-! ### Callbacks of a phase -/

/-- What a callback of the current phase does reaches the estimator. -/
def WakeCall.Reaches (s : WakeSystem) (w : WakeCall) : Prop :=
  match w.pc with
  -- not called yet
  | .received => False
  | .checking _ | .leaving => True
  | .found event => s.estimatorPc w.podName = .waiting event
  | .returned => ∃ event, s.estimatorPc w.podName = .waiting event ∧ s.state.isSet event

/-- Estimators wait for the object in the map, and callbacks of their phases reach them. -/
structure WakeInv (s : WakeSystem) : Prop where
  waiting : ∀ podName event, s.estimatorPc podName = .waiting event →
    dictGet s.state.waitEventPerPod podName = some event
  installed : ∀ podName event, dictGet s.state.waitEventPerPod podName = some event →
    event < s.state.events.length
  issued_le : ∀ w ∈ s.wakes, ∀ k, w.issuedIn = some k → k ≤ s.phaseNumber w.podName
  reaches : ∀ w ∈ s.wakes, s.estimatorPc w.podName ≠ .idle →
    w.issuedIn = some (s.phaseNumber w.podName) → w.Reaches s

variable {s s' : WakeSystem} {a : WakeAction} {w w' : WakeCall} {podName : String}

/-- What the callback reached stays reached, while the estimator does not move. -/
theorem WakeCall.Reaches.congr (h : w.Reaches s)
    (hpc : s'.estimatorPc w.podName = s.estimatorPc w.podName)
    (hset : ∀ event, s.state.isSet event → s'.state.isSet event) : w.Reaches s' := by
  unfold WakeCall.Reaches at *
  rw [hpc]
  cases hw : w.pc with
  | returned =>
    rw [hw] at h
    obtain ⟨event, hwaiting, hevent⟩ := h
    exact ⟨event, hwaiting, hset event hevent⟩
  | _ =>
    rw [hw] at h
    exact h

theorem WakeInv.init : WakeInv .init := by
  refine ⟨fun podName event h => ?_, fun podName event h => ?_, fun w hw => ?_, fun w hw => ?_⟩
  · cases h
  · cases h
  · cases hw
  · cases hw

/-- The wait of the estimator ends. -/
theorem WakeInv.setIdle (hinv : WakeInv s) (podName : String) :
    WakeInv (s.setEstimator podName .idle) := by
  refine ⟨fun podName' event h => ?_, hinv.installed, hinv.issued_le, fun w hw hpc hissued => ?_⟩
  · rw [estimatorPc_setEstimator] at h
    split_ifs at h
    exact hinv.waiting podName' event h
  · rw [estimatorPc_setEstimator] at hpc
    split_ifs at hpc with heq
    · exact absurd rfl hpc
    · exact (hinv.reaches w hw hpc hissued).congr
        ((estimatorPc_setEstimator _ _ _).trans (if_neg heq)) fun _ h => h

/-- A callback changes the objects only, and sets them only. -/
theorem wakeStep_frame {state : PhaseResultState} (h : wakeStep s w = some (state, w')) :
    w'.podName = w.podName ∧ state = { s.state with events := state.events } ∧
      state.events.length = s.state.events.length ∧
      ∀ event, s.state.isSet event → state.isSet event := by
  unfold wakeStep at h
  cases hpc : w.pc with
  | received =>
    rw [hpc] at h
    dsimp only at h
    split_ifs at h
    all_goals
      obtain ⟨rfl, rfl⟩ := Prod.mk.inj (Option.some.inj h)
      exact ⟨rfl, rfl, rfl, fun _ h => h⟩
  | checking retryCount =>
    rw [hpc] at h
    dsimp only at h
    split_ifs at h
    all_goals
      obtain ⟨rfl, rfl⟩ := Prod.mk.inj (Option.some.inj h)
      exact ⟨rfl, rfl, rfl, fun _ h => h⟩
  | leaving =>
    rw [hpc] at h
    cases hevent : dictGet s.state.waitEventPerPod w.podName
    all_goals
      rw [hevent] at h
      obtain ⟨rfl, rfl⟩ := Prod.mk.inj (Option.some.inj h)
      exact ⟨rfl, rfl, rfl, fun _ h => h⟩
  | found event =>
    rw [hpc] at h
    obtain ⟨rfl, rfl⟩ := Prod.mk.inj (Option.some.inj h)
    exact ⟨rfl, rfl, List.length_set, fun _ => isSet_setEvent⟩
  | returned =>
    rw [hpc] at h
    cases h

/-- A callback of the current phase that does not look for the object too early finds the one
that the estimator waits for. -/
theorem WakeInv.exists_waiting (hinv : WakeInv s)
    (hintime : w.issuedIn = s.openPhase w.podName → s.estimatorPc w.podName ≠ .recorded)
    (hidle : s.estimatorPc w.podName ≠ .idle)
    (hissued : w.issuedIn = some (s.phaseNumber w.podName)) :
    ∃ event, s.estimatorPc w.podName = .waiting event ∧
      dictGet s.state.waitEventPerPod w.podName = some event := by
  have hrecorded := hintime (by rw [WakeSystem.openPhase, if_neg hidle, hissued])
  cases hestimator : s.estimatorPc w.podName with
  | idle => exact absurd hestimator hidle
  | recorded => exact absurd hestimator hrecorded
  | waiting event => exact ⟨event, rfl, hinv.waiting _ _ hestimator⟩

/-- **A step of a callback of the current phase**, which does not look for the object too early. -/
theorem WakeInv.wakeStep (hinv : WakeInv s) (hw : w ∈ s.wakes)
    (hintime : w.pc = .leaving → w.issuedIn = s.openPhase w.podName →
      s.estimatorPc w.podName ≠ .recorded) {state : PhaseResultState}
    (h : wakeStep s w = some (state, w')) :
    (∀ k, w'.issuedIn = some k → k ≤ s.phaseNumber w.podName) ∧
      (s.estimatorPc w.podName ≠ .idle → w'.issuedIn = some (s.phaseNumber w.podName) →
        w'.Reaches { s with state := state }) := by
  unfold Perf.wakeStep at h
  cases hpc : w.pc with
  | received =>
    rw [hpc] at h
    dsimp only at h
    split_ifs at h
    · obtain ⟨rfl, rfl⟩ := Prod.mk.inj (Option.some.inj h)
      refine ⟨fun k hk => ?_, fun _ _ => trivial⟩
      unfold WakeSystem.openPhase at hk
      split_ifs at hk
      exact Nat.le_of_eq (Option.some.inj hk).symm
    · obtain ⟨rfl, rfl⟩ := Prod.mk.inj (Option.some.inj h)
      refine ⟨hinv.issued_le w hw, fun hidle hissued => ?_⟩
      have hreaches := hinv.reaches w hw hidle hissued
      rw [WakeCall.Reaches, hpc] at hreaches
      exact hreaches.elim
  | checking retryCount =>
    rw [hpc] at h
    dsimp only at h
    split_ifs at h
    all_goals
      obtain ⟨rfl, rfl⟩ := Prod.mk.inj (Option.some.inj h)
      exact ⟨hinv.issued_le w hw, fun _ _ => trivial⟩
  | leaving =>
    rw [hpc] at h
    cases hget : dictGet s.state.waitEventPerPod w.podName with
    | none =>
      rw [hget] at h
      obtain ⟨rfl, rfl⟩ := Prod.mk.inj (Option.some.inj h)
      refine ⟨hinv.issued_le w hw, fun hidle hissued => ?_⟩
      obtain ⟨event, -, hevent⟩ := hinv.exists_waiting (hintime hpc) hidle hissued
      cases hget.symm.trans hevent
    | some event =>
      rw [hget] at h
      obtain ⟨rfl, rfl⟩ := Prod.mk.inj (Option.some.inj h)
      refine ⟨hinv.issued_le w hw, fun hidle hissued => ?_⟩
      -- the estimator waits, so that the object in the map is its own
      obtain ⟨event', hestimator, hevent⟩ := hinv.exists_waiting (hintime hpc) hidle hissued
      obtain rfl := Option.some.inj (hget.symm.trans hevent)
      exact hestimator
  | found event =>
    rw [hpc] at h
    obtain ⟨rfl, rfl⟩ := Prod.mk.inj (Option.some.inj h)
    refine ⟨hinv.issued_le w hw, fun hidle hissued => ?_⟩
    have hreaches := hinv.reaches w hw hidle hissued
    rw [WakeCall.Reaches, hpc] at hreaches
    refine ⟨event, hreaches, isSet_setEvent_self ?_⟩
    exact hinv.installed _ _ (hinv.waiting _ _ hreaches)
  | returned =>
    rw [hpc] at h
    cases h

/-- A new phase of a pod: no callback has been called in it yet. -/
theorem WakeInv.addPhaseEvent (hinv : WakeInv s) (podName phase : String) :
    WakeInv ({ s with state := s.state.addPhaseEvent podName phase }.setEstimator podName
      .recorded) := by
  have hphases : ∀ podName', s.phaseNumber podName' ≤
      ((s.state.addPhaseEvent podName phase).phases podName').length := fun podName' => by
    rw [phases_addPhaseEvent]
    split_ifs with heq
    · rw [← heq, List.length_append]
      exact Nat.le_add_right _ _
    · exact Nat.le_refl _
  refine ⟨fun podName' event hwaiting => ?_, hinv.installed,
    fun w hw k hk => Nat.le_trans (hinv.issued_le w hw k hk) (hphases _),
    fun w hw hpc hissued => ?_⟩
  · rw [estimatorPc_setEstimator] at hwaiting
    split_ifs at hwaiting
    exact hinv.waiting podName' event hwaiting
  · rw [estimatorPc_setEstimator] at hpc
    by_cases heq : podName = w.podName
    · -- the callback was called in a phase before
      have hle := hinv.issued_le w hw _ hissued
      rw [WakeSystem.phaseNumber, WakeSystem.phaseNumber, WakeSystem.setEstimator,
        phases_addPhaseEvent, if_pos heq, ← heq, List.length_append] at hle
      exact absurd hle (Nat.not_succ_le_self _)
    · rw [if_neg heq] at hpc
      rw [WakeSystem.phaseNumber, WakeSystem.setEstimator, phases_addPhaseEvent,
        if_neg heq] at hissued
      exact (hinv.reaches w hw hpc hissued).congr
        ((estimatorPc_setEstimator _ _ _).trans (if_neg heq)) fun _ h => h

/-- The estimator of a phase installs its object, for which no callback has looked yet. -/
theorem WakeInv.waitEvent (hinv : WakeInv s) (hrecorded : s.estimatorPc podName = .recorded) :
    WakeInv ({ s with state := s.state.installEvent podName }.setEstimator podName
      (.waiting s.state.events.length)) := by
  refine ⟨fun podName' event hwaiting => ?_, fun podName' event hget => ?_, hinv.issued_le,
    fun w hw hpc hissued => ?_⟩
  · rw [estimatorPc_setEstimator] at hwaiting
    rw [WakeSystem.setEstimator, PhaseResultState.installEvent, dictGet_dictSet]
    split_ifs at hwaiting ⊢
    · exact congrArg some (EstimatorPc.waiting.inj hwaiting)
    · exact hinv.waiting podName' event hwaiting
  · rw [WakeSystem.setEstimator, PhaseResultState.installEvent, dictGet_dictSet] at hget
    rw [WakeSystem.setEstimator, PhaseResultState.installEvent, List.length_append]
    split_ifs at hget
    · rw [← Option.some.inj hget]
      exact Nat.lt_succ_self _
    · exact Nat.lt_succ_of_lt (hinv.installed podName' event hget)
  · rw [estimatorPc_setEstimator] at hpc
    by_cases heq : podName = w.podName
    · -- no callback of this phase has looked for the object yet
      rw [heq] at hrecorded
      have hreaches := hinv.reaches w hw (hrecorded ▸ fun h => by cases h) hissued
      unfold WakeCall.Reaches at hreaches ⊢
      rw [hrecorded] at hreaches
      cases hw : w.pc <;> rw [hw] at hreaches
      case received => exact hreaches.elim
      case found event => cases hreaches
      case returned =>
        obtain ⟨event, hwaiting, -⟩ := hreaches
        cases hwaiting
      all_goals trivial
    · rw [if_neg heq] at hpc
      exact (hinv.reaches w hw hpc hissued).congr
        ((estimatorPc_setEstimator _ _ _).trans (if_neg heq)) fun _ => isSet_installEvent podName

/-- A step of a callback that does not look for the object too early. -/
theorem WakeInv.advance {i : ℕ} (hinv : WakeInv s) (hintime : WakesInTime s (.advance i))
    (h : wakeSystemStep s (.advance i) = some s') : WakeInv s' := by
  obtain ⟨w, hw, hmap⟩ := Option.bind_eq_some_iff.1 h
  obtain ⟨⟨state, w'⟩, hstep, rfl⟩ := Option.map_eq_some_iff.1 hmap
  have hmem : w ∈ s.wakes := List.mem_of_getElem? hw
  obtain ⟨hpod, hstate, hlength, hset⟩ := wakeStep_frame hstep
  obtain ⟨hissuedLe, hreaches⟩ := hinv.wakeStep hmem (hintime w hw) hstep
  have hmap : state.waitEventPerPod = s.state.waitEventPerPod := congrArg (·.waitEventPerPod) hstate
  have hphases : ∀ podName, (state.phases podName).length = s.phaseNumber podName := fun podName => by
    rw [hstate]
    rfl
  refine ⟨fun podName event hwaiting => ?_, fun podName event hget => ?_,
    fun v hv k hk => ?_, fun v hv hpc hissued => ?_⟩
  · exact (congrArg (dictGet · podName) hmap).trans (hinv.waiting podName event hwaiting)
  · rw [show dictGet state.waitEventPerPod podName = _ from congrArg (dictGet · podName) hmap]
      at hget
    exact hlength ▸ hinv.installed podName event hget
  · rw [WakeSystem.phaseNumber, hphases]
    rcases List.mem_or_eq_of_mem_set hv with hv | rfl
    · exact hinv.issued_le v hv k hk
    · exact hpod ▸ hissuedLe k hk
  · rw [WakeSystem.phaseNumber, hphases] at hissued
    rcases List.mem_or_eq_of_mem_set hv with hv | rfl
    · exact (hinv.reaches v hv hpc hissued).congr rfl hset
    · have hreached := hreaches (hpod ▸ hpc) (hpod ▸ hissued)
      exact hreached.congr rfl fun _ h => h

/-- **A step in time** keeps the callbacks of a phase with the estimator that waits in it. -/
theorem WakeInv.step (hinv : WakeInv s) (hintime : WakesInTime s a)
    (h : wakeSystemStep s a = some s') : WakeInv s' := by
  cases a with
  | addPhaseEvent podName phase =>
    rw [wakeSystemStep] at h
    split_ifs at h
    obtain rfl := Option.some.inj h
    exact hinv.addPhaseEvent podName phase
  | waitEvent podName =>
    rw [wakeSystemStep] at h
    split_ifs at h with hrecorded
    obtain rfl := Option.some.inj h
    exact hinv.waitEvent hrecorded
  | triggered podName =>
    rw [wakeSystemStep] at h
    cases hestimator : s.estimatorPc podName <;> rw [hestimator] at h
    case waiting event =>
      dsimp only at h
      split_ifs at h
      obtain rfl := Option.some.inj h
      exact hinv.setIdle podName
    all_goals cases h
  | timedOut podName =>
    rw [wakeSystemStep] at h
    split_ifs at h
    obtain rfl := Option.some.inj h
    exact hinv.setIdle podName
  | callback podName phase maxRetries =>
    obtain rfl := Option.some.inj h
    refine ⟨hinv.waiting, hinv.installed, fun w hw => ?_, fun w hw => ?_⟩
    · rcases List.mem_append.1 hw with hw | hw
      · exact hinv.issued_le w hw
      · obtain rfl := List.mem_singleton.1 hw
        rintro k ⟨⟩
    · rcases List.mem_append.1 hw with hw | hw
      · exact hinv.reaches w hw
      · obtain rfl := List.mem_singleton.1 hw
        rintro - ⟨⟩
  | advance i => exact hinv.advance hintime h

/-- A wait for which there was a callback does not time out. -/
theorem WakeInv.noWakeLost (hinv : WakeInv s) (hintime : WakesInTime s a) : NoWakeLost s a := by
  cases a with
  | timedOut podName =>
    rintro hunset w hw rfl hissued
    obtain ⟨event, hwaiting, hevent⟩ := waitsUnset_iff.1 hunset
    have hidle : s.estimatorPc w.podName ≠ .idle := hwaiting ▸ fun h => by cases h
    have hreturned := hintime w hw rfl hissued
    rw [WakeSystem.openPhase, if_neg hidle] at hissued
    have hreaches := hinv.reaches w hw hidle hissued
    rw [WakeCall.Reaches, hreturned] at hreaches
    obtain ⟨event', hwaiting', hset⟩ := hreaches
    obtain rfl := EstimatorPc.waiting.inj (hwaiting.symm.trans hwaiting')
    exact Bool.false_ne_true (hevent.symm.trans hset)
  | _ => trivial

/-- **No wake-up is lost** in runs in which callbacks come in time: a wait times out only if no
callback has called `wake_event` in its phase. -/
theorem wakes_of_allSteps {as : List WakeAction}
    (hintime : Transition.AllSteps wakeSystemStep WakesInTime .init as) :
    Transition.AllSteps wakeSystemStep NoWakeLost .init as := by
  have hstep : ∀ s a s', WakeInv s → WakesInTime s a → wakeSystemStep s a = some s' → WakeInv s' :=
    fun _ _ _ hinv => hinv.step
  exact Transition.allSteps_of_invariant hstep (fun s a hinv => hinv.noWakeLost) .init hintime

/-- A phase with its event. -/
def wokenPhase (podName phase : String) (i : ℕ) : List WakeAction :=
  [.addPhaseEvent podName phase, .waitEvent podName, .callback podName (some phase) 300, .advance i,
    .advance i, .advance i, .advance i, .triggered podName]

/-- In the second phase, the event comes before the object is installed. -/
def wokenTooEarly : List WakeAction :=
  wokenPhase "pod" "pull" 0 ++
    [.addPhaseEvent "pod" "start", .callback "pod" (some "start") 300, .advance 1, .advance 1,
      .advance 1, .advance 1, .waitEvent "pod", .timedOut "pod"]

/-- The object of the first phase is set again, and the wait of the second one times out. -/
theorem not_noWakeLost_wokenTooEarly :
    ¬ Transition.AllSteps wakeSystemStep NoWakeLost .init wokenTooEarly ∧
      (Transition.run wakeSystemStep .init wokenTooEarly).map (fun s => s.state.events) =
        some [true, false] := by
  decide +kernel

theorem wakes_of_allSteps_twoPhases : Transition.AllSteps wakeSystemStep NoWakeLost .init
    (wokenPhase "pod" "pull" 0 ++ wokenPhase "pod" "start" 1) :=
  wakes_of_allSteps (by decide +kernel)

end Perf

end Svoe
