import Svoe.Transition.Basic

/-!
# The ingest pipeline

`CatalogCryptotickPipeline` runs four kinds of coroutines on one event loop: `pipe_input` queues a
batch, `_schedule_tasks` has a batch filtered, stores its metadata and creates a task for every item
left, `_process_results` drops the refs of finished tasks, and `wait_to_finish` clears `is_running`
once the queue is empty.  An action runs one coroutine from one `await` to the next, or is an answer
from outside: the filter's, or a task that finishes.

`wait_to_finish` looks at the queue only.  A batch that the scheduler has popped but not yet turned
into tasks is dropped when `is_running` is cleared (`lossless_iff`).
-/

namespace Svoe

open Transition

variable {ι : Type*}

/-! ### State -/

/-- Where `_schedule_tasks` waits. -/
inductive Scheduler (ι : Type*) where
  /-- At the head of the loop: not started, or asleep because the queue was empty. -/
  | asleep
  /-- For `filter_input_batch`. -/
  | filtering (batch : List ι)
  /-- For `store_metadata`; the items left by the filter come next. -/
  | storing (items : List ι)
  /-- For a free slot; the items have no task yet. -/
  | waiting (items : List ι)
  | ended
  deriving DecidableEq

/-- Where `_process_results` waits. -/
inductive Processor where
  | asleep
  /-- In `_process_one`, for one of the refs. -/
  | waiting (refs : List ℕ)
  | ended
  deriving DecidableEq

/-- Where `wait_to_finish` waits. -/
inductive Waiter where
  | notCalled
  /-- At the start, or because the queue was not empty. -/
  | asleep
  /-- In `_process_one`, for one of the refs. -/
  | draining (refs : List ℕ)
  /-- In the sleeps at the end. -/
  | closing
  | returned
  deriving DecidableEq

/-- A task of `load_split_catalog_store_df`. -/
structure IngestTask (ι : Type*) where
  item : ι
  finished : Bool
  deriving DecidableEq

/-- The pipeline.  A ref is the number of its task in the order of creation. -/
structure Pipeline (ι : Type*) where
  /-- Batches for which `pipe_input` has not put anything yet. -/
  toPipe : List (List ι)
  inputQueue : List (List ι)
  isRunning : Bool
  resultsRefs : List ℕ
  tasks : List (IngestTask ι)
  /-- All items that `filter_input_batch` has left so far. -/
  left : List ι
  scheduler : Scheduler ι
  processor : Processor
  waiter : Waiter
  deriving DecidableEq

/-- What happens next. -/
inductive PipelineAction (ι : Type*) where
  /-- `pipe_input` puts one of the batches. -/
  | pipeInput (i : ℕ)
  /-- `_schedule_tasks` goes on after a sleep or after `store_metadata`. -/
  | schedule
  /-- `filter_input_batch` answers. -/
  | filtered (kept : List ι)
  | taskDone (ref : ℕ)
  /-- `_process_results` goes on; `ray.wait` gives the ref `ready`. -/
  | processResults (ready : ℕ)
  | callWaitToFinish
  /-- `wait_to_finish` goes on; `ray.wait` gives the ref `ready`. -/
  | waitToFinish (ready : ℕ)
  deriving DecidableEq

/-- The items that the scheduler has from the filter and that have no task yet. -/
def Scheduler.held : Scheduler ι → List ι
  | storing items | waiting items => items
  | asleep | filtering _ | ended => []

namespace Pipeline

/-- The pipeline before anything has happened. -/
def init (batches : List (List ι)) : Pipeline ι where
  toPipe := batches
  inputQueue := []
  isRunning := true
  resultsRefs := []
  tasks := []
  left := []
  scheduler := .asleep
  processor := .asleep
  waiter := .notCalled

/-- The items of the tasks, in the order of creation. -/
def taskItems (s : Pipeline ι) : List ι := s.tasks.map IngestTask.item

/-- A task is finished. -/
def isFinished (s : Pipeline ι) (ref : ℕ) : Bool := s.tasks[ref]?.any IngestTask.finished

/-! ### `_schedule_tasks` -/

/-- The head of the loop. -/
def scheduleHead (s : Pipeline ι) : Pipeline ι :=
  if s.isRunning = false then { s with scheduler := .ended }
  else match s.inputQueue with
    | [] => { s with scheduler := .asleep }
    | batch :: queue => { s with inputQueue := queue, scheduler := .filtering batch }

/-- `load_split_catalog_store_df.remote`. -/
def createTask (s : Pipeline ι) (item : ι) : Pipeline ι :=
  { s with
    tasks := s.tasks ++ [⟨item, false⟩]
    resultsRefs := s.resultsRefs ++ [s.tasks.length] }

/-- The loop over the items, and what comes behind it. -/
def scheduleItems (maxExecutingTasks : ℕ) (s : Pipeline ι) : List ι → Pipeline ι
  | [] => s.scheduleHead
  | item :: items =>
    if s.isRunning = true ∧ maxExecutingTasks ≤ s.resultsRefs.length then
      { s with scheduler := .waiting (item :: items) }
    else if s.isRunning = false then { s with scheduler := .ended }
    else scheduleItems maxExecutingTasks (s.createTask item) items

/-! ### `_process_results` and `wait_to_finish` -/

/-- `ray.wait(self.results_refs, num_returns=1)` and the update of the refs.  Until a ref is ready
the call would block the loop; here others may go on. -/
def rayWait (s : Pipeline ι) (ready : ℕ) : Option (Pipeline ι) :=
  if s.resultsRefs = [] then some s
  else if ready ∈ s.resultsRefs ∧ s.isFinished ready = true then
    some { s with resultsRefs := s.resultsRefs.erase ready }
  else none

/-- `_process_one`, after `asyncio.wait` for the refs. -/
def processOne (s : Pipeline ι) (refs : List ℕ) (ready : ℕ) : Option (Pipeline ι) :=
  if refs.any s.isFinished = true then s.rayWait ready else none

/-- The head of the loop of `_process_results`. -/
def processHead (s : Pipeline ι) : Pipeline ι :=
  { s with processor :=
      if s.isRunning = false then .ended
      else if s.resultsRefs ≠ [] then .waiting s.resultsRefs else .asleep }

/-- The head of the second loop of `wait_to_finish`. -/
def drainHead (s : Pipeline ι) : Pipeline ι :=
  { s with waiter := if s.resultsRefs ≠ [] then .draining s.resultsRefs else .closing }

/-! ### Steps -/

/-- One coroutine goes on, or an answer arrives. -/
def step [DecidableEq ι] (maxExecutingTasks : ℕ) (s : Pipeline ι) :
    PipelineAction ι → Option (Pipeline ι)
  | .pipeInput i =>
    if s.isRunning = true ∧ s.inputQueue.length ≤ 2 then
      s.toPipe[i]?.map fun batch =>
        { s with toPipe := s.toPipe.eraseIdx i, inputQueue := s.inputQueue ++ [batch] }
    else none
  | .schedule =>
    match s.scheduler with
    | .asleep => some s.scheduleHead
    | .storing items | .waiting items => some (s.scheduleItems maxExecutingTasks items)
    | .filtering _ | .ended => none
  | .filtered kept =>
    match s.scheduler with
    | .filtering batch =>
      if kept.Sublist batch then
        let s := { s with left := s.left ++ kept }
        -- metadata is stored only if there are items left
        if kept = [] then some (s.scheduleItems maxExecutingTasks [])
        else some { s with scheduler := .storing kept }
      else none
    | _ => none
  | .taskDone ref =>
    s.tasks[ref]?.map fun task =>
      { s with tasks := s.tasks.set ref { task with finished := true } }
  | .processResults ready =>
    match s.processor with
    | .asleep => some s.processHead
    | .waiting refs => (s.processOne refs ready).map processHead
    | .ended => none
  | .callWaitToFinish =>
    if s.waiter = .notCalled ∧ s.toPipe = [] then some { s with waiter := .asleep } else none
  | .waitToFinish ready =>
    match s.waiter with
    | .asleep =>
      if s.inputQueue ≠ [] then some s else some (drainHead { s with isRunning := false })
    | .draining refs => (s.processOne refs ready).map drainHead
    | .closing => some { s with waiter := .returned }
    | .notCalled | .returned => none

/-- Every item the filter has left has had exactly one task, in order, and all are finished. -/
def Lossless (s : Pipeline ι) : Prop :=
  s.taskItems = s.left ∧ ∀ task ∈ s.tasks, task.finished = true

instance [DecidableEq ι] (s : Pipeline ι) : Decidable s.Lossless :=
  inferInstanceAs (Decidable (_ ∧ _))

/-- The condition on a step: `is_running` is cleared only when the scheduler holds no items, and
afterwards the filter leaves none. -/
def KeepsItems (s : Pipeline ι) : PipelineAction ι → Prop
  | .filtered kept => s.isRunning = true ∨ kept = []
  | .waitToFinish _ => s.waiter = .asleep → s.inputQueue = [] → s.scheduler.held = []
  | _ => True

/-! ### What the loops do -/

variable {s s' : Pipeline ι}

/-- Every task that is not finished has its ref. -/
def Covered (s : Pipeline ι) : Prop :=
  ∀ ref task, s.tasks[ref]? = some task → task.finished = false → ref ∈ s.resultsRefs

/-- The head of the loop changes the queue and the scheduler's place only. -/
theorem exists_scheduleHead (s : Pipeline ι) :
    ∃ queue place, place.held = [] ∧
      s.scheduleHead = { s with inputQueue := queue, scheduler := place } := by
  unfold scheduleHead
  split_ifs
  · exact ⟨s.inputQueue, .ended, rfl, rfl⟩
  · cases hq : s.inputQueue with
    | nil => exact ⟨s.inputQueue, .asleep, rfl, by simp [hq]⟩
    | cons batch queue => exact ⟨queue, .filtering batch, rfl, by simp⟩

theorem covered_createTask (h : s.Covered) (item : ι) : (s.createTask item).Covered := by
  intro ref task href hfin
  simp only [createTask] at href ⊢
  rcases Nat.lt_or_ge ref s.tasks.length with hlt | hge
  · rw [List.getElem?_append_left hlt] at href
    exact List.mem_append_left _ (h ref task href hfin)
  · have hlt := (List.getElem?_eq_some_iff.1 href).1
    rw [List.length_append, List.length_singleton] at hlt
    obtain rfl : ref = s.tasks.length := by omega
    simp

/-- **While the pipeline runs**, the loop over the items loses none: what has no task yet is held. -/
theorem scheduleItems_of_running (h : s.isRunning = true) (maxExecutingTasks : ℕ)
    (items : List ι) :
    (s.scheduleItems maxExecutingTasks items).isRunning = true ∧
      (s.scheduleItems maxExecutingTasks items).waiter = s.waiter ∧
      (s.scheduleItems maxExecutingTasks items).left = s.left ∧
      (s.scheduleItems maxExecutingTasks items).taskItems ++
        (s.scheduleItems maxExecutingTasks items).scheduler.held = s.taskItems ++ items ∧
      (s.Covered → (s.scheduleItems maxExecutingTasks items).Covered) := by
  induction items generalizing s with
  | nil =>
    obtain ⟨queue, place, hheld, heq⟩ := s.exists_scheduleHead
    rw [scheduleItems, heq]
    exact ⟨h, rfl, rfl, congrArg _ hheld, id⟩
  | cons item items ih =>
    rw [scheduleItems]
    split_ifs with hfull hstop
    · exact ⟨h, rfl, rfl, rfl, id⟩
    · exact absurd (h.symm.trans hstop) (by decide)
    · obtain ⟨h1, h2, h3, h4, h5⟩ := ih (s := s.createTask item) h
      refine ⟨h1, h2, h3, h4.trans ?_, fun hc => h5 (covered_createTask hc item)⟩
      simp [taskItems, createTask]

/-- **Once it is stopped**, the loop over the items ends the coroutine. -/
theorem scheduleItems_of_stopped (h : s.isRunning = false) (maxExecutingTasks : ℕ)
    (items : List ι) :
    s.scheduleItems maxExecutingTasks items = { s with scheduler := .ended } := by
  cases items <;> simp [scheduleItems, scheduleHead, h]

/-- `ray.wait` removes the ref of a finished task at most. -/
theorem rayWait_eq_some {ready : ℕ} (h : s.rayWait ready = some s') :
    ∃ refs, s' = { s with resultsRefs := refs } ∧ (s.Covered → s'.Covered) ∧
      (s.resultsRefs = [] → refs = []) := by
  unfold rayWait at h
  split_ifs at h with hnil hready
  · obtain rfl := Option.some.inj h
    exact ⟨s.resultsRefs, rfl, id, id⟩
  · obtain rfl := Option.some.inj h
    refine ⟨_, rfl, fun hc ref task href hfin => ?_, fun hnil' => absurd hnil' hnil⟩
    have hne : ref ≠ ready := by
      rintro rfl
      have hdone : s.tasks[ref]?.any IngestTask.finished = true := hready.2
      rw [show s.tasks[ref]? = some task from href] at hdone
      simp [hfin] at hdone
    exact (List.mem_erase_of_ne hne).2 (hc ref task href hfin)

/-! ### The invariant -/

/-- `wait_to_finish` has cleared `is_running`. -/
def stopping (s : Pipeline ι) : Bool :=
  match s.waiter with
  | .notCalled | .asleep => false
  | .draining _ | .closing | .returned => true

/-- What holds in every reachable state: tasks are created for the items in the order in which the
filter leaves them, and while the pipeline runs, the scheduler holds all others. -/
structure Inv (s : Pipeline ι) : Prop where
  running : s.isRunning = true → s.left = s.taskItems ++ s.scheduler.held
  created : s.taskItems <+: s.left
  covered : s.Covered
  stopped : s.isRunning = !s.stopping
  drained : s.waiter = .closing ∨ s.waiter = .returned → s.resultsRefs = []

/-- No item is lost yet: those without a task can still get one, or there are none. -/
def NoneLost (s : Pipeline ι) : Prop := s.isRunning = true ∨ s.taskItems = s.left

theorem inv_init (batches : List (List ι)) : (init batches).Inv where
  running _ := rfl
  created := List.nil_prefix
  covered ref task href := by simp [init] at href
  stopped := rfl
  drained h := by simp [init] at h

/-- Steps that only move refs, batches of the queue and the other coroutines. -/
theorem Inv.of_same (h : s.Inv) (hrun : s'.isRunning = s.isRunning) (hleft : s'.left = s.left)
    (hitems : s'.taskItems = s.taskItems) (hsched : s'.scheduler = s.scheduler)
    (hcov : s'.Covered) (hstop : s'.stopping = s.stopping)
    (hdrained : s'.waiter = .closing ∨ s'.waiter = .returned → s'.resultsRefs = []) :
    s'.Inv ∧ (s'.NoneLost ↔ s.NoneLost) := by
  refine ⟨⟨?_, ?_, hcov, ?_, hdrained⟩, ?_⟩
  · rw [hrun, hleft, hitems, hsched]
    exact h.running
  · rw [hleft, hitems]
    exact h.created
  · rw [hrun, hstop]
    exact h.stopped
  · rw [NoneLost, NoneLost, hrun, hleft, hitems]

/-- **The scheduler's turn** keeps what it holds while the pipeline runs; afterwards it creates
nothing. -/
theorem Inv.scheduleItems (h : s.Inv) (maxExecutingTasks : ℕ) (items : List ι)
    (hheld : s.isRunning = true → s.left = s.taskItems ++ items) :
    (s.scheduleItems maxExecutingTasks items).Inv ∧
      ((s.scheduleItems maxExecutingTasks items).NoneLost ↔ s.NoneLost) := by
  cases hrun : s.isRunning with
  | true =>
    obtain ⟨h1, h2, h3, h4, h5⟩ := scheduleItems_of_running hrun maxExecutingTasks items
    have hstop : s.stopping = false := by simpa [hrun] using h.stopped
    refine ⟨⟨fun _ => ?_, ?_, h5 h.covered, ?_, fun hw => ?_⟩, ?_⟩
    · rw [h3, hheld hrun, h4]
    · rw [h3, hheld hrun, ← h4]
      exact List.prefix_append _ _
    · rw [stopping, h2]
      simpa [stopping, h1] using hstop
    · rw [h2] at hw
      rcases hw with hw | hw <;> simp [stopping, hw] at hstop
    · exact iff_of_true (.inl h1) (.inl hrun)
  | false =>
    rw [scheduleItems_of_stopped hrun maxExecutingTasks items]
    exact ⟨⟨fun hr => absurd (hrun.symm.trans hr) (by decide), h.created, h.covered, h.stopped,
      h.drained⟩, Iff.rfl⟩

theorem processOne_eq_some {refs : List ℕ} {ready : ℕ} (h : s.processOne refs ready = some s') :
    ∃ refs, s' = { s with resultsRefs := refs } ∧ (s.Covered → s'.Covered) ∧
      (s.resultsRefs = [] → refs = []) := by
  unfold processOne at h
  split_ifs at h
  exact rayWait_eq_some h

/-- The answer of the filter loses its items if the pipeline is stopped. -/
theorem Inv.filtered (h : s.Inv) {batch : List ι} (hs : s.scheduler = .filtering batch)
    (kept : List ι) :
    ({ s with left := s.left ++ kept, scheduler := .storing kept } : Pipeline ι).Inv ∧
      (({ s with left := s.left ++ kept, scheduler := .storing kept } : Pipeline ι).NoneLost ↔
        s.NoneLost ∧ (s.isRunning = true ∨ kept = [])) := by
  have hleft : s.isRunning = true → s.left = s.taskItems := fun hr => by
    rw [h.running hr, hs]
    exact List.append_nil _
  refine ⟨⟨fun hr => ?_, h.created.trans (List.prefix_append _ _), h.covered, h.stopped,
    h.drained⟩, ?_⟩
  · exact congrArg (· ++ kept) (hleft hr)
  · unfold NoneLost
    cases hrun : s.isRunning with
    | true => exact iff_of_true (.inl rfl) ⟨.inl rfl, .inl rfl⟩
    | false =>
      simp only [Bool.false_eq_true, false_or]
      constructor
      · intro heq
        -- the tasks are for an initial part of what was left before
        have hlen : s.taskItems.length = s.left.length + kept.length := by
          rw [← List.length_append]
          exact congrArg List.length heq
        have hle := h.created.length_le
        have hkept : kept = [] := List.length_eq_zero_iff.1 (by omega)
        exact ⟨h.created.eq_of_length (by omega), hkept⟩
      · rintro ⟨heq, rfl⟩
        rw [List.append_nil]
        exact heq

/-- Clearing `is_running` loses what the scheduler holds. -/
theorem Inv.clear (h : s.Inv) (hw : s.waiter = .asleep) :
    (drainHead { s with isRunning := false }).Inv ∧
      ((drainHead { s with isRunning := false }).NoneLost ↔
        s.NoneLost ∧ s.scheduler.held = []) := by
  have hrun : s.isRunning = true := by simpa [stopping, hw] using h.stopped
  refine ⟨⟨fun hr => ?_, h.created, h.covered, ?_, ?_⟩, ?_⟩
  · cases hr
  · unfold stopping drainHead
    split_ifs <;> rfl
  · unfold drainHead
    split_ifs with hrefs
    · rintro (hc | hc) <;> cases hc
    · exact fun _ => not_not.1 hrefs
  · have hitems : (drainHead { s with isRunning := false }).NoneLost ↔ s.taskItems = s.left :=
      or_iff_right (by simp [drainHead])
    rw [hitems, and_iff_right (.inl hrun), h.running hrun]
    constructor
    · intro heq
      exact List.append_right_eq_self.1 heq.symm
    · intro hheld
      rw [hheld, List.append_nil]

/-- The turn of `_process_one` only drops a ref. -/
theorem Inv.processOne (h : s.Inv) {refs : List ℕ} {ready : ℕ}
    (hs : s.processOne refs ready = some s') : s'.Inv ∧ (s'.NoneLost ↔ s.NoneLost) := by
  obtain ⟨refs, rfl, hcov, hnil⟩ := processOne_eq_some hs
  exact h.of_same rfl rfl rfl rfl (hcov h.covered) rfl fun hw => hnil (h.drained hw)

/-- `wait_to_finish` ends only when no refs are left. -/
theorem Inv.drainHead (h : s.Inv) (hs : s.stopping = true) :
    s.drainHead.Inv ∧ (s.drainHead.NoneLost ↔ s.NoneLost) := by
  refine h.of_same rfl rfl rfl rfl h.covered ?_ ?_
  · unfold stopping Pipeline.drainHead
    split_ifs <;> exact hs.symm
  · unfold Pipeline.drainHead
    split_ifs with hrefs
    · rintro (hc | hc) <;> cases hc
    · exact fun _ => not_not.1 hrefs

/-- A task that finishes needs its ref no longer. -/
theorem Inv.taskDone (h : s.Inv) {ref : ℕ} {task : IngestTask ι} (ht : s.tasks[ref]? = some task) :
    ({ s with tasks := s.tasks.set ref { task with finished := true } } : Pipeline ι).Inv ∧
      (({ s with tasks := s.tasks.set ref { task with finished := true } } :
        Pipeline ι).NoneLost ↔ s.NoneLost) := by
  refine h.of_same rfl rfl ?_ rfl ?_ rfl h.drained
  · obtain ⟨hlt, rfl⟩ := List.getElem?_eq_some_iff.1 ht
    rw [taskItems, List.map_set]
    change (s.tasks.map IngestTask.item).set ref s.tasks[ref].item = _
    rw [← List.map_set, List.set_getElem_self, taskItems]
  · intro ref' task' ht' hfin
    rw [List.getElem?_set] at ht'
    split_ifs at ht' with href hlt
    · obtain rfl := Option.some.inj ht'
      cases hfin
    · exact h.covered ref' task' ht' hfin

theorem and_keepsItems {a : PipelineAction ι} (hok : s.KeepsItems a)
    (h : s'.Inv ∧ (s'.NoneLost ↔ s.NoneLost)) :
    s'.Inv ∧ (s'.NoneLost ↔ s.NoneLost ∧ s.KeepsItems a) :=
  ⟨h.1, h.2.trans (and_iff_left hok).symm⟩

variable [DecidableEq ι] {maxExecutingTasks : ℕ}

/-- The scheduler takes its items or the next batch. -/
theorem Inv.schedule (h : s.Inv) (hstep : step maxExecutingTasks s .schedule = some s') :
    s'.Inv ∧ (s'.NoneLost ↔ s.NoneLost) := by
  simp only [step] at hstep
  cases hs : s.scheduler with
  | asleep =>
    rw [hs] at hstep
    obtain rfl := Option.some.inj hstep
    exact h.scheduleItems maxExecutingTasks [] fun hr => by
      rw [h.running hr, hs, Scheduler.held]
  | storing items =>
    rw [hs] at hstep
    obtain rfl := Option.some.inj hstep
    exact h.scheduleItems maxExecutingTasks items fun hr => by
      rw [h.running hr, hs, Scheduler.held]
  | waiting items =>
    rw [hs] at hstep
    obtain rfl := Option.some.inj hstep
    exact h.scheduleItems maxExecutingTasks items fun hr => by
      rw [h.running hr, hs, Scheduler.held]
  | filtering batch => rw [hs] at hstep; cases hstep
  | ended => rw [hs] at hstep; cases hstep

/-- The filter has left some of the batch. -/
theorem Inv.filteredStep (h : s.Inv) {kept : List ι}
    (hstep : step maxExecutingTasks s (.filtered kept) = some s') :
    s'.Inv ∧ (s'.NoneLost ↔ s.NoneLost ∧ s.KeepsItems (.filtered kept)) := by
  simp only [step] at hstep
  cases hs : s.scheduler with
  | filtering batch =>
    rw [hs] at hstep
    simp only at hstep
    split_ifs at hstep with hsub hkept
    · -- nothing is left: the scheduler goes on with the next batch
      subst hkept
      obtain rfl := Option.some.inj hstep
      refine and_keepsItems (.inr rfl) ?_
      simp only [List.append_nil]
      exact h.scheduleItems maxExecutingTasks [] fun hr => by
        rw [h.running hr, hs, Scheduler.held]
    · obtain rfl := Option.some.inj hstep
      exact h.filtered hs kept
  | _ => rw [hs] at hstep; cases hstep

/-- The processor takes the tasks that are ready. -/
theorem Inv.processResults (h : s.Inv) {ready : ℕ}
    (hstep : step maxExecutingTasks s (.processResults ready) = some s') :
    s'.Inv ∧ (s'.NoneLost ↔ s.NoneLost) := by
  simp only [step] at hstep
  cases hp : s.processor with
  | asleep =>
    rw [hp] at hstep
    obtain rfl := Option.some.inj hstep
    exact h.of_same rfl rfl rfl rfl h.covered rfl h.drained
  | waiting refs =>
    rw [hp] at hstep
    obtain ⟨t, ht, rfl⟩ := Option.map_eq_some_iff.1 hstep
    obtain ⟨hinv, hlost⟩ := h.processOne ht
    have hhead : t.processHead.Inv ∧ (t.processHead.NoneLost ↔ t.NoneLost) :=
      hinv.of_same rfl rfl rfl rfl hinv.covered rfl hinv.drained
    exact ⟨hhead.1, hhead.2.trans hlost⟩
  | ended => rw [hp] at hstep; cases hstep

/-- `wait_to_finish` goes on: it may clear `is_running`, and then drains the refs. -/
theorem Inv.waitToFinish (h : s.Inv) {ready : ℕ}
    (hstep : step maxExecutingTasks s (.waitToFinish ready) = some s') :
    s'.Inv ∧ (s'.NoneLost ↔ s.NoneLost ∧ s.KeepsItems (.waitToFinish ready)) := by
  simp only [step] at hstep
  cases hw : s.waiter with
  | notCalled => rw [hw] at hstep; cases hstep
  | asleep =>
    rw [hw] at hstep
    simp only at hstep
    split_ifs at hstep with hq
    · obtain rfl := Option.some.inj hstep
      exact and_keepsItems (fun _ hnil => absurd hnil hq) ⟨h, Iff.rfl⟩
    · obtain rfl := Option.some.inj hstep
      obtain ⟨hinv, hlost⟩ := h.clear hw
      refine ⟨hinv, hlost.trans (and_congr_right fun _ => ?_)⟩
      exact ⟨fun hheld _ _ => hheld, fun hok => hok hw (not_not.1 hq)⟩
  | draining refs =>
    refine and_keepsItems (fun hc => by rw [hw] at hc; cases hc) ?_
    rw [hw] at hstep
    obtain ⟨t, ht, rfl⟩ := Option.map_eq_some_iff.1 hstep
    obtain ⟨hinv, hlost⟩ := h.processOne ht
    have hstop : t.stopping = true := by
      obtain ⟨refs', rfl, -⟩ := processOne_eq_some ht
      simp [stopping, hw]
    obtain ⟨hinv', hlost'⟩ := hinv.drainHead hstop
    exact ⟨hinv', hlost'.trans hlost⟩
  | closing =>
    refine and_keepsItems (fun hc => by rw [hw] at hc; cases hc) ?_
    rw [hw] at hstep
    obtain rfl := Option.some.inj hstep
    exact h.of_same rfl rfl rfl rfl h.covered (by simp [stopping, hw]) fun _ =>
      h.drained (.inl hw)
  | returned => rw [hw] at hstep; cases hstep

/-- **Every step keeps the invariant, and loses an item unless it meets the condition.** -/
theorem step_inv (h : s.Inv) (a : PipelineAction ι) (hstep : step maxExecutingTasks s a = some s') :
    s'.Inv ∧ (s'.NoneLost ↔ s.NoneLost ∧ s.KeepsItems a) := by
  cases a with
  | pipeInput i =>
    refine and_keepsItems trivial ?_
    simp only [step] at hstep
    split_ifs at hstep
    obtain ⟨batch, -, rfl⟩ := Option.map_eq_some_iff.1 hstep
    exact h.of_same rfl rfl rfl rfl h.covered rfl h.drained
  | schedule => exact and_keepsItems trivial (h.schedule hstep)
  | filtered kept => exact h.filteredStep hstep
  | taskDone ref =>
    refine and_keepsItems trivial ?_
    simp only [step] at hstep
    obtain ⟨task, htask, rfl⟩ := Option.map_eq_some_iff.1 hstep
    exact h.taskDone htask
  | processResults ready => exact and_keepsItems trivial (h.processResults hstep)
  | callWaitToFinish =>
    refine and_keepsItems trivial ?_
    simp only [step] at hstep
    split_ifs at hstep with hw
    obtain rfl := Option.some.inj hstep
    refine h.of_same rfl rfl rfl rfl h.covered ?_ ?_
    · simp [stopping, hw.1]
    · rintro (hc | hc) <;> cases hc
  | waitToFinish ready => exact h.waitToFinish hstep

/-- **No item is lost exactly if `is_running` is never cleared over items of the scheduler**: in
every run after which `wait_to_finish` has returned, whether the scheduler has ended or not. -/
theorem lossless_iff {batches : List (List ι)} {actions : List (PipelineAction ι)} {s : Pipeline ι}
    (hrun : run (step maxExecutingTasks) (init batches) actions = some s)
    (hret : s.waiter = .returned) :
    s.Lossless ↔ AllSteps (step maxExecutingTasks) KeepsItems (init batches) actions := by
  have hstep : ∀ (s : Pipeline ι) a s', s.Inv → step maxExecutingTasks s a = some s' →
      s'.Inv ∧ (s'.NoneLost ↔ s.NoneLost ∧ s.KeepsItems a) := fun s a s' h => step_inv h a
  have hinv : s.Inv := invariant_of_run (fun s a s' h ht => (hstep s a s' h ht).1)
    (inv_init batches) hrun
  have hlost : s.NoneLost ↔ AllSteps (step maxExecutingTasks) KeepsItems (init batches) actions :=
    (iff_allSteps_of_run hstep (inv_init batches) hrun).trans (and_iff_right (.inl rfl))
  have hstopped : ¬ s.isRunning = true := by simp [hinv.stopped, stopping, hret]
  -- no refs are left, so all tasks are finished
  have hfin : ∀ task ∈ s.tasks, task.finished = true := by
    intro task htask
    obtain ⟨ref, href⟩ := List.mem_iff_getElem?.1 htask
    by_contra hne
    have hmem := hinv.covered ref task href (by simpa using hne)
    rw [hinv.drained (.inr hret)] at hmem
    cases hmem
  rw [Lossless, and_iff_left hfin, ← hlost, NoneLost, or_iff_right hstopped]

/-- One batch, with two items and one slot. -/
def twoItems : List (List String) := [["a", "b"]]

/-- The batch is piped and filtered, and both tasks are done one after the other. -/
def patientActions : List (PipelineAction String) :=
  [.pipeInput 0, .schedule, .filtered ["a", "b"], .schedule, .taskDone 0, .processResults 0,
    .processResults 0, .schedule, .callWaitToFinish, .waitToFinish 0, .schedule, .taskDone 1,
    .waitToFinish 1, .processResults 0, .waitToFinish 0]

theorem lossless_patientActions :
    ∃ s, run (step 1) (init twoItems) patientActions = some s ∧ s.waiter = .returned ∧
      s.scheduler = .ended ∧ s.left = ["a", "b"] ∧ s.Lossless ∧
      AllSteps (step 1) KeepsItems (init twoItems) patientActions :=
  ⟨_, rfl, by decide, by decide, by decide, by decide,
    (lossless_iff rfl (by decide)).1 (by decide)⟩

/-- The stop comes while the filter is at work. -/
def hastyActions : List (PipelineAction String) :=
  [.pipeInput 0, .schedule, .callWaitToFinish, .waitToFinish 0, .filtered ["a", "b"], .schedule,
    .waitToFinish 0]

theorem not_lossless_hastyActions :
    ∃ s, run (step 1) (init twoItems) hastyActions = some s ∧ s.waiter = .returned ∧
      s.scheduler = .ended ∧ s.left = ["a", "b"] ∧ ¬ s.Lossless :=
  ⟨_, rfl, by decide, by decide, by decide, by decide⟩

end Pipeline

end Svoe
