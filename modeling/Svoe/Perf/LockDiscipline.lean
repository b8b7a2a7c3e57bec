import Svoe.Perf.WorkQueue
import Svoe.Transition.Lock

/-!
# The discipline of the global lock

One thread calls `pop_or_wait_work_queue` again and again, any number of other threads run
`reschedule_or_complete`.  At the end of the former, `locked()` cannot tell who holds the lock: a
thread that has popped a pod without taking the lock gives back the lock of a callback.

* `popStep_move`, `rescheduleStep_move` : what a step of a thread does to the lock.
* `lockDiscipline_of_allSteps` : the lock is kept with the thread that is inside, as long as no
  callback is when the scheduler's thread tests it.
-/

namespace Svoe

namespace Perf

open Raising Lock

/-- A thread that runs `reschedule_or_complete`. -/
structure CallbackThread where
  completion : Completion
  pc : ReschedulePc
  deriving DecidableEq, Repr

/-- The threads that share a scheduling state. -/
structure LockSystem where
  state : SchedulingState
  /-- `pending_futures` of the call of `pop_or_wait_work_queue`. -/
  pending : List ℕ
  doneFutures : List ℕ
  main : PopPc
  callbacks : List CallbackThread
  deriving DecidableEq, Repr

/-- What happens next. -/
inductive LockAction where
  | callPop (pending : List ℕ)
  | pop (next : ℕ)
  | complete (future : ℕ)
  | callReschedule (c : Completion)
  | reschedule (i : ℕ)
  deriving DecidableEq, Repr

/-- A step of one of the threads, or a future that completes. -/
def lockStep (s : LockSystem) : LockAction → Option LockSystem
  | .callPop pending =>
    match s.main with
    | .returned _ => some { s with pending := pending, main := .called }
    | _ => none
  | .pop next =>
    (popStep (fun f => f ∈ s.doneFutures) s.pending next s.state s.main).map
      fun p => { s with state := p.1, main := p.2 }
  | .complete future => some { s with doneFutures := future :: s.doneFutures }
  | .callReschedule c => some { s with callbacks := s.callbacks ++ [⟨c, .called⟩] }
  | .reschedule i =>
    s.callbacks[i]?.bind fun cb =>
      (rescheduleStep (.callback i) cb.completion s.state cb.pc).map
        fun p => { s with state := p.1, callbacks := s.callbacks.set i { cb with pc := p.2 } }

/-- No thread has been started yet. -/
def LockSystem.init (state : SchedulingState) : LockSystem := ⟨state, [], [], .returned none, []⟩

/-! ### Locked sections -/

/-- The thread is between its `acquire` and the `release` that belongs to it. -/
def PopPc.isInside : PopPc → Bool
  | .inside _ | .leaving _ | .testing _ true | .releasing _ true => true
  | .called | .waiting _ | .yielded _ | .testing _ false | .releasing _ false | .returned _
  | .raised _ => false

/-- The thread is between its `acquire` and its `release`. -/
def ReschedulePc.isInside : ReschedulePc → Bool
  | .inside | .decided => true
  | .called | .searching _ | .removed | .returned | .removeRaised | .releaseRaised => false

/-- The thread is inside its locked section. -/
def LockSystem.Inside (s : LockSystem) : Thread → Prop
  | .scheduler => s.main.isInside
  | .callback i => InsideAt s.callbacks (fun cb => cb.pc.isInside) i

/-- The next step of the thread is `locked()`. -/
def PopPc.isTesting : PopPc → Bool
  | .testing _ _ => true
  | .called | .waiting _ | .yielded _ | .inside _ | .leaving _ | .releasing _ _ | .returned _
  | .raised _ => false

/-- A step that releases the lock is one of the thread that holds it. -/
def ReleasesOwn (s : LockSystem) : LockAction → Prop
  | .pop _ => s.main.isReleasing → s.state.globalLock = some .scheduler
  | .reschedule i => s.callbacks[i]?.map CallbackThread.pc = some .decided →
      s.state.globalLock = some (.callback i)
  | .callPop _ | .complete _ | .callReschedule _ => True

/-- A thread that has returned, or raised, does not hold the lock. -/
def LeavesUnlocked (s : LockSystem) : Prop :=
  (∀ podName, s.main = .returned podName ∨ s.main = .raised podName →
    s.state.globalLock ≠ some .scheduler) ∧
  ∀ i cb, s.callbacks[i]? = some cb → cb.pc ∈ [.returned, .removeRaised, .releaseRaised] →
    s.state.globalLock ≠ some (.callback i)

/-- No two threads are inside together. -/
def Exclusive (s : LockSystem) : Prop := ∀ t u, s.Inside t → s.Inside u → t = u

/-- At `if self.global_lock.locked()`, the lock is not the one of a callback. -/
def TestsApart (s : LockSystem) : LockAction → Prop
  | .pop _ =>
    s.main.isTesting → s.state.globalLock = none ∨ s.state.globalLock = some .scheduler
  | .callPop _ | .complete _ | .callReschedule _ | .reschedule _ => True

instance (s : LockSystem) : (a : LockAction) → Decidable (ReleasesOwn s a)
  | .pop _ | .reschedule _ => inferInstanceAs (Decidable (_ → _))
  | .callPop _ | .complete _ | .callReschedule _ => .isTrue trivial

instance (s : LockSystem) : (a : LockAction) → Decidable (TestsApart s a)
  | .pop _ => inferInstanceAs (Decidable (_ → _))
  | .callPop _ | .complete _ | .callReschedule _ | .reschedule _ => .isTrue trivial

/-! ### Steps of a thread -/

section Threads

variable {s s' : SchedulingState} {isDone : ℕ → Bool} {pending : List ℕ} {next : ℕ}
  {pc pc' : PopPc} {t : Thread} {c : Completion} {rpc rpc' : ReschedulePc}

theorem removePodFromScheduleState_lock (pod : String) (s : SchedulingState) :
    (removePodFromScheduleState pod s).2.globalLock = s.globalLock := by
  rw [removePodFromScheduleState, get_bind]
  dsimp only
  cases (s.podsPerNode.filter fun p => pod ∈ p.2).getLast? with
  | none => rfl
  | some p =>
    dsimp only
    split_ifs
    · rfl
    · rw [modify_bind, deletePriority, get_bind]
      split_ifs <;> rfl

theorem rescheduleOrComplete_lock : (rescheduleOrComplete c s).globalLock = s.globalLock := by
  unfold rescheduleOrComplete
  split_ifs <;> rfl

/-- **A step of the scheduler's thread** takes a free lock, gives back its own, or leaves it. -/
theorem popStep_move (hlock : s.globalLock = some .scheduler ↔ pc.isInside)
    (hreleasing : ∀ podName, pc ≠ .releasing podName false)
    (htest : pc.isTesting → s.globalLock = none ∨ s.globalLock = some .scheduler)
    (h : popStep isDone pending next s pc = some (s', pc')) :
    Move .scheduler s.globalLock pc.isInside s'.globalLock pc'.isInside ∧
      ∀ podName, pc' ≠ .releasing podName false := by
  cases popMove_of_popStep h with
  | acquire hfree =>
    rw [hfree]
    exact ⟨.acquire rfl, fun _ h => by cases h⟩
  | @leave goOn =>
    rw [hlock.2 rfl]
    cases goOn <;> exact ⟨.release Bool.false_ne_true, fun _ h => by cases h⟩
  | leaveRaised hfree => cases (hlock.2 rfl).symm.trans hfree
  | @locked podName entered hlocked =>
    cases entered with
    | true => exact ⟨.keep Iff.rfl, fun _ h => by cases h⟩
    | false =>
      -- the lock is free, since no callback holds it
      have hown := (htest rfl).resolve_left hlocked
      exact absurd (hlock.1 hown) Bool.false_ne_true
  | @unlocked podName entered hfree =>
    cases entered with
    | true => cases (hlock.2 rfl).symm.trans hfree
    | false => exact ⟨.keep Iff.rfl, fun _ h => by cases h⟩
  | @release podName entered =>
    cases entered with
    | true =>
      rw [hlock.2 rfl]
      exact ⟨.release Bool.false_ne_true, fun _ h => by cases h⟩
    | false => exact absurd rfl (hreleasing podName)
  | @releaseRaised podName entered hfree =>
    cases entered with
    | true => cases (hlock.2 rfl).symm.trans hfree
    | false => exact absurd rfl (hreleasing podName)
  | _ => exact ⟨.keep Iff.rfl, fun _ h => by cases h⟩

/-- **A step of a callback** takes a free lock, gives back its own, or leaves it. -/
theorem rescheduleStep_move (hlock : s.globalLock = some t ↔ rpc.isInside)
    (h : rescheduleStep t c s rpc = some (s', rpc')) :
    Move t s.globalLock rpc.isInside s'.globalLock rpc'.isInside := by
  have hkeep : ∀ {lock lock' : Option Thread} {inside inside' : Prop}, lock' = lock →
      (inside' ↔ inside) → Move t lock inside lock' inside' := by
    rintro lock _ inside inside' rfl h
    exact .keep h
  cases rpc with
  | called =>
    obtain ⟨rfl, rfl⟩ := Prod.mk.inj (Option.some.inj h)
    exact .keep Iff.rfl
  | searching numNodes =>
    have hsame := removePodFromScheduleState_lock c.podName s
    rw [rescheduleStep] at h
    split_ifs at h
    · obtain ⟨rfl, rfl⟩ := Prod.mk.inj (Option.some.inj h)
      exact .keep Iff.rfl
    · rcases hremove : removePodFromScheduleState c.podName s with ⟨e | u, s₁⟩
      all_goals
        rw [hremove] at h hsame
        obtain ⟨rfl, rfl⟩ := Prod.mk.inj (Option.some.inj h)
        exact hkeep hsame Iff.rfl
  | removed =>
    obtain ⟨s₁, hacquire, heq⟩ := Option.map_eq_some_iff.1 h
    obtain ⟨rfl, rfl⟩ := Prod.mk.inj heq
    obtain ⟨hfree, rfl⟩ := acquire_eq_some_iff.1 hacquire
    rw [hfree]
    exact .acquire rfl
  | inside =>
    obtain ⟨rfl, rfl⟩ := Prod.mk.inj (Option.some.inj h)
    exact hkeep rescheduleOrComplete_lock Iff.rfl
  | decided =>
    have hown : s.globalLock = some t := hlock.2 rfl
    simp only [rescheduleStep, release_of_locked (hown ▸ Option.some_ne_none _)] at h
    obtain ⟨rfl, rfl⟩ := Prod.mk.inj (Option.some.inj h)
    rw [hown]
    exact .release Bool.false_ne_true
  | returned => cases h
  | removeRaised => cases h
  | releaseRaised => cases h

end Threads

/-! ### Runs -/

/-- The lock is with the thread that is inside, and no thread is about to give back another one's. -/
structure LockInv (s : LockSystem) : Prop where
  heldInside : HeldInside s.state.globalLock s.Inside
  not_releasing : ∀ podName, s.main ≠ .releasing podName false

variable {s s' : LockSystem} {a : LockAction}

theorem LockInv.init {state : SchedulingState} (h : state.globalLock = none) :
    LockInv (.init state) := by
  refine ⟨fun t => iff_of_false (fun hl => by cases h.symm.trans hl) fun hinside => ?_, ?_⟩
  · cases t with
    | scheduler => exact Bool.false_ne_true hinside
    | callback i =>
      obtain ⟨cb, hcb, -⟩ := hinside
      cases hcb
  · rintro podName ⟨⟩

/-- **A step** whose test is apart from the callbacks keeps the lock with the thread inside. -/
theorem LockInv.step (hinv : LockInv s) (htest : TestsApart s a) (h : lockStep s a = some s') :
    LockInv s' := by
  cases a with
  | callPop pending =>
    cases hmain : s.main with
    | returned podName =>
      rw [lockStep, hmain] at h
      obtain rfl := Option.some.inj h
      refine ⟨fun t => ?_, fun _ h => by cases h⟩
      rw [hinv.heldInside t]
      cases t with
      | scheduler => simp [LockSystem.Inside, hmain, PopPc.isInside]
      | callback i => exact Iff.rfl
    | _ => rw [lockStep, hmain] at h; cases h
  | pop next =>
    obtain ⟨⟨state, main⟩, hpop, rfl⟩ := Option.map_eq_some_iff.1 h
    obtain ⟨hmove, hreleasing⟩ :=
      popStep_move (hinv.heldInside .scheduler) hinv.not_releasing htest hpop
    refine ⟨hinv.heldInside.move hmove fun u hu => ?_, hreleasing⟩
    cases u with
    | scheduler => exact absurd rfl hu
    | callback i => exact Iff.rfl
  | complete future =>
    obtain rfl := Option.some.inj h
    refine ⟨fun t => (hinv.heldInside t).trans ?_, hinv.not_releasing⟩
    cases t <;> exact Iff.rfl
  | callReschedule c =>
    obtain rfl := Option.some.inj h
    refine ⟨fun t => (hinv.heldInside t).trans ?_, hinv.not_releasing⟩
    cases t with
    | scheduler => exact Iff.rfl
    | callback i => exact (insideAt_concat rfl).symm
  | reschedule i =>
    obtain ⟨cb, hcb, hmap⟩ := Option.bind_eq_some_iff.1 h
    obtain ⟨⟨state, pc⟩, hstep, rfl⟩ := Option.map_eq_some_iff.1 hmap
    have hold : s.Inside (.callback i) ↔ cb.pc.isInside := insideAt_iff hcb
    have hmove := rescheduleStep_move ((hinv.heldInside (.callback i)).trans hold) hstep
    have hnew : LockSystem.Inside
        { s with state := state, callbacks := s.callbacks.set i { cb with pc := pc } }
        (.callback i) ↔ pc.isInside := insideAt_set_self hcb _
    refine ⟨hinv.heldInside.move (t := .callback i) ?_ fun u hu => ?_, hinv.not_releasing⟩
    · rw [propext hold, propext hnew]
      exact hmove
    · cases u with
      | scheduler => exact Iff.rfl
      | callback j =>
        exact insideAt_set_ne (fun heq => hu (congrArg Thread.callback heq.symm)) _

theorem LockInv.releasesOwn (hinv : LockInv s) (a : LockAction) : ReleasesOwn s a := by
  cases a with
  | pop next =>
    intro hreleasing
    refine (hinv.heldInside .scheduler).2 ?_
    unfold LockSystem.Inside
    cases hmain : s.main with
    | leaving goOn => rfl
    | releasing podName entered =>
      cases entered with
      | true => rfl
      | false => exact absurd hmain (hinv.not_releasing podName)
    | _ => rw [hmain] at hreleasing; cases hreleasing
  | reschedule i =>
    intro hdecided
    obtain ⟨cb, hcb, hpc⟩ := Option.map_eq_some_iff.1 hdecided
    exact (hinv.heldInside (.callback i)).2 ((insideAt_iff hcb).2 (hpc ▸ rfl))
  | _ => trivial

theorem LockInv.leavesUnlocked (hinv : LockInv s) : LeavesUnlocked s := by
  refine ⟨fun podName hmain hlock => ?_, fun i cb hcb hpc hlock => ?_⟩
  · have hinside : s.main.isInside = true := (hinv.heldInside .scheduler).1 hlock
    rcases hmain with hmain | hmain <;> rw [hmain] at hinside <;> cases hinside
  · have hinside : cb.pc.isInside = true :=
      (insideAt_iff hcb).1 ((hinv.heldInside (.callback i)).1 hlock)
    simp only [List.mem_cons, List.not_mem_nil, or_false] at hpc
    rcases hpc with hpc | hpc | hpc <;> rw [hpc] at hinside <;> cases hinside

/-- **The lock discipline**, as long as no callback holds the lock when the scheduler's thread tests
it: only the holder of the lock releases it, threads return without it, and no two are inside. -/
theorem lockDiscipline_of_allSteps {state : SchedulingState} {as : List LockAction}
    (hfree : state.globalLock = none) (htest : Transition.AllSteps lockStep TestsApart (.init state) as) :
    Transition.AllSteps lockStep ReleasesOwn (.init state) as ∧
      Transition.AllStates lockStep (fun s => LeavesUnlocked s ∧ Exclusive s) (.init state) as := by
  have hstep : ∀ s a s', LockInv s → TestsApart s a → lockStep s a = some s' → LockInv s' :=
    fun _ _ _ hinv => hinv.step
  refine ⟨?_, ?_⟩
  · exact Transition.allSteps_of_invariant hstep (fun s a hinv _ => hinv.releasesOwn a)
      (.init hfree) htest
  · exact Transition.allStates_of_invariant hstep
      (fun s hinv => ⟨hinv.leavesUnlocked, fun t u => hinv.heldInside.exclusive⟩)
      (.init hfree) htest

/-- The scheduler's thread pops "b" and calls again, while the callback of "b" is inside. -/
def popsWhileInside : List LockAction :=
  [.callPop [], .pop 0, .pop 0, .callReschedule ⟨"b", false, none⟩, .reschedule 0, .reschedule 0,
    .reschedule 0, .callPop [0], .pop 0, .pop 0, .pop 0, .reschedule 0, .reschedule 0]

/-- The lock of the callback is released for it. -/
theorem not_releasesOwn_popsWhileInside :
    ¬ Transition.AllSteps lockStep ReleasesOwn (.init (.init ["a", "b"])) popsWhileInside ∧
      ((Transition.run lockStep (.init (.init ["a", "b"])) popsWhileInside).map
        fun s => s.callbacks.map CallbackThread.pc) = some [.releaseRaised] := by
  decide +kernel

/-- The scheduler's thread calls again when the callback is through. -/
def popsAfterwards : List LockAction :=
  [.callPop [], .pop 0, .pop 0, .callReschedule ⟨"b", false, none⟩, .reschedule 0, .reschedule 0,
    .reschedule 0, .reschedule 0, .reschedule 0, .callPop [0], .pop 0, .pop 0]

theorem lockDiscipline_popsAfterwards :
    Transition.AllSteps lockStep ReleasesOwn (.init (.init ["a", "b"])) popsAfterwards :=
  (lockDiscipline_of_allSteps rfl (by decide +kernel)).1

end Perf

end Svoe
