import Mathlib.Data.List.Basic

/-!
# Transition systems

A transition system is a partial step function: `step s a` is the state after the action `a`, if
`a` is possible in `s`.

* `run step s as` : the state after a sequence of actions.
* `AllSteps step ok s as` : every step of the sequence meets a condition on the state before it and
  the action.
* `invariant_of_run` : what every step preserves holds after every run.
* `AllStates step P s as` : every state of the run has the property `P`.
* `invariant_of_allSteps` : the same for the steps that meet a condition.
* `allSteps_of_invariant`, `allStates_of_invariant` : what follows from the invariant at all steps
  and in all states.
* `allSteps_congr` : conditions that agree where an invariant holds.
* `rel_of_run` : a reflexive and transitive relation of all steps is one of all runs.
* `iff_allSteps_of_run` : what a step breaks exactly when it does not meet the condition holds after
  a run exactly if all steps meet it.
* `allStates_iff_allSteps` : the same for a property that may be repaired later on, in all states of
  the run.
-/

namespace Svoe

namespace Transition

variable {σ α : Type*}

/-- The state after a sequence of actions. -/
def run (step : σ → α → Option σ) (s : σ) : List α → Option σ
  | [] => some s
  | a :: as => (step s a).bind fun s' => run step s' as

/-- Every step of a run meets the condition `ok`. -/
def AllSteps (step : σ → α → Option σ) (ok : σ → α → Prop) (s : σ) : List α → Prop
  | [] => True
  | a :: as => ok s a ∧ ∀ s', step s a = some s' → AllSteps step ok s' as

/-- Every state of a run, from the first to the last, has the property `P`. -/
def AllStates (step : σ → α → Option σ) (P : σ → Prop) (s : σ) : List α → Prop
  | [] => P s
  | a :: as => P s ∧ ∀ s', step s a = some s' → AllStates step P s' as

variable {step : σ → α → Option σ} {ok : σ → α → Prop} {s s' : σ} {a : α} {as : List α}

@[simp] theorem run_nil : run step s [] = some s := rfl

theorem run_cons_eq_some_iff :
    run step s (a :: as) = some s' ↔ ∃ t, step s a = some t ∧ run step t as = some s' :=
  Option.bind_eq_some_iff

theorem allSteps_cons_of_step {t : σ} (h : step s a = some t) :
    AllSteps step ok s (a :: as) ↔ ok s a ∧ AllSteps step ok t as := by
  refine and_congr_right fun _ => ⟨fun hall => hall t h, fun hall t' ht' => ?_⟩
  obtain rfl := Option.some.inj (h.symm.trans ht')
  exact hall

theorem allStates_cons_of_step {P : σ → Prop} {t : σ} (h : step s a = some t) :
    AllStates step P s (a :: as) ↔ P s ∧ AllStates step P t as := by
  refine and_congr_right fun _ => ⟨fun hall => hall t h, fun hall t' ht' => ?_⟩
  obtain rfl := Option.some.inj (h.symm.trans ht')
  exact hall

/-- The state at the end is one of the states of the run. -/
theorem of_allStates {P : σ → Prop} (hall : AllStates step P s as) (h : run step s as = some s') :
    P s' := by
  induction as generalizing s with
  | nil =>
    obtain rfl := Option.some.inj h
    exact hall
  | cons a as ih =>
    obtain ⟨t, ht, hrun⟩ := run_cons_eq_some_iff.1 h
    exact ih (hall.2 t ht) hrun

theorem allSteps_of_forall {P : α → Prop} (h : ∀ a ∈ as, P a) :
    AllSteps step (fun _ a => P a) s as := by
  induction as generalizing s with
  | nil => trivial
  | cons a as ih =>
    exact ⟨h a List.mem_cons_self, fun s' _ => ih fun b hb => h b (List.mem_cons_of_mem a hb)⟩

instance decidableAllSteps [∀ s a, Decidable (ok s a)] :
    (s : σ) → (as : List α) → Decidable (AllSteps step ok s as)
  | _, [] => .isTrue trivial
  | s, a :: as =>
    match h : step s a with
    | none => decidable_of_iff (ok s a) (by simp [AllSteps, h])
    | some t =>
      have : Decidable (AllSteps step ok t as) := decidableAllSteps t as
      decidable_of_iff _ (allSteps_cons_of_step h).symm

/-- **An invariant of all steps is one of all runs.** -/
theorem invariant_of_run {I : σ → Prop} (hstep : ∀ s a s', I s → step s a = some s' → I s')
    (hs : I s) (h : run step s as = some s') : I s' := by
  induction as generalizing s with
  | nil =>
    obtain rfl := Option.some.inj h
    exact hs
  | cons a as ih =>
    obtain ⟨t, ht, hrun⟩ := run_cons_eq_some_iff.1 h
    exact ih (hstep s a t hs ht) hrun

/-- What every step that meets a condition preserves holds after every run of such steps. -/
theorem invariant_of_allSteps {I : σ → Prop}
    (hstep : ∀ s a s', I s → ok s a → step s a = some s' → I s') (hs : I s)
    (hall : AllSteps step ok s as) (h : run step s as = some s') : I s' := by
  induction as generalizing s with
  | nil =>
    obtain rfl := Option.some.inj h
    exact hs
  | cons a as ih =>
    obtain ⟨t, ht, hrun⟩ := run_cons_eq_some_iff.1 h
    obtain ⟨hok, hrest⟩ := (allSteps_cons_of_step ht).1 hall
    exact ih (hstep s a t hs hok ht) hrest hrun

/-- A condition that follows from another one where an invariant holds. -/
theorem allSteps_of_invariant {ok' : σ → α → Prop} {I : σ → Prop}
    (hstep : ∀ s a s', I s → ok s a → step s a = some s' → I s')
    (hok : ∀ s a, I s → ok s a → ok' s a) (hs : I s) (hall : AllSteps step ok s as) :
    AllSteps step ok' s as := by
  induction as generalizing s with
  | nil => trivial
  | cons a as ih =>
    obtain ⟨ha, hrest⟩ := hall
    exact ⟨hok s a hs ha, fun s' h => ih (hstep s a s' hs ha h) (hrest s' h)⟩

/-- A property that follows from an invariant of the steps that meet a condition. -/
theorem allStates_of_invariant {I P : σ → Prop}
    (hstep : ∀ s a s', I s → ok s a → step s a = some s' → I s') (hP : ∀ s, I s → P s)
    (hs : I s) (hall : AllSteps step ok s as) : AllStates step P s as := by
  induction as generalizing s with
  | nil => exact hP s hs
  | cons a as ih =>
    obtain ⟨ha, hrest⟩ := hall
    exact ⟨hP s hs, fun s' h => ih (hstep s a s' hs ha h) (hrest s' h)⟩

/-- Conditions that agree on the states of an invariant are met by the same runs. -/
theorem allSteps_congr {ok' : σ → α → Prop} {I : σ → Prop} {P : α → Prop}
    (hstep : ∀ s a s', I s → P a → step s a = some s' → I s')
    (hok : ∀ s a, I s → P a → (ok s a ↔ ok' s a)) (hs : I s) (has : ∀ a ∈ as, P a) :
    AllSteps step ok s as ↔ AllSteps step ok' s as := by
  induction as generalizing s with
  | nil => exact Iff.rfl
  | cons a as ih =>
    have ha := has a List.mem_cons_self
    refine and_congr (hok s a hs ha) (forall_congr' fun s' => forall_congr' fun h => ?_)
    exact ih (hstep s a s' hs ha h) fun b hb => has b (List.mem_cons_of_mem a hb)

/-- A preorder that all steps follow is followed by all runs. -/
theorem rel_of_run {R : σ → σ → Prop} (hrefl : ∀ s, R s s)
    (htrans : ∀ {s t u}, R s t → R t u → R s u) (hstep : ∀ s a s', step s a = some s' → R s s')
    (h : run step s as = some s') : R s s' := by
  induction as generalizing s with
  | nil =>
    obtain rfl := Option.some.inj h
    exact hrefl s
  | cons a as ih =>
    obtain ⟨t, ht, hrun⟩ := run_cons_eq_some_iff.1 h
    exact htrans (hstep s a t ht) (ih hrun)

/-- **A property that is lost exactly by the steps that do not meet a condition** holds after a run
exactly if it held before and all steps meet the condition. -/
theorem iff_allSteps_of_run {I P : σ → Prop}
    (hstep : ∀ s a s', I s → step s a = some s' → I s' ∧ (P s' ↔ P s ∧ ok s a))
    (hs : I s) (h : run step s as = some s') : P s' ↔ P s ∧ AllSteps step ok s as := by
  induction as generalizing s with
  | nil =>
    obtain rfl := Option.some.inj h
    exact (and_iff_left trivial).symm
  | cons a as ih =>
    obtain ⟨t, ht, hrun⟩ := run_cons_eq_some_iff.1 h
    obtain ⟨hI, hP⟩ := hstep s a t hs ht
    rw [ih hI hrun, hP, allSteps_cons_of_step ht, and_assoc]

/-- **A property that a step keeps exactly if it meets a condition** holds in all states of a run
exactly if all steps meet the condition. -/
theorem allStates_iff_allSteps {I P : σ → Prop}
    (hstep : ∀ s a s', I s → P s → step s a = some s' → (P s' → I s') ∧ (P s' ↔ ok s a))
    (hs : I s) (hP : P s) (h : run step s as = some s') :
    AllStates step P s as ↔ AllSteps step ok s as := by
  induction as generalizing s with
  | nil => exact iff_of_true hP trivial
  | cons a as ih =>
    obtain ⟨t, ht, hrun⟩ := run_cons_eq_some_iff.1 h
    obtain ⟨hI, hPok⟩ := hstep s a t hs hP ht
    rw [allStates_cons_of_step ht, allSteps_cons_of_step ht, and_iff_right hP, ← hPok]
    constructor
    · intro hall
      have hPt : P t := by
        cases as with
        | nil => exact hall
        | cons a as => exact hall.1
      exact ⟨hPt, (ih (hI hPt) hPt hrun).1 hall⟩
    · rintro ⟨hPt, hall⟩
      exact (ih (hI hPt) hPt hrun).2 hall

end Transition

end Svoe
