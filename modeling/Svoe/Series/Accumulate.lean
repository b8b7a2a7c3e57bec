import Mathlib.Data.List.Basic
import Mathlib.Data.List.ReduceOption

/-!
# Stateful maps over a series

`accumulate step s l` feeds the elements of `l` to a step function, from the state `s`: it gives
the final state and one output per element.  Feeding a concatenation is feeding one part after the
other (`accumulate_append`); feeding the outputs to another step is feeding the elements to the
two of them (`reduceOption_accumulate_cascade`).

For states that are a window of the recent past, `dropWhile_append_of_imp` says that the window can
be cut lazily: what an earlier cut drops, a later cut drops as well.
-/

namespace Svoe

namespace Series

variable {σ α β : Type*}

/-- The final state and the outputs of feeding a series to a step function. -/
def accumulate (step : σ → α → σ × β) (s : σ) : List α → σ × List β
  | [] => (s, [])
  | a :: l =>
    let (s', b) := step s a
    let (s'', bs) := accumulate step s' l
    (s'', b :: bs)

variable {step : σ → α → σ × β} {s : σ}

@[simp] theorem accumulate_nil : accumulate step s [] = (s, []) := rfl

@[simp] theorem accumulate_cons {a : α} {l : List α} :
    accumulate step s (a :: l) = ((accumulate step (step s a).1 l).1,
      (step s a).2 :: (accumulate step (step s a).1 l).2) := rfl

theorem accumulate_append {l l' : List α} :
    accumulate step s (l ++ l') = ((accumulate step (accumulate step s l).1 l').1,
      (accumulate step s l).2 ++ (accumulate step (accumulate step s l).1 l').2) := by
  induction l generalizing s with
  | nil => rfl
  | cons a l ih => simp [ih]

@[simp] theorem length_accumulate {l : List α} : (accumulate step s l).2.length = l.length := by
  induction l generalizing s with
  | nil => rfl
  | cons a l ih => simp [ih]

/-- The outputs of feeding consecutive pieces, piece by piece. -/
def accumulatePieces (step : σ → α → σ × β) (s : σ) : List (List α) → List (List β)
  | [] => []
  | l :: ls => (accumulate step s l).2 :: accumulatePieces step (accumulate step s l).1 ls

theorem flatten_accumulatePieces {ls : List (List α)} :
    (accumulatePieces step s ls).flatten = (accumulate step s ls.flatten).2 := by
  induction ls generalizing s with
  | nil => rfl
  | cons l ls ih => rw [accumulatePieces, List.flatten_cons, ih, List.flatten_cons,
      accumulate_append]

/-- Related states give the same outputs. -/
theorem accumulate_eq_of_rel {τ : Type*} {step' : τ → α → τ × β} {R : σ → τ → Prop} {l : List α}
    (hstep : ∀ a ∈ l, ∀ s t, R s t →
      R (step s a).1 (step' t a).1 ∧ (step s a).2 = (step' t a).2) {t : τ}
    (h : R s t) : (accumulate step s l).2 = (accumulate step' t l).2 := by
  induction l generalizing s t with
  | nil => rfl
  | cons a l ih =>
    obtain ⟨hnext, hout⟩ := hstep a List.mem_cons_self s t h
    rw [accumulate_cons, accumulate_cons, hout,
      ih (fun a' ha' => hstep a' (List.mem_cons_of_mem a ha')) hnext]

/-- The step that feeds what comes out of a step to another one. -/
def cascade {τ γ : Type*} (step : σ → α → σ × Option β) (step' : τ → β → τ × Option γ)
    (s : σ × τ) (a : α) : (σ × τ) × Option γ :=
  match step s.1 a with
  | (s', none) => ((s', s.2), none)
  | (s', some b) => ((s', (step' s.2 b).1), (step' s.2 b).2)

/-- Feeding the outputs of a series to a step, one by one. -/
theorem reduceOption_accumulate_cascade {τ γ : Type*} {step : σ → α → σ × Option β}
    {step' : τ → β → τ × Option γ} (s : σ) (t : τ) (l : List α) :
    (accumulate (cascade step step') (s, t) l).2.reduceOption =
      (accumulate step' t (accumulate step s l).2.reduceOption).2.reduceOption := by
  induction l generalizing s t with
  | nil => rfl
  | cons a l ih =>
    rw [accumulate_cons, accumulate_cons, cascade]
    dsimp only
    obtain ⟨s', _ | b⟩ := step s a
    · rw [List.reduceOption_cons_of_none, List.reduceOption_cons_of_none, ih]
    · rw [List.reduceOption_cons_of_some, accumulate_cons]
      dsimp only
      cases (step' t b).2 with
      | none => rw [List.reduceOption_cons_of_none, List.reduceOption_cons_of_none, ih]
      | some c => rw [List.reduceOption_cons_of_some, List.reduceOption_cons_of_some, ih]

/-- Elements that change nothing. -/
theorem accumulate_of_step_eq {b : β} {l : List α} (h : ∀ a ∈ l, step s a = (s, b)) :
    accumulate step s l = (s, List.replicate l.length b) := by
  induction l with
  | nil => rfl
  | cons a l ih =>
    rw [accumulate_cons, h a List.mem_cons_self, ih fun a' ha' => h a' (List.mem_cons_of_mem a ha'),
      List.length_cons, List.replicate_succ]

/-- Optional outputs that carry a mark of their element have the marks of some of the elements, in
their order. -/
theorem sublist_map_reduceOption_accumulate {K : Type*} {step : σ → α → σ × Option β} {f : α → K}
    {g : β → K} (h : ∀ s a b, (step s a).2 = some b → g b = f a) (s : σ) (l : List α) :
    ((accumulate step s l).2.reduceOption.map g).Sublist (l.map f) := by
  induction l generalizing s with
  | nil => exact .slnil
  | cons a l ih =>
    rw [accumulate_cons]
    dsimp only
    cases hb : (step s a).2 with
    | none =>
      rw [List.reduceOption_cons_of_none]
      exact (ih _).cons _
    | some b =>
      rw [List.reduceOption_cons_of_some, List.map_cons, List.map_cons, h s a b hb]
      exact (ih _).cons_cons _

/-- What a step keeps or ties to its element holds of the state after a series. -/
theorem accumulate_keeps {P : σ → Prop} {l : List α}
    (hstep : ∀ a ∈ l, ∀ s, P s → P (step s a).1) (h : P s) : P (accumulate step s l).1 := by
  induction l generalizing s with
  | nil => exact h
  | cons a l ih =>
    exact ih (fun a' ha' => hstep a' (List.mem_cons_of_mem a ha')) (hstep a List.mem_cons_self s h)

/-- What an earlier cut drops, a later one drops as well. -/
theorem dropWhile_append_of_imp {P Q : α → Bool} (h : ∀ a, P a = true → Q a = true)
    (l l' : List α) : (l.dropWhile P ++ l').dropWhile Q = (l ++ l').dropWhile Q := by
  induction l with
  | nil => rfl
  | cons a l ih =>
    by_cases hP : P a = true
    · rw [List.dropWhile_cons_of_pos hP, ih, List.cons_append,
        List.dropWhile_cons_of_pos (h a hP)]
    · rw [List.dropWhile_cons_of_neg hP]

/-- A condition that, once it fails, keeps failing, fails on all that `dropWhile` leaves. -/
theorem not_of_mem_dropWhile {P : α → Bool} {l : List α}
    (h : l.Pairwise fun a b => P a = false → P b = false) {a : α} (ha : a ∈ l.dropWhile P) :
    P a = false := by
  induction l with
  | nil => cases ha
  | cons b l ih =>
    obtain ⟨hb, hl⟩ := List.pairwise_cons.1 h
    cases hP : P b with
    | true => exact ih hl (by rwa [List.dropWhile_cons_of_pos hP] at ha)
    | false =>
      rw [List.dropWhile_cons_of_neg (by simp [hP])] at ha
      rcases List.mem_cons.1 ha with rfl | ha
      · exact hP
      · exact hb a ha hP

/-- On an ordered series, `dropWhile` keeps all that does not meet the condition. -/
theorem dropWhile_eq_filter {P : α → Bool} {l : List α}
    (h : l.Pairwise fun a b => P a = false → P b = false) :
    l.dropWhile P = l.filter fun a => !P a := by
  induction l with
  | nil => rfl
  | cons b l ih =>
    obtain ⟨hb, hl⟩ := List.pairwise_cons.1 h
    cases hP : P b with
    | true => rw [List.dropWhile_cons_of_pos hP, ih hl, List.filter_cons_of_neg (by simp [hP])]
    | false =>
      rw [List.dropWhile_cons_of_neg (by simp [hP]), List.filter_eq_self.2]
      intro a ha
      rcases List.mem_cons.1 ha with rfl | ha
      · simp [hP]
      · simp [hb a ha hP]

end Series

end Svoe
