import Mathlib.Data.Nat.Notation

/-!
# While loops

A round of a loop raises, goes on with another state, or is done with a result.  `iterate round n s`
is what the loop comes to within `n` rounds.

* `Returns` : a bounded computation comes to a result if it is given enough rounds.
* `iterate_spec` : the rule of total correctness, with an invariant and a variant.
-/

namespace Svoe

namespace Transition

variable {σ ε ρ : Type*}

/-- What a loop comes to within a number of rounds; `none` if it still goes on. -/
def iterate (round : σ → Except ε (σ ⊕ ρ)) : ℕ → σ → Option (Except ε ρ)
  | 0, _ => none
  | n + 1, s =>
    match round s with
    | .error e => some (.error e)
    | .ok (.inl s) => iterate round n s
    | .ok (.inr r) => some (.ok r)

/-- With enough rounds the result is `r`. -/
def Returns (f : ℕ → Option ρ) (r : ρ) : Prop := ∃ n, ∀ m, n ≤ m → f m = some r

variable {round : σ → Except ε (σ ⊕ ρ)} {s s' : σ} {n m : ℕ}

theorem Returns.unique {f : ℕ → Option ρ} {r r' : ρ} (h : Returns f r) (h' : Returns f r') :
    r = r' := by
  obtain ⟨n, hn⟩ := h
  obtain ⟨n', hn'⟩ := h'
  exact Option.some.inj
    ((hn _ (Nat.le_max_left n n')).symm.trans (hn' _ (Nat.le_max_right n n')))

theorem iterate_of_error {e : ε} (h : round s = .error e) :
    iterate round (n + 1) s = some (.error e) := by
  rw [iterate, h]

theorem iterate_of_done {r : ρ} (h : round s = .ok (.inr r)) :
    iterate round (n + 1) s = some (.ok r) := by
  rw [iterate, h]

theorem iterate_of_goesOn (h : round s = .ok (.inl s')) :
    iterate round (n + 1) s = iterate round n s' := by
  rw [iterate, h]

/-- More rounds change nothing. -/
theorem iterate_of_le {x : Except ε ρ} (h : iterate round n s = some x) (hnm : n ≤ m) :
    iterate round m s = some x := by
  induction n generalizing s m with
  | zero => cases h
  | succ n ih =>
    obtain ⟨m, rfl⟩ := Nat.exists_eq_add_of_le' (Nat.le_of_add_left_le hnm)
    rw [iterate] at h ⊢
    cases hround : round s with
    | error e => rwa [hround] at h
    | ok next =>
      rw [hround] at h
      cases next with
      | inl s' => exact ih h (Nat.le_of_succ_le_succ hnm)
      | inr r => exact h

theorem returns_of_iterate {x : Except ε ρ} (h : iterate round n s = some x) :
    Returns (fun n => iterate round n s) x :=
  ⟨n, fun _ hm => iterate_of_le h hm⟩

theorem returns_of_error {e : ε} (h : round s = .error e) :
    Returns (fun n => iterate round n s) (.error e) :=
  returns_of_iterate (iterate_of_error (n := 0) h)

theorem returns_of_done {r : ρ} (h : round s = .ok (.inr r)) :
    Returns (fun n => iterate round n s) (.ok r) :=
  returns_of_iterate (iterate_of_done (n := 0) h)

theorem returns_of_goesOn {x : Except ε ρ} (h : round s = .ok (.inl s'))
    (h' : Returns (fun n => iterate round n s') x) : Returns (fun n => iterate round n s) x := by
  obtain ⟨n, hn⟩ := h'
  exact returns_of_iterate ((iterate_of_goesOn h).trans (hn n (Nat.le_refl n)))

theorem Returns.map {ρ' : Type*} {f : ℕ → Option ρ} {r : ρ} (h : Returns f r) (g : ρ → ρ') :
    Returns (fun n => (f n).map g) (g r) := by
  obtain ⟨n, hn⟩ := h
  exact ⟨n, fun m hm => congrArg (Option.map g) (hn m hm)⟩

/-- **Total correctness**: a loop whose rounds do not raise, keep an invariant and decrease a
variant ends, with what its last round gives. -/
theorem iterate_spec {I : σ → Prop} {Q : ρ → Prop} (variant : σ → ℕ)
    (hround : ∀ s, I s → (∃ s', round s = .ok (.inl s') ∧ I s' ∧ variant s' < variant s) ∨
      ∃ r, round s = .ok (.inr r) ∧ Q r)
    (hs : I s) : ∃ r, Returns (fun n => iterate round n s) (.ok r) ∧ Q r := by
  suffices ∀ n s, I s → variant s < n → ∃ r, iterate round n s = some (.ok r) ∧ Q r by
    obtain ⟨r, hr, hQ⟩ := this (variant s + 1) s hs (Nat.lt_succ_self _)
    exact ⟨r, returns_of_iterate hr, hQ⟩
  intro n
  induction n with
  | zero => exact fun s _ hn => absurd hn (Nat.not_lt_zero _)
  | succ n ih =>
    intro s hs hn
    obtain ⟨s', hgoesOn, hs', hlt⟩ | ⟨r, hdone, hr⟩ := hround s hs
    · rw [iterate_of_goesOn hgoesOn]
      exact ih s' hs' (Nat.lt_of_lt_of_le hlt (Nat.le_of_lt_succ hn))
    · exact ⟨r, iterate_of_done hdone, hr⟩

end Transition

end Svoe
