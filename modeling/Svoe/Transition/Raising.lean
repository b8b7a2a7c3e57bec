import Mathlib.Init

/-!
# Computations that may raise

`Raising σ ε α` computes on a state; it returns or raises, and leaves a state behind in either case:
what was changed before an exception stays changed.

* `Triple` : pre- and postconditions, for returning and for raising.
* `triple_bind`, `triple_lift`, `triple_modify` : its rules.
-/

namespace Svoe

/-- A computation on a state that may raise. -/
def Raising (σ ε α : Type) : Type := σ → Except ε α × σ

namespace Raising

variable {σ ε α β : Type}

instance : Monad (Raising σ ε) where
  pure a := fun s => (.ok a, s)
  bind x f := fun s =>
    match x s with
    | (.ok a, s') => f a s'
    | (.error e, s') => (.error e, s')

/-- The state. -/
def get : Raising σ ε σ := fun s => (.ok s, s)

/-- Change the state. -/
def modify (f : σ → σ) : Raising σ ε Unit := fun s => (.ok (), f s)

/-- A computation that does not change the state. -/
def lift (x : Except ε α) : Raising σ ε α := fun s => (x, s)

variable {x : Raising σ ε α} {f : α → Raising σ ε β} {s s' : σ}

theorem pure_apply (a : α) : (pure a : Raising σ ε α) s = (.ok a, s) := rfl

theorem get_bind (f : σ → Raising σ ε β) : (get >>= f) s = f s s := rfl

theorem modify_bind (g : σ → σ) (f : Unit → Raising σ ε β) : (modify g >>= f) s = f () (g s) := rfl

theorem lift_ok_bind (a : α) : (lift (.ok a) >>= f) s = f a s := rfl

theorem lift_error_bind (e : ε) : (lift (.error e : Except ε α) >>= f) s = (.error e, s) := rfl

theorem bind_of_ok {a : α} (h : x s = (.ok a, s')) : (x >>= f) s = f a s' := by
  change (match x s with
    | (.ok a, s') => f a s'
    | (.error e, s') => (.error e, s')) = f a s'
  rw [h]

theorem bind_of_error {e : ε} (h : x s = (.error e, s')) : (x >>= f) s = (.error e, s') := by
  change (match x s with
    | (.ok a, s') => f a s'
    | (.error e, s') => (.error e, s')) = (.error e, s')
  rw [h]

/-- One computation after the other returns if both do. -/
theorem bind_eq_ok_iff {b : β} :
    (x >>= f) s = (.ok b, s') ↔ ∃ a t, x s = (.ok a, t) ∧ f a t = (.ok b, s') := by
  rcases hx : x s with ⟨e | a, t⟩
  · rw [bind_of_error hx]
    exact iff_of_false (by rintro ⟨⟩) (by rintro ⟨_, _, ⟨⟩, -⟩)
  · rw [bind_of_ok hx]
    constructor
    · exact fun h => ⟨a, t, rfl, h⟩
    · rintro ⟨_, _, ⟨⟩, h⟩
      exact h

/-! ### Pre- and postconditions -/

/-- From a state with `P`, the computation ends in a state with `Q` if it returns, and in one with
`E` if it raises. -/
def Triple (P : σ → Prop) (x : Raising σ ε α) (Q : α → σ → Prop) (E : σ → Prop) : Prop :=
  ∀ s, P s → (∀ a s', x s = (.ok a, s') → Q a s') ∧ ∀ e s', x s = (.error e, s') → E s'

variable {P P' E : σ → Prop} {Q : α → σ → Prop} {R : β → σ → Prop}

theorem triple_pure {a : α} (h : ∀ s, P s → Q a s) : Triple P (pure a : Raising σ ε α) Q E := by
  refine fun s hs => ⟨?_, ?_⟩
  · rintro _ _ ⟨⟩; exact h s hs
  · rintro _ _ ⟨⟩

theorem triple_get {Q : σ → σ → Prop} (h : ∀ s, P s → Q s s) :
    Triple P (get : Raising σ ε σ) Q E := by
  refine fun s hs => ⟨?_, ?_⟩
  · rintro _ _ ⟨⟩; exact h s hs
  · rintro _ _ ⟨⟩

theorem triple_modify {g : σ → σ} {Q : Unit → σ → Prop} (h : ∀ s, P s → Q () (g s)) :
    Triple P (modify g : Raising σ ε Unit) Q E := by
  refine fun s hs => ⟨?_, ?_⟩
  · rintro _ _ ⟨⟩; exact h s hs
  · rintro _ _ ⟨⟩

theorem triple_lift {y : Except ε α} (hok : ∀ s a, P s → y = .ok a → Q a s)
    (herror : ∀ s, P s → E s) : Triple P (lift y : Raising σ ε α) Q E := by
  refine fun s hs => ⟨?_, ?_⟩
  · rintro a _ h
    obtain ⟨hy, rfl⟩ := Prod.mk.inj h
    exact hok s a hs hy
  · rintro _ _ h
    obtain ⟨-, rfl⟩ := Prod.mk.inj h
    exact herror s hs

/-- One computation after the other. -/
theorem triple_bind (hx : Triple P x Q E) (hf : ∀ a, Triple (Q a) (f a) R E) :
    Triple P (x >>= f) R E := by
  intro s hs
  obtain ⟨hok, herror⟩ := hx s hs
  rcases hxs : x s with ⟨e | a, s₁⟩
  · rw [bind_of_error hxs]
    refine ⟨?_, ?_⟩
    · rintro _ _ ⟨⟩
    · rintro _ _ ⟨⟩; exact herror e s₁ hxs
  · rw [bind_of_ok hxs]
    exact hf a s₁ (hok a s₁ hxs)

theorem Triple.imp_pre (h : Triple P x Q E) (hP : ∀ s, P' s → P s) : Triple P' x Q E :=
  fun s hs => h s (hP s hs)

/-- The state left behind, however the computation ends. -/
theorem Triple.snd {I : σ → Prop} (h : Triple P x (fun _ => I) I) (hs : P s) : I (x s).2 := by
  obtain ⟨hok, herror⟩ := h s hs
  rcases hxs : x s with ⟨e | a, s'⟩
  · exact herror e s' hxs
  · exact hok a s' hxs

end Raising

end Svoe
