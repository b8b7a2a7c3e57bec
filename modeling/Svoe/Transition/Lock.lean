import Mathlib.Data.List.Basic

/-!
# A lock and its threads

A lock that is taken and given back at the ends of locked sections is held by a thread exactly while
the thread is inside its section.

* `HeldInside.move` : what taking the lock when it is free, and giving it back when it is one's own,
  keeps.
* `HeldInside.exclusive` : no two threads are inside together.
* `insideAt_concat`, `insideAt_set_self`, `insideAt_set_ne` : which of a list of threads are inside,
  after a new one was started, or one has gone on.
-/

namespace Svoe

namespace Lock

variable {τ : Type*}

/-- The lock is held by the thread that is inside its locked section. -/
def HeldInside (lock : Option τ) (inside : τ → Prop) : Prop := ∀ t, lock = some t ↔ inside t

/-- What the thread `t` may do to the lock, with where it is before and after. -/
inductive Move (t : τ) : Option τ → Prop → Option τ → Prop → Prop where
  | keep {lock : Option τ} {inside inside' : Prop} (h : inside' ↔ inside) :
    Move t lock inside lock inside'
  | acquire {inside inside' : Prop} (h' : inside') : Move t none inside (some t) inside'
  | release {inside inside' : Prop} (h' : ¬ inside') : Move t (some t) inside none inside'

variable {lock lock' : Option τ} {inside inside' : τ → Prop} {t u : τ}

/-- **Mutual exclusion**. -/
theorem HeldInside.exclusive (h : HeldInside lock inside) (ht : inside t) (hu : inside u) : t = u :=
  Option.some.inj (((h t).2 ht).symm.trans ((h u).2 hu))

/-- A move of one thread keeps the lock with the thread inside. -/
theorem HeldInside.move (h : HeldInside lock inside)
    (hmove : Move t lock (inside t) lock' (inside' t))
    (hothers : ∀ u, u ≠ t → (inside' u ↔ inside u)) : HeldInside lock' inside' := by
  intro u
  by_cases hu : u = t
  · subst hu
    have hu := h u
    generalize inside u = before, inside' u = after at hmove hu
    cases hmove with
    | keep hkeep => exact hu.trans hkeep.symm
    | acquire h' => exact iff_of_true rfl h'
    | release h' => exact iff_of_false (fun heq => by cases heq) h'
  · rw [hothers u hu, ← h u]
    generalize inside t = before, inside' t = after at hmove
    cases hmove with
    | keep => exact Iff.rfl
    | acquire => exact iff_of_false (fun heq => hu (Option.some.inj heq).symm) fun heq => by cases heq
    | release => exact iff_of_false (fun heq => by cases heq) fun heq => hu (Option.some.inj heq).symm

/-! ### Lists of threads -/

section Threads

variable {θ : Type*} {threads : List θ} {isInside : θ → Bool} {thread : θ} {i j : ℕ}

/-- The thread at an index is inside its locked section. -/
def InsideAt (threads : List θ) (isInside : θ → Bool) (i : ℕ) : Prop :=
  ∃ thread, threads[i]? = some thread ∧ isInside thread

theorem insideAt_iff (h : threads[i]? = some thread) :
    InsideAt threads isInside i ↔ isInside thread :=
  ⟨fun ⟨_, h', hinside⟩ => Option.some.inj (h'.symm.trans h) ▸ hinside,
    fun hinside => ⟨thread, h, hinside⟩⟩

/-- A new thread is not inside. -/
theorem insideAt_concat (h : isInside thread = false) :
    InsideAt (threads ++ [thread]) isInside i ↔ InsideAt threads isInside i := by
  refine exists_congr fun other => and_congr_left fun hother => ?_
  rw [List.getElem?_append]
  split_ifs with hi
  · exact Iff.rfl
  · rw [List.getElem?_eq_none (Nat.le_of_not_lt hi)]
    refine iff_of_false (fun hnew => ?_) fun hnone => by cases hnone
    obtain rfl := List.mem_singleton.1 (List.mem_of_getElem? hnew)
    exact Bool.false_ne_true (h.symm.trans hother)

theorem insideAt_set_self (h : threads[i]? = some thread) (thread' : θ) :
    InsideAt (threads.set i thread') isInside i ↔ isInside thread' :=
  insideAt_iff (List.getElem?_set_self (List.getElem?_eq_some_iff.1 h).1)

theorem insideAt_set_ne (hne : i ≠ j) (thread' : θ) :
    InsideAt (threads.set i thread') isInside j ↔ InsideAt threads isInside j := by
  rw [InsideAt, List.getElem?_set_ne hne, InsideAt]

end Threads

end Lock

end Svoe
