import Mathlib.Algebra.Order.BigOperators.Group.List
import Mathlib.Tactic.Linarith
import Svoe.L2Book.Regroup
import Svoe.Transition.Basic

/-!
# Dead levels

A SET of size zero and a SUB down to zero delete their level.  An ADD or SNAPSHOT of size zero makes
a level of that size, and a SUB of more than there is leaves a level of negative size, which no SUB
takes away any more.

* `alive_iff_keepsLevel` : one level, one event.
* `noDeadLevels_iff` : no state of a run has such a level exactly if no event makes one.
-/

namespace Svoe

/-- An event with sizes that are not negative. -/
abbrev FeedEvent := {e : CryptotickEvent // ∀ o ∈ e.orders, 0 ≤ o.size}

/-- The level is absent or has a positive size. -/
def Alive (cur : Option ℚ) : Prop := ∀ size, cur = some size → 0 < size

/-- No level of the book has a size of zero or less. -/
def NoDeadLevels (b : OrderBook) : Prop := ∀ s p, Alive (b.lookup s p)

/-- `cryptotick_update_state` as a step. -/
def feedStep (state : L2State) (e : FeedEvent) : Option L2State :=
  some (cryptotickUpdateState state e.1).1

/-- Orders of these sizes leave the level alive.  ADD and SNAPSHOT orders make a level of a positive
size, if any; SUB orders take less than there is, or some of the first take exactly that. -/
def UpdateType.KeepsLevel (u : UpdateType) (sizes : List ℚ) (cur : Option ℚ) : Prop :=
  match u with
  | .set => True
  | .add | .snapshot => sizes = [] ∨ cur.isSome ∨ ∃ size ∈ sizes, 0 < size
  | .sub => ∀ c, cur = some c → sizes.sum < c ∨ ∃ l, l <+: sizes ∧ l.sum = c

/-- An event that is not skipped keeps all levels alive. -/
def KeepsLevels (state : L2State) (e : FeedEvent) : Prop :=
  state.inited = true ∨ e.1.updateType = .snapshot → ∀ s p,
    e.1.updateType.KeepsLevel (sizesAt e.1.orders s p)
      (if e.1.updateType = .snapshot then none else state.orderBook.lookup s p)

variable {cur : Option ℚ} {c : ℚ} {sizes : List ℚ} {u : UpdateType} {s : Side} {p : ℚ}

@[simp] theorem alive_none : Alive none := fun _ h => by cases h

@[simp] theorem alive_some : Alive (some c) ↔ 0 < c := by simp [Alive]

/-! ### One level -/

theorem sum_pos_iff (h : ∀ size ∈ sizes, 0 ≤ size) : 0 < sizes.sum ↔ ∃ size ∈ sizes, 0 < size := by
  induction sizes with
  | nil => simp
  | cons size sizes ih =>
    obtain ⟨hsize, hsizes⟩ := List.forall_mem_cons.1 h
    have hsum : 0 ≤ sizes.sum := List.sum_nonneg hsizes
    rw [List.sum_cons, List.exists_mem_cons_iff, ← ih hsizes]
    constructor
    · intro hpos
      by_contra hnot
      rw [not_or, not_lt, not_lt] at hnot
      linarith
    · rintro (hpos | hpos) <;> linarith

/-- Adding to a level. -/
theorem alive_add_iff (h : ∀ size ∈ sizes, 0 ≤ size) (hcur : Alive cur) :
    Alive (if sizes = [] then cur else some (cur.getD 0 + sizes.sum)) ↔
      sizes = [] ∨ cur.isSome ∨ ∃ size ∈ sizes, 0 < size := by
  split_ifs with hnil
  · exact iff_of_true hcur (.inl hnil)
  · rw [or_iff_right hnil, alive_some, ← sum_pos_iff h]
    cases cur with
    | none => simp
    | some c =>
      have hc : 0 < c := alive_some.1 hcur
      have hsum := List.sum_nonneg h
      exact iff_of_true (add_pos_of_pos_of_nonneg hc hsum) (.inl rfl)

/-- A negative size stays negative. -/
theorem not_alive_sub_of_neg (h : ∀ size ∈ sizes, 0 ≤ size) (hc : c < 0) :
    ¬ Alive (sizes.foldl (fun cur size => UpdateType.sub.onLevel size cur) (some c)) := by
  induction sizes generalizing c with
  | nil =>
    rw [List.foldl_nil, alive_some]
    exact hc.not_gt
  | cons size sizes ih =>
    obtain ⟨hsize, hsizes⟩ := List.forall_mem_cons.1 h
    have hneg : c - size < 0 := by linarith
    rw [List.foldl_cons, UpdateType.onLevel, if_neg hneg.ne]
    exact ih hsizes hneg

/-- **Taking from a level.** -/
theorem alive_sub_iff (h : ∀ size ∈ sizes, 0 ≤ size) (hc : 0 < c) :
    Alive (sizes.foldl (fun cur size => UpdateType.sub.onLevel size cur) (some c)) ↔
      sizes.sum < c ∨ ∃ l, l <+: sizes ∧ l.sum = c := by
  induction sizes generalizing c with
  | nil => exact iff_of_true (alive_some.2 hc) (.inl hc)
  | cons size sizes ih =>
    obtain ⟨hsize, hsizes⟩ := List.forall_mem_cons.1 h
    have hprefix : (∃ l, l <+: size :: sizes ∧ l.sum = c) ↔
        ∃ l, l <+: sizes ∧ l.sum = c - size := by
      constructor
      · rintro ⟨_ | ⟨size', l⟩, hl, hsum⟩
        · exact absurd hsum hc.ne
        · obtain ⟨rfl, htail⟩ := List.cons_prefix_cons.1 hl
          rw [List.sum_cons] at hsum
          exact ⟨l, htail, by linarith⟩
      · rintro ⟨l, hl, hsum⟩
        exact ⟨size :: l, List.cons_prefix_cons.2 ⟨rfl, hl⟩, by rw [List.sum_cons]; linarith⟩
    rw [List.foldl_cons, UpdateType.onLevel, hprefix, List.sum_cons]
    rcases lt_trichotomy (c - size) 0 with hneg | hzero | hpos
    · rw [if_neg hneg.ne]
      refine iff_of_false (not_alive_sub_of_neg hsizes hneg) ?_
      have hsum := List.sum_nonneg hsizes
      rintro (hlt | ⟨l, hl, hl'⟩)
      · linarith
      · have hpart := List.sum_nonneg fun x hx => hsizes x (hl.subset hx)
        linarith
    · rw [if_pos hzero, foldl_onLevel_sub_none]
      exact iff_of_true alive_none (.inr ⟨[], List.nil_prefix, hzero.symm⟩)
    · rw [if_neg hpos.ne', ih hsizes hpos, lt_sub_iff_add_lt']

/-- **One level, one event**: it stays alive exactly if the event keeps it so. -/
theorem alive_iff_keepsLevel (h : ∀ size ∈ sizes, 0 ≤ size) (hcur : Alive cur) :
    Alive (sizes.foldl (fun cur size => u.onLevel size cur) cur) ↔ u.KeepsLevel sizes cur := by
  cases u with
  | add =>
    rw [foldl_onLevel_add]
    exact alive_add_iff h hcur
  | snapshot =>
    rw [foldl_onLevel_snapshot]
    exact alive_add_iff h hcur
  | set =>
    refine iff_of_true ?_ trivial
    rw [foldl_onLevel_set]
    cases hlast : sizes.getLast? with
    | none => exact hcur
    | some size =>
      have hsize := h size (List.mem_of_getLast? hlast)
      by_cases hzero : size = 0
      · simp [hzero]
      · simpa [hzero] using lt_of_le_of_ne hsize (Ne.symm hzero)
  | sub =>
    cases cur with
    | none =>
      rw [foldl_onLevel_sub_none]
      exact iff_of_true alive_none fun c hc => by cases hc
    | some c =>
      rw [alive_sub_iff h (alive_some.1 hcur)]
      simp [UpdateType.KeepsLevel]

/-! ### Runs -/

theorem sizesAt_nonneg (e : FeedEvent) (s : Side) (p : ℚ) :
    ∀ size ∈ sizesAt e.1.orders s p, 0 ≤ size := by
  rw [sizesAt, List.forall_mem_map]
  exact fun o ho => e.2 o (List.mem_of_mem_filter ho)

/-- **One event.** -/
theorem noDeadLevels_feedStep {state : L2State} (h : NoDeadLevels state.orderBook) (e : FeedEvent) :
    NoDeadLevels (cryptotickUpdateState state e.1).1.orderBook ↔ KeepsLevels state e := by
  by_cases happlied : state.inited = true ∨ e.1.updateType = .snapshot
  · rw [NoDeadLevels, KeepsLevels, imp_iff_right happlied]
    refine forall_congr' fun s => forall_congr' fun p => ?_
    rw [lookup_cryptotickUpdateState happlied, levelEvent, levelOrders_eq_foldl]
    refine alive_iff_keepsLevel (sizesAt_nonneg e s p) ?_
    split_ifs
    · exact alive_none
    · exact h s p
  · refine iff_of_true ?_ fun happlied' => absurd happlied' happlied
    rw [not_or, Bool.not_eq_true] at happlied
    rw [cryptotickUpdateState, if_pos ⟨happlied.2, happlied.1⟩]
    exact h

/-- No event raises. -/
theorem exists_run_feedStep (state : L2State) (events : List FeedEvent) :
    ∃ final, Transition.run feedStep state events = some final := by
  induction events generalizing state with
  | nil => exact ⟨state, rfl⟩
  | cons e events ih => exact ih _

/-- **No state of a run has a dead level** exactly if every event keeps the levels alive. -/
theorem noDeadLevels_iff (events : List FeedEvent) :
    Transition.AllStates feedStep (fun state => NoDeadLevels state.orderBook) {} events ↔
      Transition.AllSteps feedStep KeepsLevels {} events := by
  obtain ⟨final, hrun⟩ := exists_run_feedStep {} events
  refine Transition.allStates_iff_allSteps (I := fun _ => True) (fun state e state' _ h hstep => ?_)
    trivial (fun s p => by simp) hrun
  obtain rfl := Option.some.inj hstep
  exact ⟨fun _ => trivial, noDeadLevels_feedStep h e⟩

/-- A bid of size 5, of which 7 are taken. -/
def oversubtractedFeed : List FeedEvent :=
  [⟨⟨1, 1, .snapshot, [⟨.bid, 100, 5⟩]⟩, by decide⟩, ⟨⟨2, 2, .sub, [⟨.bid, 100, 7⟩]⟩, by decide⟩]

/-- The bid stays in the book with a size of -2. -/
theorem not_noDeadLevels_oversubtractedFeed :
    ¬ Transition.AllStates feedStep (fun state => NoDeadLevels state.orderBook) {}
      oversubtractedFeed := by
  intro h
  have hlast := Transition.of_allStates h rfl .bid 100 (-2) (by decide +kernel)
  revert hlast
  decide

end Svoe
