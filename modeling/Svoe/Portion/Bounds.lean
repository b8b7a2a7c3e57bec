import Svoe.Portion.IntervalDict

/-!
# Where the ends of intervals come from

No operation makes up an end: the ends of a result are ends of the arguments.  `BoundsIn S` says
that all ends satisfy `S`, for intervals and for the keys of interval dictionaries.

* `Interval.BoundsIn.inter`, `Interval.BoundsIn.diff`, `Interval.BoundsIn.union`
* `IntervalDict.BoundsIn.set`, `IntervalDict.BoundsIn.restrict`, `IntervalDict.BoundsIn.combine`
-/

namespace Svoe.Portion

variable {C V : Type*} [LinearOrder C] {S : C → Prop}

namespace Interval

variable {I J : Interval C} {lo hi : C} {a b : Atom C} {bs : List (Atom C)}

/-- All ends of an interval satisfy `S`. -/
def BoundsIn (S : C → Prop) (I : Interval C) : Prop := ∀ a ∈ I.atoms, S a.lo ∧ S a.hi

theorem boundsIn_empty : (empty : Interval C).BoundsIn S := by
  intro a ha
  cases ha

theorem boundsIn_ofCuts (hlo : S lo) (hhi : S hi) : (ofCuts lo hi).BoundsIn S := by
  intro a ha
  obtain ⟨rfl, rfl⟩ := mem_atoms.1 ha
  exact ⟨hlo, hhi⟩

theorem prop_max {x y : C} (hx : S x) (hy : S y) : S (max x y) := by
  rcases max_choice x y with h | h <;> rwa [h]

theorem prop_min {x y : C} (hx : S x) (hy : S y) : S (min x y) := by
  rcases min_choice x y with h | h <;> rwa [h]

theorem BoundsIn.inter (hI : I.BoundsIn S) (hJ : J.BoundsIn S) : (I.inter J).BoundsIn S := by
  intro x hx
  obtain ⟨a, ha, hx⟩ := List.mem_flatMap.1 hx
  obtain ⟨b, hb, hx⟩ := List.mem_flatMap.1 hx
  obtain ⟨hlo, hhi⟩ := mem_atoms.1 hx
  rw [hlo, hhi]
  exact ⟨prop_max (hI a ha).1 (hJ b hb).1, prop_min (hI a ha).2 (hJ b hb).2⟩

theorem BoundsIn.diffAtom (hI : I.BoundsIn S) (hlo : S b.lo) (hhi : S b.hi) :
    (I.diffAtom b).BoundsIn S := by
  intro x hx
  obtain ⟨a, ha, hx⟩ := List.mem_flatMap.1 hx
  rcases List.mem_append.1 hx with hx | hx <;> obtain ⟨h1, h2⟩ := mem_atoms.1 hx <;> rw [h1, h2]
  · exact ⟨(hI a ha).1, prop_min (hI a ha).2 hlo⟩
  · exact ⟨prop_max (hI a ha).1 hhi, (hI a ha).2⟩

theorem BoundsIn.diff (hI : I.BoundsIn S) (hJ : J.BoundsIn S) : (I.diff J).BoundsIn S := by
  rw [BoundsIn] at hJ
  rw [Interval.diff]
  generalize J.atoms = bs at hJ
  induction bs generalizing I with
  | nil => exact hI
  | cons b bs ih =>
    obtain ⟨hb, hbs⟩ := List.forall_mem_cons.1 hJ
    exact ih (hI.diffAtom hb.1 hb.2) hbs

theorem boundsIn_insertAtom (ha : S a.lo ∧ S a.hi) (hbs : ∀ b ∈ bs, S b.lo ∧ S b.hi) :
    ∀ x ∈ insertAtom a bs, S x.lo ∧ S x.hi := by
  induction bs generalizing a with
  | nil => simpa [insertAtom] using ha
  | cons b bs ih =>
    obtain ⟨hb, hrest⟩ := List.forall_mem_cons.1 hbs
    rw [insertAtom]
    split_ifs
    · exact List.forall_mem_cons.2 ⟨ha, hbs⟩
    · exact List.forall_mem_cons.2 ⟨hb, ih ha hrest⟩
    · exact ih ⟨prop_min ha.1 hb.1, prop_max ha.2 hb.2⟩ hrest

theorem BoundsIn.union (hI : I.BoundsIn S) (hJ : J.BoundsIn S) : (I.union J).BoundsIn S := by
  rw [BoundsIn] at hJ
  rw [Interval.union]
  generalize J.atoms = bs at hJ
  induction bs generalizing I with
  | nil => exact hI
  | cons b bs ih =>
    obtain ⟨hb, hbs⟩ := List.forall_mem_cons.1 hJ
    exact ih (boundsIn_insertAtom hb hI) hbs

theorem BoundsIn.hull {K : Type*} [LinearOrder K] {S : K → Prop} {I : Interval (Cut K)}
    {J : ClosedInterval K} (hI : I.BoundsIn fun c => S (ofLex c).1) (h : I.hull = some J) :
    S J.lower ∧ S J.upper := by
  obtain ⟨a, b, ha, hb, rfl⟩ := exists_of_hull h
  exact ⟨(hI a (List.mem_of_head? ha)).1, (hI b (List.mem_of_getLast? hb)).2⟩

end Interval

namespace IntervalDict

/-- All ends of the keys satisfy `S`. -/
def BoundsIn (S : C → Prop) (d : IntervalDict C V) : Prop := ∀ p ∈ d.items, p.1.BoundsIn S

variable {d : IntervalDict C V}

theorem boundsIn_empty : (empty : IntervalDict C V).BoundsIn S := by
  intro p hp
  cases hp

theorem BoundsIn.domain (h : d.BoundsIn S) : d.domain.BoundsIn S := by
  rw [BoundsIn] at h
  suffices ∀ I : Interval C, I.BoundsIn S →
      (d.items.foldl (fun I p => I.union p.1) I).BoundsIn S from this _ Interval.boundsIn_empty
  generalize d.items = l at h
  intro I hI
  induction l generalizing I with
  | nil => exact hI
  | cons p l ih =>
    obtain ⟨hp, hl⟩ := List.forall_mem_cons.1 h
    exact ih hl _ (hI.union hp)

variable [DecidableEq V]

theorem BoundsIn.set {I : Interval C} {v : V} (h : d.BoundsIn S) (hI : I.BoundsIn S) :
    (d.set I v).BoundsIn S := by
  unfold IntervalDict.set
  split_ifs
  · exact h
  · intro p hp
    rcases List.mem_cons.1 ((List.perm_insertionSort _ _).mem_iff.1 hp) with rfl | hp
    · change (joinedKey d I v).BoundsIn S
      unfold joinedKey
      split
      · exact hI
      · next q hq => exact (h q (List.mem_of_find?_eq_some hq)).union hI
    · obtain ⟨-, -, i, hi, heq⟩ := mem_cutItems.1 hp
      rw [heq]
      exact (h _ hi).diff hI

theorem boundsIn_ofItems {l : List (Interval C × V)} (h : ∀ p ∈ l, p.1.BoundsIn S) :
    (ofItems l).BoundsIn S := by
  suffices ∀ d : IntervalDict C V, d.BoundsIn S →
      (l.foldl (fun d p => d.set p.1 p.2) d).BoundsIn S from this _ boundsIn_empty
  intro d hd
  induction l generalizing d with
  | nil => exact hd
  | cons p l ih =>
    obtain ⟨hp, hl⟩ := List.forall_mem_cons.1 h
    exact ih hl _ (hd.set hp)

theorem BoundsIn.restrict {J : Interval C} (h : d.BoundsIn S) (hJ : J.BoundsIn S) :
    (d.restrict J).BoundsIn S :=
  boundsIn_ofItems (List.forall_mem_map.2 fun p hp => hJ.inter (h p hp))

theorem BoundsIn.combine {V₁ V₂ : Type*} [DecidableEq V₁] [DecidableEq V₂] {left : V₁ → V}
    {right : V₂ → V} {how : V₁ → V₂ → V} {d₁ : IntervalDict C V₁} {d₂ : IntervalDict C V₂}
    (h₁ : d₁.BoundsIn S) (h₂ : d₂.BoundsIn S) : (combine left right how d₁ d₂).BoundsIn S := by
  have hboth := h₁.domain.inter h₂.domain
  refine boundsIn_ofItems fun p hp => ?_
  simp only [List.mem_append, List.mem_map, List.mem_flatMap, List.mem_filter] at hp
  rcases hp with (⟨q, hq, rfl⟩ | ⟨q, hq, rfl⟩) | ⟨q, hq, q', ⟨hq', -⟩, rfl⟩
  · exact h₁.restrict (h₁.domain.diff h₂.domain) q hq
  · exact h₂.restrict (h₂.domain.diff h₁.domain) q hq
  · exact (h₁.restrict hboth q hq).inter (h₂.restrict hboth q' hq')

end IntervalDict

end Svoe.Portion
