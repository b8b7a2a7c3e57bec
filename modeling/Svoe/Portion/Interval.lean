import Mathlib.Data.List.Pairwise
import Mathlib.Data.Prod.Lex
import Mathlib.Data.List.Basic
import Mathlib.Order.MinMax
import Mathlib.Order.WithBot

/-!
# Intervals as unions of atoms

An interval of the `portion` library is a finite union of atoms, each with open or closed ends,
kept in normal form: sorted, disjoint and not touching.  An end is a *cut* of the points: the
closed end `[x` cuts just before `x`, the open end `(x` just after it.  In terms of cuts every
atom is half-open, so the theory is that of half-open atoms `[lo, hi)` over a linear order `C`;
`closed` embeds the closed intervals of a linear order `K` at `C = Cut K`.

An interval carries its normal form, and is determined by its members (`Interval.ext_mem`).
-/

namespace Svoe.Portion

variable {C : Type*} [LinearOrder C]

/-! ### Atoms -/

/-- A non-empty half-open atom. -/
structure Atom (C : Type*) [LinearOrder C] where
  lo : C
  hi : C
  lt : lo < hi
  deriving DecidableEq

instance : Membership C (Atom C) := ⟨fun a c => a.lo ≤ c ∧ c < a.hi⟩

theorem Atom.mem_def {a : Atom C} {c : C} : c ∈ a ↔ a.lo ≤ c ∧ c < a.hi := Iff.rfl

/-- The atoms (one or none) of `[lo, hi)`. -/
def atoms (lo hi : C) : List (Atom C) := if h : lo < hi then [⟨lo, hi, h⟩] else []

theorem mem_atoms {lo hi : C} {a : Atom C} : a ∈ atoms lo hi ↔ a.lo = lo ∧ a.hi = hi := by
  unfold atoms
  split_ifs with h
  · rw [List.mem_singleton]
    constructor
    · rintro rfl; exact ⟨rfl, rfl⟩
    · obtain ⟨l, u, hlt⟩ := a; rintro ⟨rfl, rfl⟩; rfl
  · refine iff_of_false (by simp) ?_
    rintro ⟨rfl, rfl⟩
    exact h a.lt

theorem exists_mem_atoms {lo hi c : C} : (∃ a ∈ atoms lo hi, c ∈ a) ↔ lo ≤ c ∧ c < hi := by
  constructor
  · rintro ⟨a, ha, hc⟩
    obtain ⟨rfl, rfl⟩ := mem_atoms.1 ha
    exact hc
  · intro h
    exact ⟨⟨lo, hi, h.1.trans_lt h.2⟩, mem_atoms.2 ⟨rfl, rfl⟩, h⟩

theorem pairwise_atoms {lo hi : C} {R : Atom C → Atom C → Prop} : (atoms lo hi).Pairwise R := by
  unfold atoms
  split_ifs <;> simp

/-! ### Intervals -/

/-- A finite union of atoms in normal form. -/
structure Interval (C : Type*) [LinearOrder C] where
  atoms : List (Atom C)
  apart : atoms.Pairwise fun a b => a.hi < b.lo
  deriving DecidableEq

namespace Interval

instance : Membership C (Interval C) := ⟨fun I c => ∃ a ∈ I.atoms, c ∈ a⟩

theorem mem_def {I : Interval C} {c : C} : c ∈ I ↔ ∃ a ∈ I.atoms, c ∈ a := Iff.rfl

instance (I : Interval C) (c : C) : Decidable (c ∈ I) :=
  inferInstanceAs (Decidable (∃ a ∈ I.atoms, a.lo ≤ c ∧ c < a.hi))

/-- The interval without members. -/
def empty : Interval C := ⟨[], List.Pairwise.nil⟩

@[simp] theorem not_mem_empty (c : C) : c ∉ (empty : Interval C) := by
  rintro ⟨a, ha, -⟩
  cases ha

/-- The interval `[lo, hi)`. -/
def ofCuts (lo hi : C) : Interval C := ⟨Portion.atoms lo hi, pairwise_atoms⟩

@[simp] theorem mem_ofCuts {lo hi c : C} : c ∈ ofCuts lo hi ↔ lo ≤ c ∧ c < hi :=
  exists_mem_atoms

theorem exists_mem {I : Interval C} (h : I ≠ empty) : ∃ c, c ∈ I := by
  obtain ⟨as, hap⟩ := I
  cases as with
  | nil => exact absurd rfl h
  | cons a as => exact ⟨a.lo, a, List.mem_cons_self, le_rfl, a.lt⟩

theorem eq_empty_iff {I : Interval C} : I = empty ↔ ∀ c, c ∉ I := by
  constructor
  · rintro rfl c
    exact not_mem_empty c
  · intro h
    by_contra hne
    obtain ⟨c, hc⟩ := exists_mem hne
    exact h c hc

/-- The members in the tail of a normal form lie behind the first atom. -/
theorem hi_lt_of_mem_tail {a : Atom C} {as : List (Atom C)}
    (h : (a :: as).Pairwise fun a b => a.hi < b.lo) {c : C} (hc : ∃ x ∈ as, c ∈ x) :
    a.hi < c := by
  obtain ⟨x, hx, hc⟩ := hc
  exact ((List.pairwise_cons.1 h).1 x hx).trans_le hc.1

/-- **An interval is determined by its members.** -/
theorem ext_mem {I J : Interval C} (h : ∀ c, c ∈ I ↔ c ∈ J) : I = J := by
  obtain ⟨as, has⟩ := I
  obtain ⟨bs, hbs⟩ := J
  simp only [mem_def] at h
  suffices as = bs by subst this; rfl
  induction as generalizing bs with
  | nil =>
    cases bs with
    | nil => rfl
    | cons b bs => exact absurd ((h b.lo).2 ⟨b, List.mem_cons_self, le_rfl, b.lt⟩) (by simp)
  | cons a as ih =>
    cases bs with
    | nil => exact absurd ((h a.lo).1 ⟨a, List.mem_cons_self, le_rfl, a.lt⟩) (by simp)
    | cons b bs =>
      have hA := fun c => hi_lt_of_mem_tail has (c := c)
      have hB := fun c => hi_lt_of_mem_tail hbs (c := c)
      simp only [List.exists_mem_cons_iff] at h
      -- the first atoms start at the least member and end at the first non-member behind it
      have hlo : a.lo = b.lo := by
        apply le_antisymm
        · rcases (h b.lo).2 (.inl ⟨le_rfl, b.lt⟩) with hc | hc
          · exact hc.1
          · exact (a.lt.trans (hA _ hc)).le
        · rcases (h a.lo).1 (.inl ⟨le_rfl, a.lt⟩) with hc | hc
          · exact hc.1
          · exact (b.lt.trans (hB _ hc)).le
      have hhi : a.hi = b.hi := by
        apply le_antisymm
        · by_contra! hlt
          rcases (h b.hi).1 (.inl ⟨hlo.le.trans b.lt.le, hlt⟩) with hc | hc
          · exact lt_irrefl _ hc.2
          · exact lt_irrefl _ (hB _ hc)
        · by_contra! hlt
          rcases (h a.hi).2 (.inl ⟨hlo.ge.trans a.lt.le, hlt⟩) with hc | hc
          · exact lt_irrefl _ hc.2
          · exact lt_irrefl _ (hA _ hc)
      obtain rfl : a = b := by
        obtain ⟨l, u, hl⟩ := a
        obtain ⟨l', u', hl'⟩ := b
        obtain rfl : l = l' := hlo
        obtain rfl : u = u' := hhi
        rfl
      rw [ih (List.pairwise_cons.1 has).2 bs (List.pairwise_cons.1 hbs).2 fun c => ?_]
      constructor
      · intro hc
        exact ((h c).1 (.inr hc)).resolve_left fun hc' => hc'.2.not_gt (hA c hc)
      · intro hc
        exact ((h c).2 (.inr hc)).resolve_left fun hc' => hc'.2.not_gt (hB c hc)

/-! ### Intersection, difference and union -/

/-- `I & J`. -/
def inter (I J : Interval C) : Interval C where
  atoms := I.atoms.flatMap fun a => J.atoms.flatMap fun b =>
    Portion.atoms (max a.lo b.lo) (min a.hi b.hi)
  apart := by
    rw [List.pairwise_flatMap]
    constructor
    · intro a _
      rw [List.pairwise_flatMap]
      refine ⟨fun _ _ => pairwise_atoms, J.apart.imp fun {b b'} hb x hx y hy => ?_⟩
      obtain ⟨-, hx⟩ := mem_atoms.1 hx
      obtain ⟨hy, -⟩ := mem_atoms.1 hy
      rw [hx, hy]
      exact (min_le_right _ _).trans_lt (hb.trans_le (le_max_right _ _))
    · refine I.apart.imp fun {a a'} ha x hx y hy => ?_
      obtain ⟨b, -, hx⟩ := List.mem_flatMap.1 hx
      obtain ⟨b', -, hy⟩ := List.mem_flatMap.1 hy
      obtain ⟨-, hx⟩ := mem_atoms.1 hx
      obtain ⟨hy, -⟩ := mem_atoms.1 hy
      rw [hx, hy]
      exact (min_le_left _ _).trans_lt (ha.trans_le (le_max_left _ _))

@[simp] theorem mem_inter {I J : Interval C} {c : C} : c ∈ I.inter J ↔ c ∈ I ∧ c ∈ J := by
  simp only [mem_def, inter, List.mem_flatMap]
  constructor
  · rintro ⟨x, ⟨a, ha, b, hb, hx⟩, hc⟩
    obtain ⟨h1, h2⟩ := mem_atoms.1 hx
    rw [Atom.mem_def, h1, h2, max_le_iff, lt_min_iff] at hc
    exact ⟨⟨a, ha, hc.1.1, hc.2.1⟩, b, hb, hc.1.2, hc.2.2⟩
  · rintro ⟨⟨a, ha, hca⟩, b, hb, hcb⟩
    obtain ⟨x, hx, hc⟩ := exists_mem_atoms.2
      ⟨max_le hca.1 hcb.1, lt_min hca.2 hcb.2⟩
    exact ⟨x, ⟨a, ha, b, hb, hx⟩, hc⟩

/-- What an atom leaves of an interval. -/
def diffAtom (I : Interval C) (b : Atom C) : Interval C where
  atoms := I.atoms.flatMap fun a =>
    Portion.atoms a.lo (min a.hi b.lo) ++ Portion.atoms (max a.lo b.hi) a.hi
  apart := by
    rw [List.pairwise_flatMap]
    constructor
    · intro a _
      refine List.pairwise_append.2 ⟨pairwise_atoms, pairwise_atoms, fun x hx y hy => ?_⟩
      obtain ⟨-, hx⟩ := mem_atoms.1 hx
      obtain ⟨hy, -⟩ := mem_atoms.1 hy
      rw [hx, hy]
      exact (min_le_right _ _).trans_lt (b.lt.trans_le (le_max_right _ _))
    · refine I.apart.imp fun {a a'} ha x hx y hy => ?_
      have hxa : x.hi ≤ a.hi := by
        rcases List.mem_append.1 hx with hx | hx
        · rw [(mem_atoms.1 hx).2]; exact min_le_left _ _
        · rw [(mem_atoms.1 hx).2]
      have hya : a'.lo ≤ y.lo := by
        rcases List.mem_append.1 hy with hy | hy
        · rw [(mem_atoms.1 hy).1]
        · rw [(mem_atoms.1 hy).1]; exact le_max_left _ _
      exact hxa.trans_lt (ha.trans_le hya)

theorem mem_diffAtom {I : Interval C} {b : Atom C} {c : C} :
    c ∈ I.diffAtom b ↔ c ∈ I ∧ c ∉ b := by
  simp only [mem_def, diffAtom, List.mem_flatMap, List.mem_append]
  constructor
  · rintro ⟨x, ⟨a, ha, hx | hx⟩, hc⟩
    · obtain ⟨h1, h2⟩ := mem_atoms.1 hx
      rw [Atom.mem_def, h1, h2, lt_min_iff] at hc
      exact ⟨⟨a, ha, hc.1, hc.2.1⟩, fun hb => hb.1.not_gt hc.2.2⟩
    · obtain ⟨h1, h2⟩ := mem_atoms.1 hx
      rw [Atom.mem_def, h1, h2, max_le_iff] at hc
      exact ⟨⟨a, ha, hc.1.1, hc.2⟩, fun hb => hb.2.not_ge hc.1.2⟩
  · rintro ⟨⟨a, ha, hca⟩, hcb⟩
    rw [Atom.mem_def, not_and_or, not_le, not_lt] at hcb
    rcases hcb with hcb | hcb
    · obtain ⟨x, hx, hc⟩ := exists_mem_atoms.2 ⟨hca.1, lt_min hca.2 hcb⟩
      exact ⟨x, ⟨a, ha, .inl hx⟩, hc⟩
    · obtain ⟨x, hx, hc⟩ := exists_mem_atoms.2 ⟨max_le hca.1 hcb, hca.2⟩
      exact ⟨x, ⟨a, ha, .inr hx⟩, hc⟩

/-- `I - J`. -/
def diff (I J : Interval C) : Interval C := J.atoms.foldl diffAtom I

@[simp] theorem mem_diff {I J : Interval C} {c : C} : c ∈ I.diff J ↔ c ∈ I ∧ c ∉ J := by
  simp only [diff, mem_def (I := J)]
  induction J.atoms generalizing I with
  | nil => simp
  | cons b bs ih =>
    rw [List.foldl_cons, ih, mem_diffAtom]
    simp [and_assoc]

theorem diff_eq_empty_iff {I J : Interval C} : I.diff J = empty ↔ ∀ c ∈ I, c ∈ J := by
  simp only [eq_empty_iff, mem_diff, not_and, not_not]

/-- Put an atom into a normal form, joining what it overlaps or touches. -/
def insertAtom (a : Atom C) : List (Atom C) → List (Atom C)
  | [] => [a]
  | b :: bs =>
    if a.hi < b.lo then a :: b :: bs
    else if b.hi < a.lo then b :: insertAtom a bs
    else insertAtom ⟨min a.lo b.lo, max a.hi b.hi,
      (min_le_left _ _).trans_lt (a.lt.trans_le (le_max_left _ _))⟩ bs

theorem lt_of_mem_insertAtom {x : C} {a : Atom C} {bs : List (Atom C)} (ha : x < a.lo)
    (hbs : ∀ b ∈ bs, x < b.lo) : ∀ b ∈ insertAtom a bs, x < b.lo := by
  induction bs generalizing a with
  | nil => simpa [insertAtom] using ha
  | cons b bs ih =>
    have hb := hbs b List.mem_cons_self
    have hbs := fun b hb => hbs b (List.mem_cons_of_mem _ hb)
    rw [insertAtom]
    split_ifs
    · simpa using ⟨ha, hb, hbs⟩
    · simpa [hb] using ih ha hbs
    · exact ih (lt_min ha hb) hbs

theorem pairwise_insertAtom {a : Atom C} {bs : List (Atom C)}
    (h : bs.Pairwise fun a b => a.hi < b.lo) :
    (insertAtom a bs).Pairwise fun a b => a.hi < b.lo := by
  induction bs generalizing a with
  | nil => simp [insertAtom]
  | cons b bs ih =>
    obtain ⟨hb, hbs⟩ := List.pairwise_cons.1 h
    rw [insertAtom]
    split_ifs with h1 h2
    · refine List.pairwise_cons.2 ⟨fun x hx => ?_, h⟩
      rcases List.mem_cons.1 hx with rfl | hx
      · exact h1
      · exact h1.trans (b.lt.trans (hb x hx))
    · exact List.pairwise_cons.2 ⟨lt_of_mem_insertAtom h2 hb, ih hbs⟩
    · exact ih hbs

theorem mem_insertAtom {a : Atom C} {bs : List (Atom C)} {c : C} :
    (∃ x ∈ insertAtom a bs, c ∈ x) ↔ c ∈ a ∨ ∃ x ∈ bs, c ∈ x := by
  induction bs generalizing a with
  | nil => simp [insertAtom]
  | cons b bs ih =>
    rw [insertAtom]
    split_ifs with h1 h2
    · simp
    · simp only [List.exists_mem_cons_iff, ih]
      exact or_left_comm
    · rw [ih, List.exists_mem_cons_iff, ← or_assoc]
      refine or_congr_left ?_
      simp only [Atom.mem_def, min_le_iff, lt_max_iff]
      rw [not_lt] at h1 h2
      constructor
      · rintro ⟨hl | hl, hr | hr⟩
        · exact .inl ⟨hl, hr⟩
        · exact (lt_or_ge c a.hi).imp (⟨hl, ·⟩) fun hc => ⟨h1.trans hc, hr⟩
        · exact (lt_or_ge c b.hi).symm.imp (fun hc => ⟨h2.trans hc, hr⟩) (⟨hl, ·⟩)
        · exact .inr ⟨hl, hr⟩
      · rintro (⟨hl, hr⟩ | ⟨hl, hr⟩)
        · exact ⟨.inl hl, .inl hr⟩
        · exact ⟨.inr hl, .inr hr⟩

/-- `I | J`. -/
def union (I J : Interval C) : Interval C :=
  J.atoms.foldl (fun K a => ⟨insertAtom a K.atoms, pairwise_insertAtom K.apart⟩) I

@[simp] theorem mem_union {I J : Interval C} {c : C} : c ∈ I.union J ↔ c ∈ I ∨ c ∈ J := by
  simp only [union, mem_def (I := J)]
  induction J.atoms generalizing I with
  | nil => simp
  | cons a as ih =>
    rw [List.foldl_cons, ih, mem_def, mem_insertAtom, List.exists_mem_cons_iff, ← or_assoc,
      or_comm (a := c ∈ a)]
    rfl

/-- The least member, `⊤` if there is none. -/
def start (I : Interval C) : WithTop C :=
  match I.atoms with
  | [] => ⊤
  | a :: _ => a.lo

theorem start_le {I : Interval C} {c : C} (h : c ∈ I) : I.start ≤ c := by
  obtain ⟨as, has⟩ := I
  cases as with
  | nil => exact absurd h (not_mem_empty c)
  | cons a as =>
    obtain ⟨x, hx, hc⟩ := h
    refine WithTop.coe_le_coe.2 ?_
    rcases List.mem_cons.1 hx with rfl | hx
    · exact hc.1
    · exact (a.lt.trans (hi_lt_of_mem_tail has ⟨x, hx, hc⟩)).le

theorem atoms_ofCuts {lo hi : C} (h : lo < hi) : (ofCuts lo hi).atoms = [⟨lo, hi, h⟩] := dif_pos h

theorem ofCuts_ne_empty_iff {lo hi : C} : ofCuts lo hi ≠ empty ↔ lo < hi := by
  constructor
  · intro h
    obtain ⟨c, hc⟩ := exists_mem h
    exact (mem_ofCuts.1 hc).1.trans_lt (mem_ofCuts.1 hc).2
  · exact fun h he => not_mem_empty lo (he ▸ mem_ofCuts.2 ⟨le_rfl, h⟩)

theorem start_ofCuts {lo hi : C} (h : lo < hi) : (ofCuts lo hi).start = lo := by
  simp only [start, atoms_ofCuts h]

theorem start_mem {I : Interval C} (h : I ≠ empty) : ∃ l ∈ I, I.start = l := by
  obtain ⟨as, has⟩ := I
  cases as with
  | nil => exact absurd rfl h
  | cons a as => exact ⟨a.lo, ⟨a, List.mem_cons_self, le_rfl, a.lt⟩, rfl⟩

end Interval

/-! ### Closed intervals -/

/-- The cuts of the points of `K`. -/
abbrev Cut (K : Type*) := K ×ₗ Bool

variable {K : Type*} [LinearOrder K]

/-- The cut just before a point. -/
def before (x : K) : Cut K := toLex (x, false)

/-- The cut just after a point. -/
def after (x : K) : Cut K := toLex (x, true)

theorem before_le_before {x y : K} : before x ≤ before y ↔ x ≤ y := by
  rw [before, before, Prod.Lex.toLex_le_toLex]
  simp [le_iff_lt_or_eq]

theorem after_le_after {x y : K} : after x ≤ after y ↔ x ≤ y := by
  rw [after, after, Prod.Lex.toLex_le_toLex]
  simp [le_iff_lt_or_eq]

theorem before_lt_after {x y : K} : before x < after y ↔ x ≤ y := by
  rw [before, after, Prod.Lex.toLex_lt_toLex]
  simp [le_iff_lt_or_eq]

theorem before_lt_before {x y : K} : before x < before y ↔ x < y :=
  lt_iff_lt_of_le_iff_le before_le_before

theorem after_le_before {x y : K} : after x ≤ before y ↔ x < y := by
  rw [← not_lt, before_lt_after, not_le]

theorem before_max (x y : K) : before (max x y) = max (before x) (before y) := by
  rcases le_total x y with h | h
  · rw [max_eq_right h, max_eq_right (before_le_before.2 h)]
  · rw [max_eq_left h, max_eq_left (before_le_before.2 h)]

theorem after_min (x y : K) : after (min x y) = min (after x) (after y) := by
  rcases le_total x y with h | h
  · rw [min_eq_left h, min_eq_left (after_le_after.2 h)]
  · rw [min_eq_right h, min_eq_right (after_le_after.2 h)]

/-- `closed(lower, upper)`. -/
structure ClosedInterval (K : Type*) where
  lower : K
  upper : K
  deriving DecidableEq, Repr

namespace ClosedInterval

/-- The interval of a closed interval: empty when the ends are in the wrong order. -/
def toInterval (I : ClosedInterval K) : Interval (Cut K) := .ofCuts (before I.lower) (after I.upper)

/-- `t in closed(lower, upper)`. -/
instance : Membership K (ClosedInterval K) := ⟨fun I t => I.lower ≤ t ∧ t ≤ I.upper⟩

theorem mem_def {I : ClosedInterval K} {t : K} : t ∈ I ↔ I.lower ≤ t ∧ t ≤ I.upper := Iff.rfl

instance (I : ClosedInterval K) (t : K) : Decidable (t ∈ I) :=
  inferInstanceAs (Decidable (I.lower ≤ t ∧ t ≤ I.upper))

theorem before_mem_toInterval {I : ClosedInterval K} {t : K} :
    before t ∈ I.toInterval ↔ t ∈ I := by
  rw [toInterval, Interval.mem_ofCuts, before_le_before, before_lt_after, mem_def]

/-- `I & J` of closed intervals. -/
def inter (I J : ClosedInterval K) : ClosedInterval K :=
  ⟨max I.lower J.lower, min I.upper J.upper⟩

theorem mem_inter {I J : ClosedInterval K} {t : K} : t ∈ I.inter J ↔ t ∈ I ∧ t ∈ J := by
  simp only [mem_def, inter, max_le_iff, le_min_iff]
  tauto

theorem toInterval_inter (I J : ClosedInterval K) :
    I.toInterval.inter J.toInterval = (I.inter J).toInterval := by
  refine Interval.ext_mem fun c => ?_
  simp only [toInterval, inter, Interval.mem_inter, Interval.mem_ofCuts, before_max, after_min,
    max_le_iff, lt_min_iff]
  tauto

theorem toInterval_ne_empty_iff {I : ClosedInterval K} :
    I.toInterval ≠ .empty ↔ I.lower ≤ I.upper :=
  Interval.ofCuts_ne_empty_iff.trans before_lt_after

/-- Closed intervals overlap if they have a point in common. -/
theorem inter_ne_empty_iff {I J : ClosedInterval K} :
    I.toInterval.inter J.toInterval ≠ .empty ↔ ∃ t ∈ I, t ∈ J := by
  rw [toInterval_inter, toInterval_ne_empty_iff]
  simp only [← mem_inter]
  exact ⟨fun h => ⟨_, le_rfl, h⟩, fun ⟨t, ht⟩ => ht.1.trans ht.2⟩

theorem start_toInterval {I : ClosedInterval K} (h : I.lower ≤ I.upper) :
    I.toInterval.start = before I.lower :=
  Interval.start_ofCuts (before_lt_after.2 h)

/-- A non-empty closed interval is determined by its points. -/
theorem eq_of_mem_iff {I J : ClosedInterval K} (h : I.lower ≤ I.upper)
    (hmem : ∀ t, t ∈ I ↔ t ∈ J) : I = J := by
  have hl := (hmem I.lower).1 ⟨le_rfl, h⟩
  have hu := (hmem I.upper).1 ⟨h, le_rfl⟩
  have hl' := (hmem J.lower).2 ⟨le_rfl, hl.1.trans hl.2⟩
  have hu' := (hmem J.upper).2 ⟨hl.1.trans hl.2, le_rfl⟩
  obtain ⟨a, b⟩ := I
  obtain ⟨c, d⟩ := J
  obtain rfl : a = c := le_antisymm hl'.1 hl.1
  obtain rfl : b = d := le_antisymm hu.2 hu'.2
  rfl

theorem toInterval_injective {I J : ClosedInterval K} (h : I.lower ≤ I.upper)
    (hIJ : I.toInterval = J.toInterval) : I = J :=
  eq_of_mem_iff h fun t => by rw [← before_mem_toInterval, hIJ, before_mem_toInterval]

/-- Closed intervals that end before another one starts have no cut in common. -/
theorem disjoint_of_lt {I J : ClosedInterval K} (h : I.upper < J.lower) {c : Cut K}
    (hI : c ∈ I.toInterval) : c ∉ J.toInterval := fun hJ =>
  h.not_ge (before_lt_after.1 ((Interval.mem_ofCuts.1 hJ).1.trans_lt (Interval.mem_ofCuts.1 hI).2))

/-- When each interval ends before the later ones start, a point is in one of them at most. -/
theorem eq_of_mem_of_mem {β : Type*} {l : List (ClosedInterval K × β)}
    (h : l.Pairwise fun p q => p.1.upper < q.1.lower) {p q : ClosedInterval K × β} (hp : p ∈ l)
    (hq : q ∈ l) {t : K} (htp : t ∈ p.1) (htq : t ∈ q.1) : p = q := by
  have hsymm : Std.Symm fun p q : ClosedInterval K × β => ∀ t, t ∈ p.1 → t ∉ q.1 :=
    ⟨fun _ _ h t hq hp => h t hp hq⟩
  have hdis : l.Pairwise fun p q => ∀ t, t ∈ p.1 → t ∉ q.1 :=
    h.imp fun hlt t hp hq => (hp.2.trans_lt (hlt.trans_le hq.1)).false
  by_contra hne
  exact hdis.forall hp hq hne t htp htq

end ClosedInterval

/-- `closed(interval.lower, interval.upper)` of a non-empty interval. -/
def Interval.hull (I : Interval (Cut K)) : Option (ClosedInterval K) :=
  match I.atoms.head?, I.atoms.getLast? with
  | some a, some b => some ⟨(ofLex a.lo).1, (ofLex b.hi).1⟩
  | _, _ => none

theorem Interval.hull_ofCuts {lo hi : Cut K} (h : lo < hi) :
    (ofCuts lo hi).hull = some ⟨(ofLex lo).1, (ofLex hi).1⟩ := by
  simp only [hull, atoms_ofCuts h, List.head?_cons, List.getLast?_singleton]

theorem Interval.hull_toInterval {I : ClosedInterval K} (h : I.lower ≤ I.upper) :
    I.toInterval.hull = some I :=
  hull_ofCuts (before_lt_after.2 h)

/-- The hull goes from the start of the first atom to the end of the last. -/
theorem Interval.exists_of_hull {I : Interval (Cut K)} {J : ClosedInterval K}
    (h : I.hull = some J) : ∃ a b, I.atoms.head? = some a ∧ I.atoms.getLast? = some b ∧
      J = ⟨(ofLex a.lo).1, (ofLex b.hi).1⟩ := by
  unfold Interval.hull at h
  split at h
  · next a b ha hb => exact ⟨a, b, ha, hb, (Option.some.inj h).symm⟩
  · cases h

theorem Interval.lower_le_upper_of_hull {I : Interval (Cut K)}
    {J : ClosedInterval K} (h : I.hull = some J) : J.lower ≤ J.upper := by
  obtain ⟨a, b, ha, hb, rfl⟩ := exists_of_hull h
  refine Prod.Lex.monotone_fst _ _ ?_
  obtain ⟨as, has⟩ := List.head?_eq_some_iff.1 ha
  have hap := I.apart
  rw [has] at hap hb
  rcases List.mem_cons.1 (List.mem_of_getLast? hb) with rfl | hmem
  · exact b.lt.le
  · exact (a.lt.trans (((List.pairwise_cons.1 hap).1 b hmem).trans b.lt)).le

/-- The lower ends are in the order of the keys. -/
theorem Interval.lower_le_lower_of_hull {I I' : Interval (Cut K)}
    {J J' : ClosedInterval K} (h : I.hull = some J) (h' : I'.hull = some J')
    (hle : I.start ≤ I'.start) : J.lower ≤ J'.lower := by
  obtain ⟨a, b, ha, -, rfl⟩ := exists_of_hull h
  obtain ⟨a', b', ha', -, rfl⟩ := exists_of_hull h'
  obtain ⟨as, has⟩ := List.head?_eq_some_iff.1 ha
  obtain ⟨as', has'⟩ := List.head?_eq_some_iff.1 ha'
  rw [start, start, has, has'] at hle
  exact Prod.Lex.monotone_fst _ _ (WithTop.coe_le_coe.1 hle)

end Svoe.Portion
