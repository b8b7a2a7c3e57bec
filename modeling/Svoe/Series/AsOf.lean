import Mathlib.Order.Lattice

/-!
# The last element as of a time

`asOf ts l t` is the last element of a time series `l` with a time of at most `t`: what a backward
as-of join looks up.  On a concatenation the later series decides if it reaches back to `t`
(`asOf_append`); so what lies behind `t`, or before an element that does not, can be left out.

Selections of a sorted series that follow each other in time concatenate to the selection of both
(`filter_append_filter`).
-/

namespace Svoe

namespace Series

variable {α K : Type*} [LinearOrder K] (ts : α → K)

/-- The last element of `l` with a time of at most `t`. -/
def asOf (l : List α) (t : K) : Option α := (l.filter fun a => ts a ≤ t).getLast?

variable {ts}

theorem asOf_append (l l' : List α) (t : K) :
    asOf ts (l ++ l') t = (asOf ts l' t).or (asOf ts l t) := by
  simp only [asOf, List.filter_append, List.getLast?_append]

theorem asOf_eq_none_iff {l : List α} {t : K} : asOf ts l t = none ↔ ∀ a ∈ l, t < ts a := by
  simp [asOf]

theorem asOf_append_of_lt {l l' : List α} {t : K} (h : ∀ a ∈ l', t < ts a) :
    asOf ts (l ++ l') t = asOf ts l t := by
  rw [asOf_append, asOf_eq_none_iff.2 h, Option.none_or]

theorem asOf_append_of_exists_le {l l' : List α} {t : K} (h : ∃ a ∈ l', ts a ≤ t) :
    asOf ts (l ++ l') t = asOf ts l' t := by
  obtain ⟨a, ha, hle⟩ := h
  rw [asOf_append]
  cases hl : asOf ts l' t with
  | none => exact absurd (asOf_eq_none_iff.1 hl a ha) (not_lt.2 hle)
  | some b => rfl

/-- Two selections of a sorted series, one before the other. -/
theorem filter_append_filter {l : List α} (hs : l.Pairwise fun a b => ts a ≤ ts b)
    {P Q : α → Prop} [DecidablePred P] [DecidablePred Q]
    (h : ∀ a ∈ l, ∀ b ∈ l, P a → Q b → ts a < ts b) :
    l.filter (fun a => P a) ++ l.filter (fun a => Q a) = l.filter fun a => P a ∨ Q a := by
  induction l with
  | nil => rfl
  | cons a l ih =>
    obtain ⟨ha, hl⟩ := List.pairwise_cons.1 hs
    specialize ih hl fun x hx y hy =>
      h x (List.mem_cons_of_mem _ hx) y (List.mem_cons_of_mem _ hy)
    by_cases hP : P a
    · have hQ : ¬ Q a := fun hQ =>
        lt_irrefl _ (h a List.mem_cons_self a List.mem_cons_self hP hQ)
      simpa [hP, hQ] using ih
    · by_cases hQ : Q a
      · -- whatever is selected first would have to lie before `a`
        have hnil : l.filter (fun a => P a) = [] := by
          refine List.filter_eq_nil_iff.2 fun b hb => ?_
          simp only [decide_eq_true_eq]
          intro hPb
          exact (h b (List.mem_cons_of_mem _ hb) a List.mem_cons_self hPb hQ).not_ge (ha b hb)
        rw [hnil, List.nil_append] at ih
        simp [hP, hQ, hnil, ih]
      · simpa [hP, hQ] using ih

/-- Lists that a bound cuts at the same place are equal piece by piece. -/
theorem append_inj_of_le_of_lt {a b c d : List K} {u : K} (ha : ∀ x ∈ a, x ≤ u)
    (hb : ∀ x ∈ b, u < x) (hc : ∀ x ∈ c, x ≤ u) (hd : ∀ x ∈ d, u < x) :
    a ++ b = c ++ d ↔ a = c ∧ b = d := by
  constructor
  · intro h
    have hlow : ∀ {l l' : List K}, (∀ x ∈ l, x ≤ u) → (∀ x ∈ l', u < x) →
        (l ++ l').filter (fun x => x ≤ u) = l := fun hl hl' => by
      rw [List.filter_append, List.filter_eq_self.2 (by simpa using hl),
        List.filter_eq_nil_iff.2 (by simpa using hl'), List.append_nil]
    have hac : a = c := by rw [← hlow ha hb, h, hlow hc hd]
    subst hac
    exact ⟨rfl, List.append_cancel_left h⟩
  · rintro ⟨rfl, rfl⟩
    rfl

end Series

end Svoe
