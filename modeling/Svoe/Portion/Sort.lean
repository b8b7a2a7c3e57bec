import Svoe.Portion.Interval
import Svoe.Series.MergingSort

/-!
# Sorting closed intervals

`portion` compares intervals by their places: one is less than another if it ends before the other
begins.  This is no weak order on closed intervals, as one that touches or overlaps two others says
nothing about them.  So what a sort makes of intervals depends on the sort, unless they are apart.

* `pairwise_sort_iff` : the result of a sort by merging is in order if and only if of two elements
  that are not apart the left one comes first in the list.
* `sort_eq_of_perm` : elements that are apart have one order.
-/

namespace Svoe.Portion

open Series

variable {α K : Type*} [LinearOrder K] {key : α → ClosedInterval K} {l m out : List α}

/-- `I < J`. -/
def ClosedInterval.lt (I J : ClosedInterval K) : Bool := I.upper < J.lower

/-- Of two intervals, either the first one is the left one (they may touch), or they are apart. -/
def LeftFirst (I J : ClosedInterval K) : Prop := I.upper ≤ J.lower ∨ J.upper < I.lower

instance (I J : ClosedInterval K) : Decidable (LeftFirst I J) :=
  inferInstanceAs (Decidable (_ ∨ _))

@[simp]
theorem ClosedInterval.lt_iff {I J : ClosedInterval K} : I.lt J = true ↔ I.upper < J.lower :=
  decide_eq_true_iff

/-- `I` lies to the left of `J`; they may touch. -/
def LeftOf (I J : ClosedInterval K) : Prop := I.upper ≤ J.lower ∧ J.lower ≤ J.upper

theorem LeftOf.trans {I J L : ClosedInterval K} (h : LeftOf I J) (h' : LeftOf J L) : LeftOf I L :=
  ⟨(h.1.trans h.2).trans h'.1, h'.2⟩

/-- The comparison knows the order of two intervals if of two that are not apart the left one comes
first. -/
theorem LeftFirst.leftOf_of_lt {I J : ClosedInterval K} (h : LeftFirst I J)
    (hI : I.lower ≤ I.upper) (hJ : J.lower ≤ J.upper) :
    (J.lt I = false → LeftOf I J) ∧ (J.lt I = true → LeftOf J I) := by
  rw [← Bool.not_eq_true, ClosedInterval.lt_iff]
  exact ⟨fun hlt => ⟨h.resolve_right hlt, hJ⟩, fun hlt => ⟨hlt.le, hI⟩⟩

/-- Intervals around two that are apart are apart. -/
theorem lt_of_leftOf {I I' J J' : ClosedInterval K} (hJ : J' = J ∨ LeftOf J J')
    (hI : I' = I ∨ LeftOf I' I) (hJ' : J'.lower ≤ J'.upper) (hI' : I'.lower ≤ I'.upper)
    (h : J'.upper < I'.lower) : J.upper < I.lower := by
  have hJJ' : J.upper ≤ J'.upper := by
    rcases hJ with rfl | hJ
    · exact le_rfl
    · exact hJ.1.trans hJ'
  have hII' : I'.lower ≤ I.lower := by
    rcases hI with rfl | hI
    · exact le_rfl
    · exact hI'.trans hI.1
  exact (hJJ'.trans_lt h).trans_le hII'

/-- The result of a sort is in order if every comparison is between two that are in order. -/
theorem pairwise_leftOf (hsort : MergingSort (fun p q => (key p).lt (key q)) l out)
    (hle : ∀ p ∈ l, (key p).lower ≤ (key p).upper)
    (h : l.Pairwise fun p q => LeftFirst (key p) (key q)) :
    out.Pairwise fun p q => LeftOf (key p) (key q) :=
  hsort.pairwise LeftOf.trans (h.imp_of_mem fun hp hq h => h.leftOf_of_lt (hle _ hp) (hle _ hq))

/-- **Sorting intervals.** -/
theorem pairwise_sort_iff (hsort : MergingSort (fun p q => (key p).lt (key q)) l out)
    (hle : ∀ p ∈ l, (key p).lower ≤ (key p).upper) :
    (out.Pairwise fun p q => (key p).upper ≤ (key q).lower) ↔
      l.Pairwise fun p q => LeftFirst (key p) (key q) := by
  refine ⟨fun hout => ?_, fun h => (pairwise_leftOf hsort hle h).imp And.left⟩
  have hleft : out.Pairwise fun p q => p ∈ l ∧ q ∈ l ∧ LeftOf (key p) (key q) :=
    hout.imp_of_mem fun {p q} hp hq hpq =>
      have hq := hsort.perm.subset hq
      ⟨hsort.perm.subset hp, hq, hpq, hle q hq⟩
  refine (hsort.pairwise_of_pairwise hleft).imp_of_mem fun {p q} hp hq h => ?_
  rcases h with h | ⟨p', q', hp', hq', hlt⟩
  · exact Or.inl h.2.2.1
  · have hmemp : p' ∈ l := hp'.elim (fun h => h ▸ hp) And.left
    have hmemq : q' ∈ l := hq'.elim (fun h => h ▸ hq) fun h => h.2.1
    exact Or.inr (lt_of_leftOf (hq'.imp (congrArg key) fun h => h.2.2)
      (hp'.imp (congrArg key) fun h => h.2.2) (hle q' hmemq) (hle p' hmemp)
      (ClosedInterval.lt_iff.1 hlt))

/-- **Intervals that are apart** have one order, whatever sorts them. -/
theorem sort_eq_of_perm (hsort : MergingSort (fun p q => (key p).lt (key q)) l out)
    (hle : ∀ p ∈ l, (key p).lower ≤ (key p).upper) (hperm : m.Perm l)
    (hm : m.Pairwise fun p q => (key p).upper < (key q).lower) : out = m := by
  have hl : l.Pairwise fun p q =>
      (key p).upper < (key q).lower ∨ (key q).upper < (key p).lower :=
    (hperm.pairwise_iff fun h => h.symm).1 (hm.imp Or.inl)
  have hout : out.Pairwise fun p q => (key p).upper < (key q).lower := by
    have hleft := pairwise_leftOf hsort hle (hl.imp fun h => h.imp_left le_of_lt)
    have hapart := (hsort.perm.pairwise_iff fun h => h.symm).2 hl
    refine (hleft.and hapart).imp_of_mem fun {p q} hp _ h => h.2.resolve_right fun hlt => ?_
    have hpp := hle p (hsort.perm.subset hp)
    exact (hpp.trans (h.1.1.trans h.1.2)).not_gt hlt
  refine (hsort.perm.trans hperm.symm).eq_of_pairwise (fun p q hp hq hpq hqp => ?_) hout hm
  have hpp := hle p (hsort.perm.subset hp)
  have hqq := hle q (hperm.subset hq)
  exact absurd (hpp.trans_lt hpq) (hqq.trans_lt hqp).not_gt

end Svoe.Portion
