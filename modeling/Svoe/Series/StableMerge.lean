import Mathlib.Data.List.Sort

/-!
# Stable merges

Merging two lists that are sorted by a key, the left one first on equal keys, sorts their
concatenation stably.

* `StableSort` : a list in the order of the keys in which elements with one key stay in their order.
* `StableSort.merge` : merges of stably sorted lists.
* `StableSort.eq_mergeSort`, `StableSort.sublist` : there is only one such list, and sorted parts of
  the original are parts of it.
-/

namespace Svoe

namespace Series

variable {α K : Type*} [LinearOrder K] {key : α → K} {l l' m m' : List α}

/-- The comparison of a merge by key. -/
def keyLE (key : α → K) (x y : α) : Bool := key x ≤ key y

theorem keyLE_trans (key : α → K) (x y z : α) (hxy : keyLE key x y = true)
    (hyz : keyLE key y z = true) : keyLE key x z = true :=
  decide_eq_true ((of_decide_eq_true hxy).trans (of_decide_eq_true hyz))

theorem keyLE_total (key : α → K) (x y : α) : (keyLE key x y || keyLE key y x) = true := by
  simpa [keyLE] using le_total (key x) (key y)

/-- The elements in the order of their keys, those with one key in the order of the list. -/
structure StableSort (key : α → K) (l m : List α) : Prop where
  sorted : m.Pairwise fun x y => key x ≤ key y
  ties : ∀ k, (m.filter fun x => key x = k) = l.filter fun x => key x = k

/-- Merging keeps the elements with one key in their order, those of the left list first. -/
theorem filter_merge (h : l.Pairwise fun x y => key x ≤ key y) (k : K) :
    ((l.merge l' (keyLE key)).filter fun x => key x = k) =
      (l.filter fun x => key x = k) ++ l'.filter fun x => key x = k := by
  induction l generalizing l' with
  | nil => simp
  | cons a l ih =>
    obtain ⟨ha, hl⟩ := List.pairwise_cons.1 h
    induction l' with
    | nil => simp
    | cons b l' ih' =>
      rw [List.cons_merge_cons]
      split_ifs with hle
      · by_cases hk : key a = k
        · rw [List.filter_cons_of_pos (by simpa using hk),
            List.filter_cons_of_pos (by simpa using hk), ih hl, List.cons_append]
        · rw [List.filter_cons_of_neg (by simpa using hk),
            List.filter_cons_of_neg (by simpa using hk), ih hl]
      · have hlt : key b < key a := by simpa [keyLE] using hle
        by_cases hk : key b = k
        · -- nothing in the left list has the key of `b`
          have hnone : ((a :: l).filter fun x => key x = k) = [] := by
            refine List.filter_eq_nil_iff.2 ?_
            intro x hx hxk
            have hxb : key x = key b := (of_decide_eq_true hxk).trans hk.symm
            rcases List.mem_cons.1 hx with rfl | hx
            · exact hlt.ne' hxb
            · exact (hlt.trans_le (ha x hx)).ne' hxb
          rw [List.filter_cons_of_pos (by simpa using hk), ih', hnone, List.nil_append,
            List.nil_append, List.filter_cons_of_pos (by simpa using hk)]
        · have hneg : ((b :: l').filter fun x => key x = k) = l'.filter fun x => key x = k :=
            List.filter_cons_of_neg (by simpa using hk)
          rw [List.filter_cons_of_neg (by simpa using hk), ih', hneg]

namespace StableSort

theorem of_sorted (h : l.Pairwise fun x y => key x ≤ key y) : StableSort key l l :=
  ⟨h, fun _ => rfl⟩

/-- **The merge of stably sorted lists** is the stably sorted concatenation. -/
theorem merge (h : StableSort key l m) (h' : StableSort key l' m') :
    StableSort key (l ++ l') (m.merge m' (keyLE key)) := by
  constructor
  · have hpair := List.pairwise_merge (keyLE_trans key) (keyLE_total key) m m'
      (h.sorted.imp decide_eq_true) (h'.sorted.imp decide_eq_true)
    exact hpair.imp of_decide_eq_true
  · intro k
    rw [filter_merge h.sorted, h.ties, h'.ties, List.filter_append]

/-- Lists with the same elements for every key, in the same order, are equal if they are sorted. -/
theorem eq_of_ties (hm : m.Pairwise fun x y => key x ≤ key y)
    (hm' : m'.Pairwise fun x y => key x ≤ key y)
    (h : ∀ k, (m.filter fun x => key x = k) = m'.filter fun x => key x = k) : m = m' := by
  induction m generalizing m' with
  | nil =>
    cases m' with
    | nil => rfl
    | cons y m' => simpa using h (key y)
  | cons x m ih =>
    cases m' with
    | nil => simpa using h (key x)
    | cons y m' =>
      obtain ⟨hx, htail⟩ := List.pairwise_cons.1 hm
      obtain ⟨hy, htail'⟩ := List.pairwise_cons.1 hm'
      -- both lists begin with an element of the least key
      have hyx : key y ≤ key x := by
        have hmem : x ∈ (y :: m').filter fun z => key z = key x := by
          rw [← h]
          simp
        rcases List.mem_cons.1 (List.mem_of_mem_filter hmem) with rfl | hmem
        · exact le_rfl
        · exact hy x hmem
      have hxy : key x ≤ key y := by
        have hmem : y ∈ (x :: m).filter fun z => key z = key y := by
          rw [h]
          simp
        rcases List.mem_cons.1 (List.mem_of_mem_filter hmem) with rfl | hmem
        · exact le_rfl
        · exact hx y hmem
      have hkey : key y = key x := le_antisymm hyx hxy
      have hhead := h (key x)
      rw [List.filter_cons_of_pos (by simp), List.filter_cons_of_pos (by simp [hkey])] at hhead
      obtain rfl : x = y := (List.cons.inj hhead).1
      refine congrArg (x :: ·) (ih htail htail' ?_)
      intro k
      have hk := h k
      rw [List.filter_cons, List.filter_cons] at hk
      split_ifs at hk
      · exact (List.cons.inj hk).2
      · exact hk

/-- The merge sort of a list is stable. -/
theorem mergeSort (key : α → K) (l : List α) : StableSort key l (l.mergeSort (keyLE key)) := by
  have hpair := List.pairwise_mergeSort (keyLE_trans key) (keyLE_total key) l
  refine ⟨hpair.imp of_decide_eq_true, fun k => ?_⟩
  have hsub : (l.filter fun x => key x = k).Sublist (l.mergeSort (keyLE key)) := by
    refine List.sublist_mergeSort (keyLE_trans key) (keyLE_total key) ?_ List.filter_sublist
    refine List.pairwise_of_forall_mem_list ?_
    intro x hx y hy
    have hxk : key x = k := of_decide_eq_true (List.mem_filter.1 hx).2
    have hyk : key y = k := of_decide_eq_true (List.mem_filter.1 hy).2
    exact decide_eq_true (hxk.trans hyk.symm).le
  have hfilter : (l.filter fun x => key x = k).Sublist
      ((l.mergeSort (keyLE key)).filter fun x => key x = k) := by
    simpa using hsub.filter fun x => decide (key x = k)
  refine (hfilter.eq_of_length ?_).symm
  exact ((List.mergeSort_perm l _).filter _).length_eq.symm

/-- **There is one stable sort of a list.** -/
theorem eq_mergeSort (h : StableSort key l m) : m = l.mergeSort (keyLE key) :=
  eq_of_ties h.sorted (mergeSort key l).sorted fun k => by rw [h.ties, (mergeSort key l).ties]

theorem perm (h : StableSort key l m) : m.Perm l := by
  rw [h.eq_mergeSort]
  exact List.mergeSort_perm l _

/-- A sorted part of the list is a part of the sorted list. -/
theorem sublist (h : StableSort key l m) (hsub : l'.Sublist l)
    (hsorted : l'.Pairwise fun x y => key x ≤ key y) : l'.Sublist m := by
  rw [h.eq_mergeSort]
  exact List.sublist_mergeSort (keyLE_trans key) (keyLE_total key) (hsorted.imp decide_eq_true) hsub

end StableSort

end Series

end Svoe
