import Svoe.Common.Frame
import Svoe.Series.MergingSort

/-!
# Sorting frames by their first timestamp

`sort_dfs` of `common/pandas/df_utils.py` sorts frames with a comparison that truncates the
difference of their first timestamps to a whole number of seconds.  Frames that start within one
second of each other are equal for it, so it is no weak order, and what comes out depends on the
sort.  Python's `sorted` is any sort by merging.

* `sortDfs.lt_iff` : when the comparison puts a frame before another.
* `sortedByStart_sortDfs_iff` : the result is in order exactly if no frame starts less than a
  second after a later one in the list.
-/

namespace Svoe

open Series

variable {α : Type*} (ts : α → ℚ)

/-- `compare`, with `int` rounding towards zero. -/
def sortDfs.compare : List α → List α → ℤ
  | [], _ => -1
  | _ :: _, [] => 1
  | r1 :: _, r2 :: _ => (ts r1 - ts r2).num.tdiv (ts r1 - ts r2).den

/-- The `<` of the keys of `functools.cmp_to_key`. -/
def cmpToKey {β : Type*} (mycmp : β → β → ℤ) (x y : β) : Bool := mycmp x y < 0

/-- `sort_dfs`, over Python's `sorted`. -/
def sortDfs (sorted : (List α → List α → Bool) → List (List α) → List (List α))
    (dfs : List (List α)) : List (List α) :=
  sorted (cmpToKey (sortDfs.compare ts)) dfs

/-- The frames `dfs` in the right order: the empty ones first, the others by the timestamps of
their first rows. -/
structure SortedByStart (dfs out : List (List α)) : Prop where
  perm : out.Perm dfs
  empty_first : out.Pairwise fun df1 df2 => df2 = [] → df1 = []
  starts : ((out.filterMap List.head?).map ts).Pairwise (· ≤ ·)

/-- The order of two frames in the result. -/
def StartLE : List α → List α → Prop
  | [], _ => True
  | _ :: _, [] => False
  | r1 :: _, r2 :: _ => ts r1 ≤ ts r2

variable {ts}

theorem StartLE.refl : ∀ df : List α, StartLE ts df df
  | [] => trivial
  | r :: _ => le_refl (ts r)

theorem StartLE.trans : ∀ {df1 df2 df3 : List α}, StartLE ts df1 df2 → StartLE ts df2 df3 →
    StartLE ts df1 df3
  | [], _, _, _, _ => trivial
  | _ :: _, _ :: _, _ :: _, h, h' => le_trans (α := ℚ) h h'

theorem sortedByStart_iff {dfs out : List (List α)} :
    SortedByStart ts dfs out ↔ out.Perm dfs ∧ out.Pairwise (StartLE ts) := by
  have hpair : (out.Pairwise fun df1 df2 => df2 = [] → df1 = []) ∧
      ((out.filterMap List.head?).map ts).Pairwise (· ≤ ·) ↔ out.Pairwise (StartLE ts) := by
    rw [List.pairwise_map, List.pairwise_filterMap, ← List.pairwise_and_iff]
    refine List.Pairwise.iff fun df1 df2 => ?_
    cases df1 <;> cases df2 <;> simp [StartLE]
  exact ⟨fun ⟨hperm, hempty, hstarts⟩ => ⟨hperm, hpair.1 ⟨hempty, hstarts⟩⟩,
    fun ⟨hperm, h⟩ => ⟨hperm, (hpair.2 h).1, (hpair.2 h).2⟩⟩

/-- A difference truncates to a negative number from `-1` on. -/
theorem tdiv_num_den_neg_iff (x : ℚ) : x.num.tdiv x.den < 0 ↔ x ≤ -1 := by
  have hden : (0 : ℤ) < x.den := by exact_mod_cast x.den_pos
  have hx : x ≤ -1 ↔ x.num ≤ -x.den := by
    rw [Rat.le_iff]
    simp
  rw [hx]
  constructor
  · intro h
    by_contra hlt
    rw [not_le] at hlt
    rcases le_or_gt 0 x.num with hnum | hnum
    · exact absurd (Int.tdiv_nonneg hnum hden.le) (not_le.2 h)
    · have hzero : x.num.tdiv x.den = 0 := by
        rw [← Int.neg_eq_zero, ← Int.neg_tdiv]
        exact Int.tdiv_eq_zero_of_lt (by omega) (by omega)
      omega
  · intro h
    have hpos : 1 ≤ (-x.num).tdiv x.den := by
      rw [Int.tdiv_eq_ediv_of_nonneg (by omega)]
      exact Int.le_ediv_of_mul_le hden (by omega)
    rw [Int.neg_tdiv] at hpos
    omega

/-- A frame is put before another if it is empty, or starts at least one second earlier. -/
theorem sortDfs.lt_iff {df1 df2 : List α} :
    cmpToKey (sortDfs.compare ts) df1 df2 = true ↔
      df1 = [] ∨ ∃ r1 ∈ df1.head?, ∃ r2 ∈ df2.head?, ts r1 + 1 ≤ ts r2 := by
  cases df1 with
  | nil => simp [cmpToKey, sortDfs.compare]
  | cons r1 df1 =>
    cases df2 with
    | nil => simp [cmpToKey, sortDfs.compare]
    | cons r2 df2 =>
      have h : ts r1 - ts r2 ≤ -1 ↔ ts r1 + 1 ≤ ts r2 := by
        constructor <;> intro h <;> linarith
      simp [cmpToKey, sortDfs.compare, tdiv_num_den_neg_iff, h]

/-- Frames between two that the comparison puts in order start a second apart as well. -/
theorem add_one_le_of_lt {r1 r2 : α} {l1 l2 df1 df2 : List α} (h1 : StartLE ts df1 (r1 :: l1))
    (h2 : StartLE ts (r2 :: l2) df2) (h : cmpToKey (sortDfs.compare ts) df2 df1 = true) :
    ts r2 + 1 ≤ ts r1 := by
  cases df2 with
  | nil => exact h2.elim
  | cons r2' l2' =>
    cases df1 with
    | nil =>
      rcases sortDfs.lt_iff.1 h with hnil | ⟨_, _, _, ⟨⟩, _⟩
      exact absurd hnil (List.cons_ne_nil r2' l2')
    | cons r1' l1' =>
      rcases sortDfs.lt_iff.1 h with hnil | ⟨_, ⟨⟩, _, ⟨⟩, hle⟩
      · exact absurd hnil (List.cons_ne_nil r2' l2')
      · calc
          ts r2 + 1 ≤ ts r2' + 1 := add_le_add_left h2 1
          _ ≤ ts r1' := hle
          _ ≤ ts r1 := h1

/-- Of two frames that do not start within a second in the wrong order, the comparison knows
which is the first. -/
theorem startLE_of_lt {df1 df2 : List α}
    (h : ∀ r1 ∈ df1.head?, ∀ r2 ∈ df2.head?, ts r2 < ts r1 → ts r2 + 1 ≤ ts r1) :
    (cmpToKey (sortDfs.compare ts) df2 df1 = false → StartLE ts df1 df2) ∧
      (cmpToKey (sortDfs.compare ts) df2 df1 = true → StartLE ts df2 df1) := by
  rw [← Bool.not_eq_true, sortDfs.lt_iff]
  cases df1 with
  | nil => cases df2 <;> simp [StartLE]
  | cons r1 l1 =>
    cases df2 with
    | nil => simp [StartLE]
    | cons r2 l2 =>
      have hclose : ts r2 < ts r1 → ts r2 + 1 ≤ ts r1 := h r1 rfl r2 rfl
      constructor
      · intro hlt
        refine le_of_not_gt fun hgt => hlt (Or.inr ⟨r2, rfl, r1, rfl, hclose hgt⟩)
      · rintro (hnil | ⟨_, ⟨⟩, _, ⟨⟩, hle⟩)
        · cases hnil
        · exact (lt_add_one (ts r2)).le.trans hle

/-- The result is in order exactly if no frame starts less than a second after a later one. -/
theorem sortedByStart_sortDfs_iff
    {sorted : (List α → List α → Bool) → List (List α) → List (List α)}
    (hsorted : ∀ lt dfs, MergingSort lt dfs (sorted lt dfs)) (dfs : List (List α)) :
    SortedByStart ts dfs (sortDfs ts sorted dfs) ↔
      dfs.Pairwise fun df1 df2 =>
        ∀ r1 ∈ df1.head?, ∀ r2 ∈ df2.head?, ts r2 < ts r1 → ts r2 + 1 ≤ ts r1 := by
  have hsort : MergingSort (cmpToKey (sortDfs.compare ts)) dfs (sortDfs ts sorted dfs) :=
    hsorted _ dfs
  rw [sortedByStart_iff, and_iff_right hsort.perm]
  constructor
  · intro hout
    refine (hsort.pairwise_of_pairwise hout).imp fun {df1 df2} h r1 hr1 r2 hr2 hlt => ?_
    obtain ⟨l1, rfl⟩ := List.head?_eq_some_iff.1 hr1
    obtain ⟨l2, rfl⟩ := List.head?_eq_some_iff.1 hr2
    rcases h with h | ⟨df1', df2', h1, h2, hcmp⟩
    · exact absurd hlt (not_lt.2 h)
    · refine add_one_le_of_lt (h1.elim ?_ id) (h2.elim ?_ id) hcmp
      · rintro rfl
        exact StartLE.refl _
      · rintro rfl
        exact StartLE.refl _
  · intro hclose
    exact hsort.pairwise StartLE.trans (hclose.imp startLE_of_lt)

theorem sortedByStart_sortDfs_three :
    SortedByStart (α := ℚ) id [[3], [], [1]] (sortDfs id binarySort [[3], [], [1]]) ↔
      ([[3], [], [1]] : List (List ℚ)).Pairwise fun df1 df2 =>
        ∀ r1 ∈ df1.head?, ∀ r2 ∈ df2.head?, id r2 < id r1 → id r2 + 1 ≤ id r1 :=
  sortedByStart_sortDfs_iff mergingSort_binarySort _

/-- Two frames that start within a second stay in the wrong order. -/
theorem not_sortedByStart_sortDfs :
    ¬ SortedByStart (α := ℚ) id [[3 / 2], [1]] (sortDfs id binarySort [[3 / 2], [1]]) := by
  have hsort : sortDfs (α := ℚ) id binarySort [[3 / 2], [1]] = [[3 / 2], [1]] := by decide +kernel
  rw [hsort]
  exact fun h => absurd h.starts (by decide +kernel)

end Svoe
