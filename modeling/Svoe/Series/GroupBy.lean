import Mathlib.Data.List.Sort
import Mathlib.Data.List.Dedup

/-!
# Grouping a list by a key

`groupBy key l` collects the elements of `l` with equal keys, in the order of `l`, and lists the
groups in increasing order of their keys (what `groupby` of a data frame does).  The main fact is
`groupBy_append`: where all keys of one list are below all keys of another, grouping the
concatenation is the concatenation of the groupings.
-/

namespace Svoe

namespace Series

variable {α κ : Type*} [LinearOrder κ]

/-- The distinct elements of a list, in increasing order. -/
def sortedKeys (l : List κ) : List κ := l.dedup.insertionSort (· ≤ ·)

/-- The groups of `l` with equal keys, in increasing order of the key. -/
def groupBy (key : α → κ) (l : List α) : List (κ × List α) :=
  (sortedKeys (l.map key)).map fun k => (k, l.filter fun a => key a = k)

@[simp] theorem mem_sortedKeys {l : List κ} {k : κ} : k ∈ sortedKeys l ↔ k ∈ l := by
  simp [sortedKeys]

theorem pairwise_sortedKeys (l : List κ) : (sortedKeys l).Pairwise (· < ·) := by
  have hnd : (sortedKeys l).Nodup :=
    (List.perm_insertionSort _ _).nodup_iff.2 (List.nodup_dedup l)
  exact List.Pairwise.imp₂ (fun _ _ => lt_of_le_of_ne) (List.pairwise_insertionSort _ _) hnd

theorem sortedKeys_append {l l' : List κ} (h : ∀ a ∈ l, ∀ b ∈ l', a < b) :
    sortedKeys (l ++ l') = sortedKeys l ++ sortedKeys l' := by
  refine List.Pairwise.eq_of_mem_iff (pairwise_sortedKeys _) ?_ fun k => by simp
  exact List.pairwise_append.2 ⟨pairwise_sortedKeys l, pairwise_sortedKeys l', fun a ha b hb =>
    h a (mem_sortedKeys.1 ha) b (mem_sortedKeys.1 hb)⟩

theorem sortedKeys_of_forall_eq {l : List κ} {k : κ} (hne : l ≠ []) (h : ∀ a ∈ l, a = k) :
    sortedKeys l = [k] := by
  refine List.Pairwise.eq_of_mem_iff (pairwise_sortedKeys l) (List.pairwise_singleton _ _) ?_
  intro a
  obtain ⟨b, hb⟩ := List.exists_mem_of_ne_nil l hne
  simp only [mem_sortedKeys, List.mem_singleton]
  exact ⟨h a, fun ha => by rw [ha, ← h b hb]; exact hb⟩

@[simp] theorem groupBy_nil (key : α → κ) : groupBy key [] = [] := rfl

/-- Every group holds the elements of the list with its key. -/
theorem mem_groupBy {key : α → κ} {l : List α} {k : κ} {g : List α} :
    (k, g) ∈ groupBy key l ↔ (∃ a ∈ l, key a = k) ∧ g = l.filter fun a => key a = k := by
  simp only [groupBy, List.mem_map, mem_sortedKeys, Prod.mk.injEq]
  constructor
  · rintro ⟨_, h, rfl, rfl⟩; exact ⟨h, rfl⟩
  · rintro ⟨h, rfl⟩; exact ⟨k, h, rfl, rfl⟩

theorem pairwise_groupBy (key : α → κ) (l : List α) :
    (groupBy key l).Pairwise fun g g' => g.1 < g'.1 :=
  List.pairwise_map.2 (pairwise_sortedKeys _)

/-- A group is not empty, and its first element is one of the list with the group's key. -/
theorem exists_cons_of_mem_groupBy {key : α → κ} {l : List α} {k : κ} {g : List α}
    (h : (k, g) ∈ groupBy key l) : ∃ a g', g = a :: g' ∧ a ∈ l ∧ key a = k := by
  obtain ⟨⟨a, ha, hk⟩, rfl⟩ := mem_groupBy.1 h
  cases hg : l.filter fun a => key a = k with
  | nil => exact absurd (List.filter_eq_nil_iff.1 hg a ha) (by simpa using hk)
  | cons b g' =>
    have hb : b ∈ l.filter fun a => key a = k := hg ▸ List.mem_cons_self
    exact ⟨b, g', rfl, (List.mem_filter.1 hb).1, by simpa using (List.mem_filter.1 hb).2⟩

/-- Grouping a concatenation whose keys do not interleave. -/
theorem groupBy_append (key : α → κ) {l l' : List α}
    (h : ∀ a ∈ l, ∀ b ∈ l', key a < key b) :
    groupBy key (l ++ l') = groupBy key l ++ groupBy key l' := by
  have hk : ∀ k ∈ l.map key, ∀ k' ∈ l'.map key, k < k' := by
    simpa using h
  simp only [groupBy, List.map_append, List.filter_append]
  rw [sortedKeys_append hk, List.map_append]
  congr 1 <;> refine List.map_congr_left fun k hk => ?_
  · obtain ⟨a, ha, rfl⟩ := List.mem_map.1 (mem_sortedKeys.1 hk)
    have : l'.filter (fun b => key b = key a) = [] := by
      simpa using fun b hb => (h a ha b hb).ne'
    rw [this, List.append_nil]
  · obtain ⟨b, hb, rfl⟩ := List.mem_map.1 (mem_sortedKeys.1 hk)
    have : l.filter (fun a => key a = key b) = [] := by
      simpa using fun a ha => (h a ha b hb).ne
    rw [this, List.nil_append]

/-- A list with a single key is a single group. -/
theorem groupBy_of_forall_eq {key : α → κ} {l : List α} {k : κ} (hne : l ≠ [])
    (h : ∀ a ∈ l, key a = k) : groupBy key l = [(k, l)] := by
  rw [groupBy, sortedKeys_of_forall_eq (k := k) (by simpa using hne) (by simpa using h)]
  simpa using h

end Series

end Svoe
