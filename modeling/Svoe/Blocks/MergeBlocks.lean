import Svoe.Blocks.Blockwise
import Svoe.Series.StableMerge

/-!
# Merging blocks

`merge_blocks` merges the events of one feature block by block, and the features one after the
other.  Each merge puts what has been merged first on equal timestamps, so that the result is the
stable sort of all events, feature by feature, block by block and row by row.

* `stableSort_mergeBlockRange`, `stableSort_mergeBlocks` : the two levels of merges.
* `mergeBlocks_stable` : the merge of sorted blocks.
-/

namespace Svoe

open Series

variable {F α : Type*}

/-- The timestamp of a named event. -/
def namedTs (x : F × Event α) : ℚ := x.2.timestamp

/-- The events of a feature's blocks, block by block and row by row. -/
def taggedRange (f : F) (blocks : List (List (Event α))) : List (F × Event α) :=
  blocks.flatten.map fun e => (f, e)

/-- The events of all blocks, feature by feature, block by block and row by row. -/
def taggedEvents (blocks : List (F × List (List (Event α)))) : List (F × Event α) :=
  blocks.flatMap fun p => taggedRange p.1 p.2

theorem mergeNamed_eq (l l' : List (F × Event α)) :
    mergeNamed l l' = l.merge l' (keyLE namedTs) := rfl

/-- **The blocks of a feature**: a merge of growing prefixes. -/
theorem stableSort_mergeBlockRange {f : F} {blocks : List (List (Event α))}
    (hsorted : ∀ b ∈ blocks, isTsSorted Event.timestamp b) :
    ∃ named, mergeBlockRange f blocks = .ok named ∧
      StableSort namedTs (taggedRange f blocks) named := by
  induction blocks using List.reverseRecOn with
  | nil => exact ⟨[], rfl, .of_sorted .nil⟩
  | append_singleton blocks b ih =>
    obtain ⟨named, hnamed, hstable⟩ := ih fun b' hb' => hsorted b' (List.mem_append_left _ hb')
    have hb : isTsSorted Event.timestamp b := hsorted b (by simp)
    have hevents : (b.map fun e => (f, e)).Pairwise fun x y => namedTs x ≤ namedTs y :=
      List.pairwise_map.2 hb
    refine ⟨mergeNamed named (b.map fun e => (f, e)), ?_, ?_⟩
    · rw [mergeBlockRange] at hnamed ⊢
      rw [List.foldlM_append, hnamed]
      simp only [bind, Except.bind, List.foldlM_cons, List.foldlM_nil, dfToEvents, if_pos hb,
        Except.map]
      rfl
    · have happ : taggedRange f (blocks ++ [b]) =
          taggedRange f blocks ++ b.map fun e => (f, e) := by
        simp [taggedRange]
      rw [happ, mergeNamed_eq]
      exact hstable.merge (.of_sorted hevents)

/-- The loop over the other features. -/
theorem stableSort_foldlM {merged events : List (F × Event α)}
    {rest : List (F × List (List (Event α)))} (h : StableSort namedTs events merged)
    (hsorted : ∀ p ∈ rest, ∀ b ∈ p.2, isTsSorted Event.timestamp b) :
    ∃ res, (rest.foldlM (fun merged p => (mergeBlockRange p.1 p.2).map (mergeNamed merged)) merged :
        Except PyError (List (F × Event α))) = .ok res ∧
      StableSort namedTs (events ++ taggedEvents rest) res := by
  induction rest generalizing merged events with
  | nil => exact ⟨merged, rfl, by simpa [taggedEvents] using h⟩
  | cons p rest ih =>
    obtain ⟨hp, hrest⟩ := List.forall_mem_cons.1 hsorted
    obtain ⟨named, hnamed, hstable⟩ := stableSort_mergeBlockRange (f := p.1) hp
    obtain ⟨res, hres, hresstable⟩ := ih (h.merge hstable) hrest
    refine ⟨res, ?_, ?_⟩
    · rw [List.foldlM_cons, hnamed]
      exact hres
    · rwa [List.append_assoc] at hresstable

theorem stableSort_mergeBlocks {blocks : List (F × List (List (Event α)))} (hne : blocks ≠ [])
    (hsorted : ∀ p ∈ blocks, ∀ b ∈ p.2, isTsSorted Event.timestamp b) :
    ∃ merged, mergeBlocks blocks = .ok merged ∧
      StableSort namedTs (taggedEvents blocks) merged := by
  obtain ⟨p, rest, rfl⟩ := List.exists_cons_of_ne_nil hne
  obtain ⟨hp, hrest⟩ := List.forall_mem_cons.1 hsorted
  obtain ⟨named, hnamed, hstable⟩ := stableSort_mergeBlockRange (f := p.1) hp
  obtain ⟨merged, hmerged, hmstable⟩ := stableSort_foldlM hstable hrest
  refine ⟨merged, ?_, hmstable⟩
  rw [mergeBlocks, hnamed]
  exact hmerged

/-- What a stable merge of the blocks of features is. -/
structure MergesStably (blocks : List (F × List (List (Event α))))
    (merged : List (F × Event α)) : Prop where
  sorted : merged.Pairwise fun x y => x.2.timestamp ≤ y.2.timestamp
  /-- Each event of each block once, with its feature. -/
  perm : merged.Perm (blocks.flatMap fun p => p.2.flatMap fun b => b.map fun e => (p.1, e))
  rows : ∀ p ∈ blocks, ∀ b ∈ p.2, (b.map fun e => (p.1, e)).Sublist merged
  /-- Equal timestamps come by feature, then by block, then by row. -/
  ties : ∀ ts : ℚ, (merged.filter fun x => x.2.timestamp = ts) =
    blocks.flatMap fun p => p.2.flatMap fun b =>
      (b.filter fun e => e.timestamp = ts).map fun e => (p.1, e)

theorem taggedEvents_eq (blocks : List (F × List (List (Event α)))) :
    taggedEvents blocks = blocks.flatMap fun p => p.2.flatMap fun b => b.map fun e => (p.1, e) := by
  unfold taggedEvents taggedRange
  refine List.flatMap_congr fun p _ => ?_
  rw [List.map_flatten, List.flatMap]

/-- **`merge_blocks` is a stable merge.** -/
theorem mergeBlocks_stable {blocks : List (F × List (List (Event α)))} (hne : blocks ≠ [])
    (hsorted : ∀ p ∈ blocks, ∀ b ∈ p.2, isTsSorted Event.timestamp b) :
    ∃ merged, mergeBlocks blocks = .ok merged ∧ MergesStably blocks merged := by
  obtain ⟨merged, hmerged, hstable⟩ := stableSort_mergeBlocks hne hsorted
  refine ⟨merged, hmerged, hstable.sorted, ?_, ?_, ?_⟩
  · rw [← taggedEvents_eq]
    exact hstable.perm
  · intro p hp b hb
    refine hstable.sublist ?_ (List.pairwise_map.2 (hsorted p hp b hb))
    calc (b.map fun e => (p.1, e)).Sublist (taggedRange p.1 p.2) :=
          (List.sublist_flatten_of_mem hb).map _
      _ |>.Sublist (taggedEvents blocks) := by
          rw [taggedEvents, List.flatMap]
          exact List.sublist_flatten_of_mem (List.mem_map_of_mem hp)
  · intro ts
    have hties := hstable.ties ts
    rw [taggedEvents_eq] at hties
    show (merged.filter fun x => namedTs x = ts) = _
    rw [hties, List.filter_flatMap]
    refine List.flatMap_congr fun p _ => ?_
    rw [List.filter_flatMap]
    refine List.flatMap_congr fun b _ => ?_
    rw [List.filter_map]
    rfl

/-- Two features with a common timestamp, and a block that begins before the one in front of it. -/
theorem mergeBlocks_stable_commonTimestamp :
    ∃ merged, mergeBlocks [("a", [[⟨2, "x"⟩], [⟨1, "y"⟩, ⟨2, "z"⟩]]), ("b", [[⟨2, "w"⟩], []])] =
        .ok merged ∧
      MergesStably [("a", [[⟨2, "x"⟩], [⟨1, "y"⟩, ⟨2, "z"⟩]]), ("b", [[⟨2, "w"⟩], []])] merged := by
  refine mergeBlocks_stable (by simp) ?_
  simp [isTsSorted]

end Svoe
