import Mathlib.Data.List.Dedup
import Svoe.Blocks.Overlaps

/-!
# The point-in-time join

`point_in_time_join_dag` cuts the common time of the joined features into slices, on which every
feature has one block, and makes a task for each: an as-of join of the slice's blocks, each with
the block before it, cut to the slice.

Frames are joined by `mergeAsofMulti`: each row of the first frame gets the last row of every other
one as of its time (`mergeAsofMulti_of_sorted`).
-/

namespace Svoe

open Portion Series

variable {F N α : Type*}

/-! ### Joining frames -/

/-- A row of a joined frame: the columns of the frames joined so far, empty where there was no row
to look up. -/
structure JoinedRow (α : Type*) where
  timestamp : ℚ
  columns : List (Option α)
  deriving DecidableEq

/-- `pd.merge_asof(left, right, on='timestamp', direction='backward')`. -/
def mergeAsof (left : List (JoinedRow α)) (right : List (Event α)) :
    Except PyError (List (JoinedRow α)) :=
  if ¬ isTsSorted JoinedRow.timestamp left then .error (.value "left keys must be sorted")
  else if ¬ isTsSorted Event.timestamp right then .error (.value "right keys must be sorted")
  else .ok (left.map fun r =>
    ⟨r.timestamp, r.columns ++ [(asOf Event.timestamp right r.timestamp).map Event.data]⟩)

/-- `merge_asof_multi`. -/
def mergeAsofMulti : List (List (Event α)) → Except PyError (List (JoinedRow α))
  | [] => .error .index
  | df :: dfs => dfs.foldlM mergeAsof (df.map fun e => ⟨e.timestamp, [some e.data]⟩)

/-- The joined row of a label row: the last event of every other frame as of its time. -/
def joinRow (dfs : List (List (Event α))) (e : Event α) : JoinedRow α :=
  ⟨e.timestamp,
    some e.data :: dfs.map fun df => (asOf Event.timestamp df e.timestamp).map Event.data⟩

theorem mergeAsofMulti_of_sorted {df : List (Event α)} {dfs : List (List (Event α))}
    (h : isTsSorted Event.timestamp df) (hs : ∀ df' ∈ dfs, isTsSorted Event.timestamp df') :
    mergeAsofMulti (df :: dfs) = .ok (df.map (joinRow dfs)) := by
  suffices ∀ cols : Event α → List (Option α),
      dfs.foldlM mergeAsof (df.map fun e => (⟨e.timestamp, cols e⟩ : JoinedRow α)) =
        .ok (df.map fun e => ⟨e.timestamp, cols e ++
          dfs.map fun df => (asOf Event.timestamp df e.timestamp).map Event.data⟩) from
    this fun e => [some e.data]
  induction dfs with
  | nil => intro cols; simp [pure, Except.pure]
  | cons df' dfs ih =>
    intro cols
    have hleft : isTsSorted JoinedRow.timestamp
        (df.map fun e => (⟨e.timestamp, cols e⟩ : JoinedRow α)) := List.pairwise_map.2 h
    rw [List.foldlM_cons, mergeAsof, if_neg (not_not.2 hleft),
      if_neg (not_not.2 (hs df' List.mem_cons_self))]
    simp only [bind, Except.bind, List.map_map, Function.comp_def]
    rw [ih fun df hdf => hs df (List.mem_cons_of_mem _ hdf)]
    simp

/-! ### The task -/

/-- The arguments `point_in_time_join_block` is bound to. -/
structure JoinTask (F N : Type*) where
  interval : ClosedInterval ℚ
  nodes : List (F × N)
  prevNodes : List (F × N)
  labelFeature : Option F
  deriving DecidableEq

variable [DecidableEq F] [DecidableEq N]

/-- The frames in the order of the join: the label's first. -/
def orderFrames (label : Option F) (concated : List (F × List (Event α))) :
    Except PyError (List (List (Event α))) :=
  match label with
  | none => .ok (concated.map Prod.snd)
  | some l =>
    match dictGet concated l with
    | none => .error (.key "label_feature")
    | some df => .ok (df :: (concated.filter fun p => p.1 ≠ l).map Prod.snd)

/-- The frame a task reads for a feature: the previous block, if there is one, and the current
one.  `block` is the result of a node. -/
def taskFrame (block : N → List (Event α)) (prevNodes : List (F × N)) (p : F × N) :
    List (Event α) :=
  (dictGet prevNodes p.1).elim [] block ++ block p.2

/-- `point_in_time_join_block`. -/
def pointInTimeJoinBlock (block : N → List (Event α)) (task : JoinTask F N) :
    Except PyError (List (JoinedRow α)) := do
  let dfs ← orderFrames task.labelFeature
    (task.nodes.map fun p => (p.1, taskFrame block task.prevNodes p))
  let merged ← mergeAsofMulti dfs
  subDfTs JoinedRow.timestamp merged task.interval.lower task.interval.upper

/-! ### The graph -/

/-- The node before the (last) occurrence of `cur` that is not the first node. -/
def prevNode (cur : N) (nodes : List N) : Option N :=
  ((nodes.zip nodes.tail).filter fun p => p.2 = cur).getLast?.map Prod.fst

/-- `get_prev_nodes`. -/
def getPrevNodes (nodesPerFeature : List (F × IntervalDict (Cut ℚ) N)) (cur : List (F × N)) :
    List (F × N) :=
  cur.filterMap fun p =>
    ((dictGet nodesPerFeature p.1).bind fun d => prevNode p.2 d.values).map fun n => (p.1, n)

/-- The dictionary of a feature's ranges. -/
def rangesDict (ranges : List (ClosedInterval ℚ × List (ClosedInterval ℚ × N))) :
    Except PyError (IntervalDict (Cut ℚ) (List (ClosedInterval ℚ × N))) :=
  ranges.foldlM (fun d r =>
    if overlapsKeys r.1.toInterval d then .error (.value "Overlapping intervals")
    else .ok (d.set r.1.toInterval r.2)) .empty

/-- The dictionary of the nodes of one range. -/
def nodesDict (nodes : List (ClosedInterval ℚ × N)) : IntervalDict (Cut ℚ) N :=
  .ofItems (nodes.map fun p => (p.1.toInterval, p.2))

/-- The join tasks of one range, in the order of their intervals. -/
def joinTasks (nodes : List (F × List (ClosedInterval ℚ × N))) (label : Option F) :
    Except PyError (List (ClosedInterval ℚ × JoinTask F N)) :=
  let nodesPerFeature := nodes.map fun p => (p.1, nodesDict p.2)
  (getOverlaps nodesPerFeature).map fun overlaps => overlaps.map fun p =>
    (p.1, ⟨p.1, p.2, getPrevNodes nodesPerFeature p.2, label⟩)

/-- The keys of `ranges_per_feature`: every feature once, in the order of first occurrence. -/
def joinedFeatures (features : List F) : List F := features.reverse.dedup.reverse

/-- The nodes of a feature's ranges in the graph. -/
abbrev Dag (F N : Type*) := F → Option (List (ClosedInterval ℚ × List (ClosedInterval ℚ × N)))

/-- An entry of `ranges_per_feature`. -/
def featureRanges (dag : Dag F N) (f : F) :
    Except PyError (F × IntervalDict (Cut ℚ) (List (ClosedInterval ℚ × N))) :=
  match dag f with
  | none => .error (.value "Feature not found in dag")
  | some ranges => (rangesDict ranges).map fun d => (f, d)

/-- `point_in_time_join_dag`. -/
def pointInTimeJoinDag (dag : Dag F N) (features : List F) (label : Option F) :
    Except PyError (List (ClosedInterval ℚ × List (ClosedInterval ℚ × JoinTask F N))) := do
  let ranges ← (joinedFeatures features).mapM (featureRanges dag)
  let overlaps ← getOverlaps ranges
  let overlaps ← pruneOverlaps (fun e => .ok e.1) overlaps
  overlaps.mapM fun p => (joinTasks p.2 label).map fun tasks => (p.1, tasks)

end Svoe
