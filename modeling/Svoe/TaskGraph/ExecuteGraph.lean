import Mathlib.Data.List.Perm.Basic
import Svoe.Portion.Sort
import Svoe.TaskGraph.Executor

/-!
# The order of executed blocks

`execute_graph` executes the nodes of one range after the other, collects the refs of each
interval in one dictionary and sorts its items by `<` of intervals, which holds only if the left
interval ends before the right one starts.  It says nothing about two intervals that touch, so the
order of the results depends on that of the completed tasks.  Python's `sorted` is any sort by
merging.

* `exists_filed_of_executeRanges` : the dictionary is filled in the order of completion.
* `executeGraph_inTimeOrder_iff` : all results are returned, in the order of their intervals, if
  and only if no interval occurs in two ranges and of two touching intervals the left one is always
  completed first.
-/

namespace Svoe

open Portion Series Transition

variable {K ν : Type*} [LinearOrder K] [DecidableEq ν]

/-- `execute_flattened_nodes` with the answers `readys` of `ray.wait`, if it returns after them. -/
def executeFlattenedNodes (nodes : List (ClosedInterval K × ν)) (parallelism : ℕ)
    (executed : List ν) (readys : List (List (ObjectRef ν))) :
    Option (Execution (ClosedInterval K) ν) :=
  match run (step nodes parallelism) (.init executed) readys with
  | none => none
  | some s => if (atWait nodes parallelism s).isNone then some s else none

/-- The loop of `execute_graph` over the ranges, with `refs_by_interval`. -/
def executeRanges (parallelism : ℕ) (refsByInterval : List (ClosedInterval K × List (ObjectRef ν)))
    (executed : List ν) :
    List (ClosedInterval K × List (ClosedInterval K × ν)) → List (List (List (ObjectRef ν))) →
      Option (List (ClosedInterval K × List (ObjectRef ν)))
  | [], [] => some refsByInterval
  | range :: dag, readys :: schedule =>
    match executeFlattenedNodes range.2 parallelism executed readys with
    | none => none
    | some s =>
      executeRanges parallelism (dictUpdate refsByInterval s.results) s.executed dag schedule
  | _, _ => none

/-- An item of `refs_by_interval`. -/
abbrev RefsItem (K ν : Type*) := ClosedInterval K × List (ObjectRef ν)

/-- A sort of items, by the comparison that it is given. -/
abbrev RefsSort (K ν : Type*) :=
  (RefsItem K ν → RefsItem K ν → Bool) → List (RefsItem K ν) → List (RefsItem K ν)

/-- `sorted(refs_by_interval.items())`, over Python's `sorted`.  Different items have different
intervals, so that `<` of items is `<` of their intervals. -/
def sortedItems (sorted : RefsSort K ν) (refsByInterval : List (RefsItem K ν)) :
    List (RefsItem K ν) :=
  sorted (fun p q => p.1.lt q.1) refsByInterval

/-- `execute_graph`, up to the dereferencing of the refs it returns. -/
def executeGraph (sorted : RefsSort K ν)
    (dag : List (ClosedInterval K × List (ClosedInterval K × ν))) (parallelism : ℕ)
    (schedule : List (List (List (ObjectRef ν)))) : Option (List (ObjectRef ν)) :=
  (executeRanges parallelism [] [] dag schedule).map fun refsByInterval =>
    flattenRefs (sortedItems sorted refsByInterval)

/-! ### What the result should be -/

/-- All nodes of a graph, in the order in which they are started. -/
def graphNodes (dag : List (ClosedInterval K × List (ClosedInterval K × ν))) :
    List (ClosedInterval K × ν) :=
  dag.flatMap Prod.snd

/-- The refs of all nodes, each of them once, in the order of the nodes' intervals. -/
def InTimeOrder (dag : List (ClosedInterval K × List (ClosedInterval K × ν)))
    (res : List (ObjectRef ν)) : Prop :=
  ∃ keyed : List (ClosedInterval K × ObjectRef ν), keyed.Perm (refsFrom 0 (graphNodes dag)) ∧
    keyed.map Prod.snd = res ∧ keyed.Pairwise fun p q => p.1.upper ≤ q.1.lower

/-- The intervals of the tasks in the order in which Ray completes them. -/
def completedIntervals (dag : List (ClosedInterval K × List (ClosedInterval K × ν)))
    (schedule : List (List (List (ObjectRef ν)))) : List (ClosedInterval K) :=
  schedule.flatten.flatten.filterMap fun ref => (graphNodes dag)[ref.call]?.map Prod.fst

/-! ### The dictionary of the refs -/

omit [DecidableEq ν] in
/-- Every node has one ref if the nodes' keys are different. -/
theorem resultsOf_of_nodup {filed : List (ClosedInterval K × ObjectRef ν)}
    (h : (filed.map Prod.fst).Nodup) : resultsOf filed = filed.map fun p => (p.1, [p.2]) := by
  induction filed using List.reverseRecOn with
  | nil => rfl
  | append_singleton filed p ih =>
    rw [List.map_append, List.map_singleton] at h
    obtain ⟨hfiled, -, hdisj⟩ := List.nodup_append.1 h
    have hp : p.1 ∉ (filed.map fun p => (p.1, [p.2])).map Prod.fst := by
      rw [List.map_map]
      exact fun hm => hdisj _ hm _ (List.mem_singleton.2 rfl) rfl
    rw [resultsOf_append_singleton, ih hfiled, appendRef, dictGet_eq_none_iff.2 hp,
      dictSet_of_not_mem hp, List.map_append]
    rfl

theorem exists_filed_of_executeFlattenedNodes {nodes : List (ClosedInterval K × ν)}
    {parallelism : ℕ} {executed : List ν} {readys : List (List (ObjectRef ν))}
    {s : Execution (ClosedInterval K) ν} (hnodes : (nodes.map Prod.fst).Nodup)
    (h : executeFlattenedNodes nodes parallelism executed readys = some s) :
    ∃ filed : List (ClosedInterval K × ObjectRef ν), filed.map Prod.snd = readys.flatten ∧
      filed.Perm (refsFrom executed.length nodes) ∧
      s.results = (filed.map fun p => (p.1, [p.2])) ∧
      s.executed.length = executed.length + nodes.length := by
  unfold executeFlattenedNodes at h
  split at h
  · cases h
  · next t ht =>
    split_ifs at h with hend
    obtain rfl := Option.some.inj h
    obtain ⟨filed, hfiled, hfiling⟩ := (Filing.init nodes parallelism executed).of_run ht
    rw [List.nil_append] at hfiling
    rw [Option.isNone_iff_eq_none] at hend
    have hperm := hfiling.perm_refsFrom hend
    have hkeys : (filed.map Prod.fst).Nodup := by
      rw [(hperm.map Prod.fst).nodup_iff, map_fst_refsFrom]
      exact hnodes
    refine ⟨filed, hfiled, hperm, hfiling.results_eq.trans (resultsOf_of_nodup hkeys), ?_⟩
    rw [hfiling.executed_eq, List.take_of_length_le (atWait_eq_none_iff.1 hend).1,
      List.length_append, List.length_map]

/-- **The dictionary of the refs is filled in the order in which tasks are completed.** -/
theorem exists_filed_of_executeRanges {parallelism : ℕ}
    {d d' : List (ClosedInterval K × List (ObjectRef ν))} {executed : List ν}
    {dag : List (ClosedInterval K × List (ClosedInterval K × ν))}
    {schedule : List (List (List (ObjectRef ν)))}
    (hdag : ∀ range ∈ dag, (range.2.map Prod.fst).Nodup)
    (h : executeRanges parallelism d executed dag schedule = some d') :
    ∃ filed : List (ClosedInterval K × ObjectRef ν), filed.map Prod.snd = schedule.flatten.flatten ∧
      filed.Perm (refsFrom executed.length (graphNodes dag)) ∧
      d' = dictUpdate d (filed.map fun p => (p.1, [p.2])) := by
  induction dag generalizing d executed schedule with
  | nil =>
    cases schedule with
    | nil =>
      obtain rfl := Option.some.inj h
      exact ⟨[], rfl, .refl _, rfl⟩
    | cons readys schedule => cases h
  | cons range dag ih =>
    cases schedule with
    | nil => cases h
    | cons readys schedule =>
      rw [executeRanges] at h
      cases hs : executeFlattenedNodes range.2 parallelism executed readys with
      | none => rw [hs] at h; cases h
      | some s =>
        rw [hs] at h
        obtain ⟨filed, hfiled, hperm, hresults, hlen⟩ :=
          exists_filed_of_executeFlattenedNodes (hdag range List.mem_cons_self) hs
        obtain ⟨filed', hfiled', hperm', rfl⟩ :=
          ih (fun r hr => hdag r (List.mem_cons_of_mem _ hr)) h
        refine ⟨filed ++ filed', ?_, ?_, ?_⟩
        · rw [List.map_append, hfiled, hfiled', List.flatten_cons, List.flatten_append]
        · rw [graphNodes, List.flatMap_cons, refsFrom_append, ← hlen]
          exact hperm.append hperm'
        · rw [List.map_append, dictUpdate_append, hresults]

/-! ### The order of the results -/

variable {dag : List (ClosedInterval K × List (ClosedInterval K × ν))}
  {filed : List (ClosedInterval K × ObjectRef ν)}
  {sorted : RefsSort K ν}

omit [LinearOrder K] [DecidableEq ν] in
theorem map_fst_eq_filterMap {nodes : List (ClosedInterval K × ν)}
    (h : ∀ p ∈ filed, p ∈ refsFrom 0 nodes) :
    filed.map Prod.fst = (filed.map Prod.snd).filterMap fun ref =>
      nodes[ref.call]?.map Prod.fst := by
  induction filed with
  | nil => rfl
  | cons p filed ih =>
    have hp := (mem_refsFrom.1 (h p List.mem_cons_self)).2
    rw [Nat.sub_zero] at hp
    rw [List.map_cons, List.map_cons, ih fun q hq => h q (List.mem_cons_of_mem _ hq),
      List.filterMap_cons_some (by rw [hp]; rfl)]

omit [DecidableEq ν] in
/-- Sorting the items is sorting the refs. -/
theorem exists_sorted (hsorted : ∀ lt d, MergingSort lt d (sorted lt d))
    (filed : List (ClosedInterval K × ObjectRef ν)) :
    ∃ refs : List (ClosedInterval K × ObjectRef ν), refs.Perm filed ∧
      MergingSort (fun p q : RefsItem K ν => p.1.lt q.1) (filed.map fun p => (p.1, [p.2]))
        (refs.map fun p => (p.1, [p.2])) ∧
      flattenRefs (sortedItems sorted (filed.map fun p => (p.1, [p.2]))) = refs.map Prod.snd := by
  have hsort : MergingSort (fun p q : RefsItem K ν => p.1.lt q.1)
      (filed.map fun p => (p.1, [p.2]))
      (sortedItems sorted (filed.map fun p => (p.1, [p.2]))) := hsorted _ _
  obtain ⟨refs, hitems, hrefs⟩ :=
    (congrFun₂ (List.eq_map_comp_perm fun p : ClosedInterval K × ObjectRef ν => (p.1, [p.2])) _
      filed).mpr hsort.perm
  refine ⟨refs, hrefs, hitems ▸ hsort, ?_⟩
  rw [hitems, flattenRefs, List.flatMap_map]
  exact List.map_eq_flatMap.symm

omit [DecidableEq ν] in
/-- Refs that are one per interval are in the right order if they are so in the order of the
sorted intervals. -/
theorem inTimeOrder_iff_pairwise (hperm : filed.Perm (refsFrom 0 (graphNodes dag))) :
    InTimeOrder dag (filed.map Prod.snd) ↔
      filed.Pairwise fun p q => p.1.upper ≤ q.1.lower := by
  constructor
  · rintro ⟨keyed, hkeyed, hsnd, hpairwise⟩
    have hinj : ∀ p ∈ refsFrom 0 (graphNodes dag), ∀ q ∈ refsFrom 0 (graphNodes dag),
        p.2 = q.2 → p = q := fun p hp q hq =>
      List.inj_on_of_nodup_map (nodup_map_snd_refsFrom 0 (graphNodes dag)) hp hq
    obtain rfl : keyed = filed := by
      refine List.ext_getElem (by simpa using congrArg List.length hsnd) fun i hi hi' => ?_
      refine hinj _ (hkeyed.subset (List.getElem_mem hi)) _ (hperm.subset (List.getElem_mem hi')) ?_
      have hget := congrArg (fun l => l[i]?) hsnd
      simpa [hi, hi'] using hget
    exact hpairwise
  · exact fun hpairwise => ⟨filed, hperm, rfl, hpairwise⟩

omit [DecidableEq ν] in
/-- If an interval occurs twice, one of its results is lost. -/
theorem nodup_of_inTimeOrder (hsorted : ∀ lt d, MergingSort lt d (sorted lt d))
    (hperm : filed.Perm (refsFrom 0 (graphNodes dag)))
    (h : InTimeOrder dag
      (flattenRefs (sortedItems sorted (dictUpdate [] (filed.map fun p => (p.1, [p.2])))))) :
    ((graphNodes dag).map Prod.fst).Nodup := by
  obtain ⟨keyed, hkeyed, hsnd, -⟩ := h
  set d := dictUpdate [] (filed.map fun p => (p.1, [p.2])) with hd
  have hitems : ∀ p ∈ d, p ∈ filed.map fun p => (p.1, [p.2]) := fun p hp =>
    (mem_or_mem_of_mem_dictUpdate hp).resolve_left List.not_mem_nil
  have hone : ∀ p ∈ d, p.2.length = 1 := fun p hp => by
    obtain ⟨q, -, rfl⟩ := List.mem_map.1 (hitems p hp)
    rfl
  have hlen : d.length = (filed.map Prod.fst).length := by
    have hsum : (d.map fun p => p.2.length).sum = d.length := by
      rw [List.map_congr_left hone]
      simp
    have hflat : (flattenRefs (sortedItems sorted d)).Perm (flattenRefs d) :=
      (hsorted _ d).perm.flatMap_right _
    rw [← hsum, ← length_flattenRefs, ← hflat.length_eq, ← hsnd, List.length_map, List.length_map,
      hkeyed.length_eq, hperm.length_eq]
  have hkeys : d.map Prod.fst ⊆ filed.map Prod.fst := by
    intro k hk
    obtain ⟨p, hp, rfl⟩ := List.mem_map.1 hk
    obtain ⟨q, hq, rfl⟩ := List.mem_map.1 (hitems p hp)
    exact List.mem_map_of_mem hq
  have hnodup : (d.map Prod.fst).Nodup := nodup_keys_dictUpdate (d := []) List.nodup_nil _
  have hfst := ((List.subperm_of_subset hnodup hkeys).perm_of_length_le
    (by rw [← hlen, List.length_map])).symm
  rw [← map_fst_refsFrom 0, ← (hperm.map Prod.fst).nodup_iff, hfst.nodup_iff]
  exact hnodup

/-- **The order of the results of a graph.**  Every result is returned once, in the order of the
intervals, if and only if no interval occurs twice in the graph and tasks are completed in such
an order that of two intervals that are not apart the left one comes first. -/
theorem executeGraph_inTimeOrder_iff {parallelism : ℕ}
    {schedule : List (List (List (ObjectRef ν)))} {res : List (ObjectRef ν)}
    (hsorted : ∀ lt d, MergingSort lt d (sorted lt d))
    (hdag : ∀ range ∈ dag, (range.2.map Prod.fst).Nodup)
    (hle : ∀ range ∈ dag, ∀ p ∈ range.2, p.1.lower ≤ p.1.upper)
    (h : executeGraph sorted dag parallelism schedule = some res) :
    InTimeOrder dag res ↔ ((graphNodes dag).map Prod.fst).Nodup ∧
      (completedIntervals dag schedule).Pairwise LeftFirst := by
  obtain ⟨d, hd, rfl⟩ := Option.map_eq_some_iff.1 h
  obtain ⟨filed, hfiled, hperm, rfl⟩ := exists_filed_of_executeRanges hdag hd
  have hcompleted : completedIntervals dag schedule = filed.map Prod.fst := by
    rw [completedIntervals, ← hfiled, map_fst_eq_filterMap fun p hp => hperm.subset hp]
  have hvalid : ∀ p ∈ filed, p.1.lower ≤ p.1.upper := by
    intro p hp
    have hmem := List.mem_of_getElem? (mem_refsFrom.1 (hperm.subset hp)).2
    obtain ⟨range, hrange, hnode⟩ := List.mem_flatMap.1 hmem
    exact hle range hrange _ hnode
  refine (and_iff_right_of_imp (nodup_of_inTimeOrder hsorted hperm)).symm.trans
    (and_congr_right fun hkeys => ?_)
  have hfst : (filed.map Prod.fst).Nodup := by
    rwa [(hperm.map Prod.fst).nodup_iff, map_fst_refsFrom]
  have hdict : dictUpdate [] (filed.map fun p => (p.1, [p.2])) = filed.map fun p => (p.1, [p.2]) :=
    dictOf_of_nodup (by rwa [List.map_map])
  obtain ⟨refs, hrefs, hsort, hres⟩ := exists_sorted hsorted filed
  have hpairs := pairwise_sort_iff hsort (List.forall_mem_map.2 hvalid)
  rw [List.pairwise_map, List.pairwise_map] at hpairs
  rw [hdict, hres, inTimeOrder_iff_pairwise (hrefs.trans hperm), hpairs, hcompleted,
    List.pairwise_map]

/-- A range with two nodes whose intervals touch. -/
def touchingNodes : List (ClosedInterval ℚ × List (ClosedInterval ℚ × String)) :=
  [(⟨0, 2⟩, [(⟨0, 1⟩, "a"), (⟨1, 2⟩, "b")])]

theorem inTimeOrder_touchingNodes : InTimeOrder touchingNodes [⟨0, "a"⟩, ⟨1, "b"⟩] := by
  have h : executeGraph binarySort touchingNodes 2 [[[], [⟨0, "a"⟩], [⟨1, "b"⟩]]] =
      some [⟨0, "a"⟩, ⟨1, "b"⟩] := by decide +kernel
  exact (executeGraph_inTimeOrder_iff mergingSort_binarySort (by decide) (by decide +kernel) h).2
    ⟨by decide, by decide +kernel⟩

/-- If the right one is completed first, it stays first. -/
theorem not_inTimeOrder_touchingNodes :
    executeGraph binarySort touchingNodes 2 [[[], [⟨1, "b"⟩], [⟨0, "a"⟩]]] =
        some [⟨1, "b"⟩, ⟨0, "a"⟩] ∧
      ¬ InTimeOrder touchingNodes [⟨1, "b"⟩, ⟨0, "a"⟩] := by
  refine ⟨by decide +kernel, ?_⟩
  have hperm : [((⟨1, 2⟩ : ClosedInterval ℚ), (⟨1, "b"⟩ : ObjectRef String)),
      (⟨0, 1⟩, ⟨0, "a"⟩)].Perm (refsFrom 0 (graphNodes touchingNodes)) :=
    List.Perm.swap _ _ _
  exact fun h => absurd ((inTimeOrder_iff_pairwise hperm).1 h) (by decide +kernel)

end Svoe
