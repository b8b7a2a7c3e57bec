import Svoe.Backtester.Loop
import Svoe.Series.SharedLists

/-!
# Aggregating the results of workers

`_aggregate_loop_run_results` merges the results of the workers, in their order.  The merged
dictionaries start with the lists of the first worker that has an instrument, and these lists are
extended in place.  Both of its inner loops go over the instruments that a worker has traded.

* `aggregateWorkers_spec` : what has been merged after some workers, and when none raises.
* `dictGet_values_eq_iff` : when a merged dictionary has all lists of an instrument.
* `losslessAggregation_iff` : when nothing is lost and the results of the workers stay as they are.
-/

namespace Svoe

namespace Backtester

open Series

variable {R : Type}

/-! ### Aggregation -/

/-- The local variables of `_aggregate_loop_run_results`; `trades` and `prices` share their lists
with the dictionaries of the workers. -/
structure Aggregation (R : Type) where
  trades : Shared Instrument Trade
  balances : List PortfolioBalanceRecord
  prices : Shared Instrument (ℚ × ℚ)
  inferences : List (R × ℚ)

/-- A loop over instruments, whose lists in the dictionary of the worker `n` are merged. -/
def shareAll {α : Type} (n : ℕ) (instruments : List Instrument) (s : Shared Instrument α) :
    Except PyError (Shared Instrument α) :=
  instruments.foldlM (fun s instrument =>
    match s.share n instrument with
    | some s' => .ok s'
    | none => .error (.key instrument.symbol)) s

/-- One round of the loop over `results`. -/
def aggregateWorker (agg : Aggregation R) (worker : LoopRunResult R × ℕ) :
    Except PyError (Aggregation R) := do
  let res := worker.1
  let trades ← shareAll worker.2 (res.executedTrades.map Prod.fst) agg.trades
  let balances := agg.balances ++ res.portfolioBalances
  -- `for instrument in res.executed_trades`, again
  let prices ← shareAll worker.2 (res.executedTrades.map Prod.fst) agg.prices
  let inferences := agg.inferences ++ res.inferenceResults
  return ⟨trades, balances, prices, inferences⟩

/-- The result of a worker after its dictionaries have changed. -/
def workerAfter (agg : Aggregation R) (worker : LoopRunResult R × ℕ) : LoopRunResult R :=
  { worker.1 with
    executedTrades := (agg.trades.heap[worker.2]?).getD []
    sampledPrices := (agg.prices.heap[worker.2]?).getD [] }

/-- `_aggregate_loop_run_results`: the merged result, and the results of the workers after it. -/
def aggregateLoopRunResults (results : List (LoopRunResult R)) :
    Except PyError (LoopRunResult R × List (LoopRunResult R)) := do
  let agg ← results.zipIdx.foldlM aggregateWorker
    ⟨⟨results.map LoopRunResult.executedTrades, []⟩, [],
      ⟨results.map LoopRunResult.sampledPrices, []⟩, []⟩
  return (⟨agg.trades.values, agg.balances, agg.prices.values, agg.inferences⟩,
    results.zipIdx.map (workerAfter agg))

/-! ### What is merged -/

/-- The instruments that a worker has traded. -/
def traded (res : LoopRunResult R) : List Instrument := res.executedTrades.map Prod.fst

/-- The lists that are merged: for each worker, those of its traded instruments. -/
def mergedPairs (workers : List (LoopRunResult R × ℕ)) : List (ℕ × Instrument) :=
  workers.flatMap fun worker => (traded worker.1).map fun instrument => (worker.2, instrument)

variable {α : Type} {heap₀ : List (List (Instrument × List α))} {s : Shared Instrument α}
  {ps : List (ℕ × Instrument)} {n : ℕ} {instruments : List Instrument}

/-- A loop over instruments raises exactly if the worker lacks one of the lists. -/
theorem shareAll_spec (h : Shared.Merged heap₀ ps s) (hnodup : instruments.Nodup)
    (hn : ∀ i ∈ instruments, n ∉ mergedFrom ps i) :
    ((∃ s', shareAll n instruments s = .ok s') ↔
        ∀ i ∈ instruments, (readAt heap₀ n i).isSome) ∧
      ∀ s', shareAll n instruments s = .ok s' →
        Shared.Merged heap₀ (ps ++ instruments.map fun i => (n, i)) s' := by
  induction instruments generalizing s ps with
  | nil =>
    refine ⟨iff_of_true ⟨s, rfl⟩ nofun, fun s' hs' => ?_⟩
    obtain rfl := Except.ok.inj hs'
    simpa using h
  | cons i instruments ih =>
    obtain ⟨hi, hnodup⟩ := List.nodup_cons.1 hnodup
    have hshare := exists_share_iff h (hn i List.mem_cons_self)
    rw [shareAll, List.foldlM_cons]
    cases hs : s.share n i with
    | none =>
      have hnone : ¬ (readAt heap₀ n i).isSome := by
        intro hsome
        obtain ⟨s', hs'⟩ := hshare.2 (Option.isSome_iff_exists.1 hsome)
        rw [hs] at hs'
        cases hs'
      refine ⟨iff_of_false ?_ fun hall => hnone (hall i List.mem_cons_self), ?_⟩
      · rintro ⟨s', hs'⟩
        cases hs'
      · intro s' hs'
        cases hs'
    | some s₁ =>
      have hsome : (readAt heap₀ n i).isSome := Option.isSome_iff_exists.2 (hshare.1 ⟨s₁, hs⟩)
      obtain ⟨hok, hmerged⟩ := ih (merged_share h (hn i List.mem_cons_self) hs) hnodup (by
        intro j hj
        rw [mergedFrom_append_singleton, List.mem_append, not_or]
        refine ⟨hn j (List.mem_cons_of_mem i hj), ?_⟩
        rw [if_neg]
        · exact List.not_mem_nil
        · rintro rfl
          exact hi hj)
      rw [List.forall_mem_cons, ← hok]
      refine ⟨(and_iff_right hsome).symm, fun s' hs' => ?_⟩
      rw [List.map_cons, List.append_cons]
      exact hmerged s' hs'

/-- The workers that have traded an instrument. -/
def tradersOf (workers : List (LoopRunResult R × ℕ)) (i : Instrument) :
    List (LoopRunResult R × ℕ) :=
  workers.filter fun worker => i ∈ traded worker.1

variable {workers : List (LoopRunResult R × ℕ)} {worker : LoopRunResult R × ℕ}
  {agg agg' : Aggregation R} {results : List (LoopRunResult R)}

theorem map_fst_filter_pairs {l : List Instrument} (hnodup : l.Nodup) (n : ℕ) (i : Instrument) :
    ((l.map fun j => (n, j)).filter fun p => p.2 = i).map Prod.fst = if i ∈ l then [n] else [] := by
  have hfilter : (l.filter fun j => j = i) = if i ∈ l then [i] else [] := by
    rw [List.filter_eq, hnodup.count]
    split_ifs <;> rfl
  rw [List.filter_map, List.map_map]
  change ((l.filter fun j => j = i).map fun _ => n) = _
  rw [hfilter]
  split_ifs <;> rfl

theorem mergedFrom_mergedPairs (hnodup : ∀ worker ∈ workers, (traded worker.1).Nodup)
    (i : Instrument) :
    mergedFrom (mergedPairs workers) i = (tradersOf workers i).map Prod.snd := by
  induction workers with
  | nil => rfl
  | cons worker workers ih =>
    rw [mergedPairs, List.flatMap_cons, ← mergedPairs, mergedFrom, List.filter_append,
      List.map_append, map_fst_filter_pairs (hnodup worker List.mem_cons_self), ← mergedFrom,
      ih fun w hw => hnodup w (List.mem_cons_of_mem worker hw), tradersOf, tradersOf,
      List.filter_cons]
    by_cases hi : i ∈ traded worker.1 <;> simp [hi]

/-- What has been merged after some workers. -/
structure AggregationInv (heapTrades : List (List (Instrument × List Trade)))
    (heapPrices : List (List (Instrument × List (ℚ × ℚ))))
    (workers : List (LoopRunResult R × ℕ)) (agg : Aggregation R) : Prop where
  trades : Shared.Merged heapTrades (mergedPairs workers) agg.trades
  prices : Shared.Merged heapPrices (mergedPairs workers) agg.prices
  balances : agg.balances = workers.flatMap fun worker => worker.1.portfolioBalances
  inferences : agg.inferences = workers.flatMap fun worker => worker.1.inferenceResults

/-- The dictionaries of the workers are in the heaps, and no two workers are the same. -/
structure WorkersIn (heapTrades : List (List (Instrument × List Trade)))
    (heapPrices : List (List (Instrument × List (ℚ × ℚ))))
    (workers : List (LoopRunResult R × ℕ)) : Prop where
  indices : (workers.map Prod.snd).Nodup
  trades : ∀ worker ∈ workers, heapTrades[worker.2]? = some worker.1.executedTrades
  prices : ∀ worker ∈ workers, heapPrices[worker.2]? = some worker.1.sampledPrices
  nodup : ∀ worker ∈ workers, (traded worker.1).Nodup

variable {heapTrades : List (List (Instrument × List Trade))}
  {heapPrices : List (List (Instrument × List (ℚ × ℚ)))} {done : List (LoopRunResult R × ℕ)}

theorem mergedPairs_append_singleton (workers : List (LoopRunResult R × ℕ))
    (worker : LoopRunResult R × ℕ) : mergedPairs (workers ++ [worker]) =
      mergedPairs workers ++ (traded worker.1).map fun instrument => (worker.2, instrument) := by
  rw [mergedPairs, List.flatMap_append, ← mergedPairs, List.flatMap_cons, List.flatMap_nil,
    List.append_nil]

theorem mem_keys_iff_isSome {κ υ : Type} [DecidableEq κ] {d : List (κ × υ)} {k : κ} :
    (dictGet d k).isSome ↔ k ∈ d.map Prod.fst := by
  rw [Option.isSome_iff_ne_none, ne_eq, dictGet_eq_none_iff, not_not]

/-- A worker that has not been merged has no list in the merged dictionaries. -/
theorem not_mem_mergedFrom_mergedPairs (hindices : ((done ++ [worker]).map Prod.snd).Nodup)
    (i : Instrument) : worker.2 ∉ mergedFrom (mergedPairs done) i := by
  intro hmem
  obtain ⟨p, hp, hfst⟩ := List.mem_map.1 hmem
  obtain ⟨w, hw, hpw⟩ := List.mem_flatMap.1 (List.mem_of_mem_filter hp)
  obtain ⟨j, -, rfl⟩ := List.mem_map.1 hpw
  rw [List.map_append, List.nodup_append] at hindices
  exact hindices.2.2 w.2 (List.mem_map_of_mem hw) worker.2 List.mem_cons_self hfst

/-- **One more worker.**  It raises exactly if the worker has not sampled what it has traded. -/
theorem aggregateWorker_spec (h : AggregationInv heapTrades heapPrices done agg)
    (hin : WorkersIn heapTrades heapPrices (done ++ [worker])) :
    ((∃ agg', aggregateWorker agg worker = .ok agg') ↔
        ∀ i ∈ traded worker.1, i ∈ worker.1.sampledPrices.map Prod.fst) ∧
      ∀ agg', aggregateWorker agg worker = .ok agg' →
        AggregationInv heapTrades heapPrices (done ++ [worker]) agg' := by
  have hmem : worker ∈ done ++ [worker] := List.mem_append_right _ List.mem_cons_self
  have hn := not_mem_mergedFrom_mergedPairs hin.indices
  obtain ⟨htrades, htradesMerged⟩ := shareAll_spec h.trades (hin.nodup worker hmem) fun i _ => hn i
  obtain ⟨hprices, hpricesMerged⟩ := shareAll_spec h.prices (hin.nodup worker hmem) fun i _ => hn i
  -- the lists of the trades are there, since the loop goes over them
  obtain ⟨trades, ht⟩ := htrades.2 fun i hi => by
    rw [readAt, hin.trades worker hmem, Option.bind_some]
    exact mem_keys_iff_isSome.2 hi
  have hreads : (∀ i ∈ traded worker.1, (readAt heapPrices worker.2 i).isSome) ↔
      ∀ i ∈ traded worker.1, i ∈ worker.1.sampledPrices.map Prod.fst := by
    refine forall₂_congr fun i _ => ?_
    rw [readAt, hin.prices worker hmem, Option.bind_some]
    exact mem_keys_iff_isSome
  rw [← hreads, ← hprices]
  unfold traded at ht
  simp only [aggregateWorker, ht, traded]
  cases hp : shareAll worker.2 (worker.1.executedTrades.map Prod.fst) agg.prices with
  | error e =>
    refine ⟨iff_of_false ?_ ?_, ?_⟩
    · rintro ⟨agg', hagg⟩
      cases hagg
    · rintro ⟨prices, hprices⟩
      cases hprices
    · intro agg' hagg
      cases hagg
  | ok prices =>
    refine ⟨iff_of_true ⟨_, rfl⟩ ⟨_, rfl⟩, fun agg' hagg => ?_⟩
    obtain rfl := Except.ok.inj hagg
    refine ⟨?_, ?_, ?_, ?_⟩
    · rw [mergedPairs_append_singleton]
      exact htradesMerged trades ht
    · rw [mergedPairs_append_singleton]
      exact hpricesMerged prices hp
    · rw [List.flatMap_append, ← h.balances]
      simp
    · rw [List.flatMap_append, ← h.inferences]
      simp

/-- **What has been merged after some workers**, and when nothing raises. -/
theorem aggregateWorkers_spec (h : AggregationInv heapTrades heapPrices done agg)
    (hin : WorkersIn heapTrades heapPrices (done ++ workers)) :
    ((∃ agg', workers.foldlM aggregateWorker agg = .ok agg') ↔
        ∀ worker ∈ workers, ∀ i ∈ traded worker.1, i ∈ worker.1.sampledPrices.map Prod.fst) ∧
      ∀ agg', workers.foldlM aggregateWorker agg = .ok agg' →
        AggregationInv heapTrades heapPrices (done ++ workers) agg' := by
  induction workers generalizing done agg with
  | nil =>
    refine ⟨iff_of_true ⟨agg, rfl⟩ nofun, fun agg' hagg => ?_⟩
    obtain rfl := Except.ok.inj hagg
    rwa [List.append_nil]
  | cons worker workers ih =>
    rw [List.append_cons] at hin
    have hone : WorkersIn heapTrades heapPrices (done ++ [worker]) := by
      have hsub : ∀ w ∈ done ++ [worker], w ∈ done ++ [worker] ++ workers :=
        fun w hw => List.mem_append_left workers hw
      refine ⟨?_, fun w hw => hin.trades w (hsub w hw), fun w hw => hin.prices w (hsub w hw),
        fun w hw => hin.nodup w (hsub w hw)⟩
      have hindices := hin.indices
      rw [List.map_append, List.nodup_append] at hindices
      exact hindices.1
    obtain ⟨hok, hinv⟩ := aggregateWorker_spec h hone
    rw [List.foldlM_cons, List.forall_mem_cons, ← hok, List.append_cons]
    cases hw : aggregateWorker agg worker with
    | error e =>
      refine ⟨iff_of_false ?_ ?_, ?_⟩
      · rintro ⟨agg', hagg⟩
        cases hagg
      · rintro ⟨⟨agg', hagg⟩, -⟩
        cases hagg
      · intro agg' hagg
        cases hagg
    | ok agg₁ =>
      obtain ⟨hrest, hrestInv⟩ := ih (hinv agg₁ hw) hin
      exact ⟨by rw [and_iff_right ⟨agg₁, rfl⟩]; exact hrest, hrestInv⟩

/-! ### All workers -/

/-- The instruments that a worker has sampled. -/
def sampled (res : LoopRunResult R) : List Instrument := res.sampledPrices.map Prod.fst

theorem workersIn_zipIdx (hnodup : ∀ res ∈ results, (traded res).Nodup) :
    WorkersIn (results.map LoopRunResult.executedTrades) (results.map LoopRunResult.sampledPrices)
      results.zipIdx := by
  have hget : ∀ worker ∈ results.zipIdx, results[worker.2]? = some worker.1 :=
    fun worker hw => List.mem_zipIdx_iff_getElem?.1 hw
  refine ⟨?_, fun worker hw => ?_, fun worker hw => ?_, fun worker hw => ?_⟩
  · rw [List.zipIdx_map_snd]
    exact List.nodup_range'
  · rw [List.getElem?_map, hget worker hw]
    rfl
  · rw [List.getElem?_map, hget worker hw]
    rfl
  · exact hnodup worker.1 (List.mem_of_getElem? (hget worker hw))

theorem tradersOf_ne_nil_iff {i : Instrument} :
    tradersOf results.zipIdx i ≠ [] ↔ ∃ res ∈ results, i ∈ traded res := by
  rw [tradersOf, ne_eq, List.filter_eq_nil_iff]
  push Not
  constructor
  · rintro ⟨worker, hw, hi⟩
    exact ⟨worker.1, List.mem_of_getElem? (List.mem_zipIdx_iff_getElem?.1 hw), by simpa using hi⟩
  · rintro ⟨res, hres, hi⟩
    obtain ⟨n, hn⟩ := List.mem_iff_getElem?.1 hres
    exact ⟨(res, n), List.mem_zipIdx_iff_getElem?.2 hn, by simpa using hi⟩

section Heap

variable {heap : List (List (Instrument × List α))}
  {dict : LoopRunResult R → List (Instrument × List α)}

theorem mergedLists_mergedPairs (hheap : ∀ worker ∈ workers, heap[worker.2]? = some (dict worker.1))
    (hnodup : ∀ worker ∈ workers, (traded worker.1).Nodup) (i : Instrument) :
    mergedLists heap (mergedPairs workers) i =
      (tradersOf workers i).flatMap fun worker => (dictGet (dict worker.1) i).getD [] := by
  rw [mergedLists, mergedFrom_mergedPairs hnodup, List.flatMap_map]
  refine List.flatMap_congr fun worker hw => ?_
  rw [readAt, hheap worker (List.mem_of_mem_filter hw), Option.bind_some]

theorem forall_mem_tail_filter_iff {β : Type} {p : β → Prop} [DecidablePred p] {q : β → Prop}
    {l : List β} :
    (∀ x ∈ (l.filter fun x => p x).tail, q x) ↔ l.Pairwise fun x y => p x → p y → q y := by
  induction l with
  | nil => exact iff_of_true nofun .nil
  | cons x l ih =>
    rw [List.pairwise_cons]
    by_cases hx : p x
    · rw [List.filter_cons_of_pos (by simpa using hx), List.tail_cons]
      constructor
      · intro h
        have hall : ∀ y ∈ l, p y → q y := fun y hy hp =>
          h y (List.mem_filter.2 ⟨hy, by simpa using hp⟩)
        exact ⟨fun y hy _ hp => hall y hy hp,
          List.pairwise_of_forall_mem_list fun _ _ y hy _ hp => hall y hy hp⟩
      · intro h y hy
        obtain ⟨hy, hp⟩ := List.mem_filter.1 hy
        exact h.1 y hy hx (by simpa using hp)
    · rw [List.filter_cons_of_neg (by simpa using hx), ih]
      exact (and_iff_right fun y _ hp => absurd hp hx).symm

/-- When the lists behind the first one at each instrument are empty. -/
theorem forall_tail_mergedFrom_iff
    (hheap : ∀ worker ∈ workers, heap[worker.2]? = some (dict worker.1))
    (hnodup : ∀ worker ∈ workers, (traded worker.1).Nodup) (i : Instrument) :
    (∀ n ∈ (mergedFrom (mergedPairs workers) i).tail, readAt heap n i = some []) ↔
      workers.Pairwise fun w w' =>
        i ∈ traded w.1 → i ∈ traded w'.1 → dictGet (dict w'.1) i = some [] := by
  rw [mergedFrom_mergedPairs hnodup, ← List.map_tail, List.forall_mem_map, tradersOf,
    ← forall_mem_tail_filter_iff]
  refine forall₂_congr fun w hw => ?_
  rw [readAt, hheap w (List.mem_of_mem_filter (List.mem_of_mem_tail hw)), Option.bind_some]

end Heap

theorem flatMap_filter_eq_iff {β γ : Type} {p : β → Prop} [DecidablePred p] {f : β → List γ}
    {l : List β} :
    (l.filter fun x => p x).flatMap f = l.flatMap f ↔ ∀ x ∈ l, ¬ p x → f x = [] := by
  induction l with
  | nil => exact iff_of_true rfl nofun
  | cons x l ih =>
    rw [List.forall_mem_cons, ← ih, List.flatMap_cons]
    by_cases hx : p x
    · rw [List.filter_cons_of_pos (by simpa using hx), List.flatMap_cons,
        List.append_right_inj]
      exact (and_iff_right fun hn => absurd hx hn).symm
    · rw [List.filter_cons_of_neg (by simpa using hx)]
      constructor
      · intro h
        have hsub := (List.filter_sublist (p := fun x => decide (p x)) (l := l)).flatMap f
        have hlen := congrArg List.length h
        have hle := hsub.length_le
        rw [List.length_append] at hlen
        have hnil : f x = [] := List.length_eq_zero_iff.1 (by omega)
        rw [hnil, List.nil_append] at h
        exact ⟨fun _ => hnil, h⟩
      · rintro ⟨hnil, h⟩
        rw [h, hnil hx, List.nil_append]

theorem flatMap_zipIdx {β γ : Type} (l : List β) (f : β → List γ) :
    (l.zipIdx.flatMap fun x => f x.1) = l.flatMap f := by
  conv_rhs => rw [← List.zipIdx_map_fst 0 l, List.flatMap_map]

theorem pairwise_zipIdx {β : Type} {l : List β} {r : β → β → Prop} :
    (l.zipIdx.Pairwise fun x y => r x.1 y.1) ↔ l.Pairwise r := by
  conv_rhs => rw [← List.zipIdx_map_fst 0 l, List.pairwise_map]

/-- The merged list of an instrument that was traded. -/
theorem dictGet_values_of_traded {heap : List (List (Instrument × List α))}
    {dict : LoopRunResult R → List (Instrument × List α)}
    (hheap : ∀ worker ∈ results.zipIdx, heap[worker.2]? = some (dict worker.1))
    (hnodup : ∀ worker ∈ results.zipIdx, (traded worker.1).Nodup)
    (h : Shared.Merged heap (mergedPairs results.zipIdx) s) {i : Instrument}
    (hi : ∃ res ∈ results, i ∈ traded res) :
    dictGet s.values i = some ((tradersOf results.zipIdx i).flatMap fun worker =>
      (dictGet (dict worker.1) i).getD []) := by
  rw [← mergedLists_mergedPairs hheap hnodup]
  refine h.dictGet_values ?_
  rw [mergedFrom_mergedPairs hnodup, ne_eq, List.map_eq_nil_iff]
  exact tradersOf_ne_nil_iff.2 hi

/-- **The merged dictionary has all lists** of an instrument exactly if it was traded, and the
workers that have not traded it have nothing for it. -/
theorem dictGet_values_eq_iff {heap : List (List (Instrument × List α))}
    {dict : LoopRunResult R → List (Instrument × List α)}
    (hheap : ∀ worker ∈ results.zipIdx, heap[worker.2]? = some (dict worker.1))
    (hnodup : ∀ worker ∈ results.zipIdx, (traded worker.1).Nodup)
    (h : Shared.Merged heap (mergedPairs results.zipIdx) s) {i : Instrument} :
    dictGet s.values i = some (results.flatMap fun res => (dictGet (dict res) i).getD []) ↔
      (∃ res ∈ results, i ∈ traded res) ∧
        ∀ res ∈ results, i ∉ traded res → (dictGet (dict res) i).getD [] = [] := by
  by_cases hi : ∃ res ∈ results, i ∈ traded res
  · rw [dictGet_values_of_traded hheap hnodup h hi, Option.some.injEq, and_iff_right hi,
      ← flatMap_zipIdx results, tradersOf, flatMap_filter_eq_iff]
    conv_rhs => rw [← List.zipIdx_map_fst 0 results, List.forall_mem_map]
  · refine iff_of_false (fun hget => hi ?_) fun hall => hi hall.1
    have hne := h.mergedFrom_ne_nil hget
    rw [mergedFrom_mergedPairs hnodup, ne_eq, List.map_eq_nil_iff] at hne
    exact tradersOf_ne_nil_iff.1 hne

/-- The results of the workers are as they were exactly if their dictionaries are. -/
theorem map_workerAfter_eq_iff (htrades : agg.trades.heap.length = results.length)
    (hprices : agg.prices.heap.length = results.length) :
    results.zipIdx.map (workerAfter agg) = results ↔
      agg.trades.heap = results.map LoopRunResult.executedTrades ∧
        agg.prices.heap = results.map LoopRunResult.sampledPrices := by
  have hget : ∀ n, (results.zipIdx.map (workerAfter agg))[n]? =
      results[n]?.map fun res => workerAfter agg (res, n) := by
    intro n
    rw [List.getElem?_map, List.getElem?_zipIdx, Option.map_map, Nat.zero_add]
    rfl
  constructor
  · intro h
    have hres : ∀ n res, results[n]? = some res → workerAfter agg (res, n) = res := by
      intro n res hn
      have hmap := hget n
      rw [h, hn] at hmap
      exact (Option.some.inj hmap).symm
    refine ⟨List.ext_getElem (by rw [htrades, List.length_map]) fun n hn _ => ?_,
      List.ext_getElem (by rw [hprices, List.length_map]) fun n hn _ => ?_⟩
    · have hn' := htrades ▸ hn
      have heq := hres n results[n] (List.getElem?_eq_getElem hn')
      rw [List.getElem_map]
      conv_rhs => rw [← heq]
      simp [workerAfter, hn]
    · have hn' := hprices ▸ hn
      have heq := hres n results[n] (List.getElem?_eq_getElem hn')
      rw [List.getElem_map]
      conv_rhs => rw [← heq]
      simp [workerAfter, hn]
  · rintro ⟨ht, hp⟩
    refine List.ext_getElem? fun n => ?_
    rw [hget]
    cases hn : results[n]? with
    | none => rfl
    | some res => simp [workerAfter, ht, hp, hn]

/-- The results of the workers are merged without a loss, and stay as they were. -/
def LosslessAggregation (results : List (LoopRunResult R)) : Prop :=
  ∃ agg, aggregateLoopRunResults results = .ok (agg, results) ∧
    (∀ i, (∃ res ∈ results, i ∈ traded res) → dictGet agg.executedTrades i =
      some (results.flatMap fun res => (dictGet res.executedTrades i).getD [])) ∧
    (∀ i, (∃ res ∈ results, i ∈ sampled res) → dictGet agg.sampledPrices i =
      some (results.flatMap fun res => (dictGet res.sampledPrices i).getD [])) ∧
    agg.portfolioBalances = results.flatMap LoopRunResult.portfolioBalances ∧
    agg.inferenceResults = results.flatMap LoopRunResult.inferenceResults

/-- Results of workers that can be merged. -/
structure Mergeable (results : List (LoopRunResult R)) : Prop where
  /-- A worker has sampled what it has traded. -/
  priced : ∀ res ∈ results, ∀ i ∈ traded res, i ∈ sampled res
  /-- What was sampled was also traded, and a worker that has not traded it has no prices of it. -/
  untraded : ∀ i, (∃ res ∈ results, i ∈ sampled res) → (∃ res ∈ results, i ∈ traded res) ∧
    ∀ res ∈ results, i ∉ traded res → (dictGet res.sampledPrices i).getD [] = []
  /-- Where two workers have traded an instrument, the later one has no trades and no samples. -/
  once : ∀ i, results.Pairwise fun res res' => i ∈ traded res → i ∈ traded res' →
    dictGet res'.executedTrades i = some [] ∧ dictGet res'.sampledPrices i = some []

/-- When the dictionaries of the workers are as they were. -/
theorem heap_eq_iff_pairwise {heap : List (List (Instrument × List α))}
    {dict : LoopRunResult R → List (Instrument × List α)} (hheap : heap = results.map dict)
    (htraded : ∀ res ∈ results, (traded res).Nodup)
    (hkeys : ∀ res ∈ results, ((dict res).map Prod.fst).Nodup)
    (hsub : ∀ res ∈ results, ∀ i ∈ traded res, i ∈ (dict res).map Prod.fst)
    (h : Shared.Merged heap (mergedPairs results.zipIdx) s) :
    s.heap = heap ↔ ∀ i, results.Pairwise fun res res' =>
      i ∈ traded res → i ∈ traded res' → dictGet (dict res') i = some [] := by
  have hget : ∀ worker ∈ results.zipIdx, results[worker.2]? = some worker.1 :=
    fun worker hw => List.mem_zipIdx_iff_getElem?.1 hw
  have hmem : ∀ worker ∈ results.zipIdx, worker.1 ∈ results :=
    fun worker hw => List.mem_of_getElem? (hget worker hw)
  have hdict : ∀ worker ∈ results.zipIdx, heap[worker.2]? = some (dict worker.1) := by
    intro worker hw
    rw [hheap, List.getElem?_map, hget worker hw]
    rfl
  have hnodup : ∀ worker ∈ results.zipIdx, (traded worker.1).Nodup :=
    fun worker hw => htraded worker.1 (hmem worker hw)
  rw [h.heap_eq_iff]
  · refine forall_congr' fun i => ?_
    rw [forall_tail_mergedFrom_iff hdict hnodup]
    exact pairwise_zipIdx (r := fun res res' =>
      i ∈ traded res → i ∈ traded res' → dictGet (dict res') i = some [])
  · rw [hheap]
    exact List.forall_mem_map.2 hkeys
  · intro i n hn
    rw [mergedFrom_mergedPairs hnodup] at hn
    obtain ⟨worker, hw, rfl⟩ := List.mem_map.1 hn
    obtain ⟨hw, hi⟩ := List.mem_filter.1 hw
    rw [readAt, hdict worker hw, Option.bind_some]
    exact mem_keys_iff_isSome.2 (hsub worker.1 (hmem worker hw) i (by simpa using hi))

/-- What was merged, where nothing raised: when it has all prices and no dictionary has changed. -/
theorem lossless_iff_of_inv (hkeys : ∀ res ∈ results, (traded res).Nodup ∧ (sampled res).Nodup)
    (hpriced : ∀ res ∈ results, ∀ i ∈ traded res, i ∈ sampled res)
    (h : AggregationInv (results.map LoopRunResult.executedTrades)
      (results.map LoopRunResult.sampledPrices) results.zipIdx agg) :
    (results.zipIdx.map (workerAfter agg) = results ∧
      ∀ i, (∃ res ∈ results, i ∈ sampled res) → dictGet agg.prices.values i =
        some (results.flatMap fun res => (dictGet res.sampledPrices i).getD [])) ↔
      Mergeable results := by
  have htraded : ∀ res ∈ results, (traded res).Nodup := fun res hres => (hkeys res hres).1
  have hin := workersIn_zipIdx htraded
  have hlength : ∀ {β : Type} {heap : List (List (Instrument × List β))}
      {dict : LoopRunResult R → List (Instrument × List β)},
      heap.map (List.map Prod.fst) = (results.map dict).map (List.map Prod.fst) →
        heap.length = results.length := by
    intro β heap dict heq
    simpa using congrArg List.length heq
  rw [map_workerAfter_eq_iff (hlength h.trades.keys_eq) (hlength h.prices.keys_eq),
    heap_eq_iff_pairwise rfl htraded htraded (fun _ _ _ hi => hi) h.trades,
    heap_eq_iff_pairwise rfl htraded (fun res hres => (hkeys res hres).2) hpriced h.prices]
  have hvalues : ∀ i, (dictGet agg.prices.values i =
      some (results.flatMap fun res => (dictGet res.sampledPrices i).getD [])) ↔
      (∃ res ∈ results, i ∈ traded res) ∧
        ∀ res ∈ results, i ∉ traded res → (dictGet res.sampledPrices i).getD [] = [] :=
    fun i => dictGet_values_eq_iff hin.prices hin.nodup h.prices
  constructor
  · rintro ⟨⟨htrades, hprices⟩, hall⟩
    exact ⟨hpriced, fun i hi => (hvalues i).1 (hall i hi), fun i =>
      ((htrades i).and (hprices i)).imp fun h hi hi' => ⟨h.1 hi hi', h.2 hi hi'⟩⟩
  · rintro ⟨-, huntraded, honce⟩
    exact ⟨⟨fun i => (honce i).imp fun h hi hi' => (h hi hi').1,
      fun i => (honce i).imp fun h hi hi' => (h hi hi').2⟩,
      fun i hi => (hvalues i).2 (huntraded i hi)⟩

/-- **The aggregation loses nothing and changes no result of a worker** if and only if the results
are `Mergeable`. -/
theorem losslessAggregation_iff (results : List (LoopRunResult R))
    (hkeys : ∀ res ∈ results, (traded res).Nodup ∧ (sampled res).Nodup) :
    LosslessAggregation results ↔ Mergeable results := by
  have htraded : ∀ res ∈ results, (traded res).Nodup := fun res hres => (hkeys res hres).1
  have hin := workersIn_zipIdx htraded
  have hinit : AggregationInv (results.map LoopRunResult.executedTrades)
      (results.map LoopRunResult.sampledPrices) ([] : List (LoopRunResult R × ℕ))
      ⟨⟨results.map LoopRunResult.executedTrades, []⟩, [],
        ⟨results.map LoopRunResult.sampledPrices, []⟩, []⟩ :=
    ⟨merged_nil _, merged_nil _, rfl, rfl⟩
  obtain ⟨hok, hinv⟩ := aggregateWorkers_spec hinit hin
  have hpriced : (∀ worker ∈ results.zipIdx, ∀ i ∈ traded worker.1,
      i ∈ worker.1.sampledPrices.map Prod.fst) ↔ ∀ res ∈ results, ∀ i ∈ traded res,
        i ∈ sampled res := by
    conv_rhs => rw [← List.zipIdx_map_fst 0 results, List.forall_mem_map]
    rfl
  rw [hpriced] at hok
  unfold LosslessAggregation aggregateLoopRunResults
  cases hfold : results.zipIdx.foldlM aggregateWorker
      ⟨⟨results.map LoopRunResult.executedTrades, []⟩, [],
        ⟨results.map LoopRunResult.sampledPrices, []⟩, []⟩ with
  | error e =>
    refine iff_of_false ?_ fun hm => ?_
    · rintro ⟨_, hagg, -⟩
      cases hagg
    · obtain ⟨agg, hagg⟩ := hok.2 hm.priced
      rw [hfold] at hagg
      cases hagg
  | ok agg =>
    have hinv := hinv agg hfold
    rw [← lossless_iff_of_inv hkeys (hok.1 ⟨agg, hfold⟩) hinv]
    constructor
    · rintro ⟨_, hagg, -, hprices, -⟩
      obtain ⟨rfl, hafter⟩ := Prod.mk.inj (Except.ok.inj hagg)
      exact ⟨hafter, hprices⟩
    · rintro ⟨hafter, hprices⟩
      refine ⟨_, congrArg Except.ok (Prod.ext rfl hafter), fun i hi => ?_, hprices, ?_, ?_⟩
      · -- a worker that has not traded has no trades to lose
        refine (dictGet_values_eq_iff hin.trades hin.nodup hinv.trades).2 ⟨hi, fun res _ hnot => ?_⟩
        rw [dictGet_eq_none_iff.2 hnot]
        rfl
      · exact hinv.balances.trans (flatMap_zipIdx results LoopRunResult.portfolioBalances)
      · exact hinv.inferences.trans (flatMap_zipIdx results LoopRunResult.inferenceResults)

/-- Two workers, each with its own instrument. -/
def disjointWorkers : List (LoopRunResult ℕ) :=
  [⟨[(⟨"BINANCE", "spot", "BTC-USDT"⟩, [])], [⟨1, 10000, []⟩],
      [(⟨"BINANCE", "spot", "BTC-USDT"⟩, [(1, 20000)])], [(3, 1)]⟩,
    ⟨[(⟨"BINANCE", "spot", "ETH-USDT"⟩, [])], [⟨2, 9900, []⟩],
      [(⟨"BINANCE", "spot", "ETH-USDT"⟩, [(2, 1500)])], [(4, 2)]⟩]

theorem losslessAggregation_iff_disjointWorkers :
    LosslessAggregation disjointWorkers ↔ Mergeable disjointWorkers :=
  losslessAggregation_iff disjointWorkers (by decide)

/-- A worker that has traded nothing loses its prices. -/
theorem not_losslessAggregation_withoutTrades :
    ¬ LosslessAggregation
      [(⟨[], [], [(⟨"BINANCE", "spot", "BTC-USDT"⟩, [(1, 20000)])], []⟩ : LoopRunResult ℕ)] := by
  rintro ⟨agg, hagg, -, hprices, -⟩
  obtain ⟨rfl, -⟩ := Prod.mk.inj (Except.ok.inj hagg)
  have hbtc := hprices ⟨"BINANCE", "spot", "BTC-USDT"⟩ ⟨_, List.mem_cons_self, List.mem_cons_self⟩
  revert hbtc
  decide +kernel

end Backtester

end Svoe
