import Svoe.Features.Generator
import Svoe.Series.CombineLatest

/-!
# The tuples of the live generator

The joined out stream of the live generator emits tuples, of the latest elements of all features.
The calls are traced with the tuples they emit.  The stream tree of a feature that is a data source
passes on what is emitted into it, so the tuples are those of `CombineLatest`.

* `Generator.tracedNext_fst` : the tuples change nothing.
* `foldlM_sinkElem`, `foldlM_sinkElem_construct` : what the sink makes of a tuple.
* `tracedData_of_emitsAt`, `tracedData_of_not_emitsAt` : what an input event makes of the trees.
-/

namespace Svoe

open CombineLatest

/-! ### Tuples -/

namespace Generator

/-- `emitUnified`, with the tuple that the joined stream emits. -/
def tracedUnified (g : Generator) (trees : List StreamTree) :
    Except PyError (Generator × List (List Elem)) :=
  match trees.mapM StreamTree.last with
  | none => .ok (g, [])
  | some elems => (elems.foldlM sinkElem g).map fun g => (g, [elems])

/-- `emitData`, with the tuples. -/
def tracedData (stddev : List ℚ → ℚ) (data : Source) (event : DataEvent) (g : Generator)
    (done : List StreamTree) : List StreamTree → Except PyError (Generator × List (List Elem))
  | [] => .ok ({ g with dataStreams := done }, [])
  | tree :: trees =>
    if data = tree.feature.dataSource then
      match tree.feature.emit stddev g.queue tree.state (.named data event) with
      | .error e => .error e
      | .ok (queue, state, none) =>
        tracedData stddev data event { g with queue := queue }
          (done ++ [⟨tree.feature, state, tree.last⟩]) trees
      | .ok (queue, state, some elem) =>
        match tracedUnified { g with queue := queue }
            (done ++ ⟨tree.feature, state, some elem⟩ :: trees) with
        | .error e => .error e
        | .ok (g, tuples) => (tracedData stddev data event g
            (done ++ [⟨tree.feature, state, some elem⟩]) trees).map fun r => (r.1, tuples ++ r.2)
    else tracedData stddev data event g (done ++ [tree]) trees

/-- `emitGroup`, with the tuples. -/
def tracedGroup (stddev : List ℚ → ℚ) (g : Generator) (group : List (Source × DataEvent)) :
    Except PyError (Generator × List (List Elem)) :=
  group.foldlM (fun r p => (tracedData stddev p.1 p.2 r.1 [] r.1.dataStreams).map fun r' =>
    (r'.1, r.2 ++ r'.2)) (g, [])

/-- `next`, with the tuples that the joined stream emitted. -/
def tracedNext (stddev : List ℚ → ℚ) (g : Generator) :
    Except PyError ((Generator × Option DataStreamEvent) × List (List Elem)) :=
  match g.popInputEvents with
  | .error e => .error e
  | .ok (group, g) =>
    match g.tracedGroup stddev group with
    | .error e => .error e
    | .ok (g, tuples) => g.finish.map fun r => (r, tuples)

variable {stddev : List ℚ → ℚ} {g g' : Generator} {data : Source} {event : DataEvent}
  {trees done : List StreamTree} {group : List (Source × DataEvent)}

theorem map_map {ε α β γ : Type} (x : Except ε α) (f : α → β) (f' : β → γ) :
    (x.map f).map f' = x.map fun a => f' (f a) := by
  cases x <;> rfl

theorem tracedUnified_fst (g : Generator) (trees : List StreamTree) :
    (g.tracedUnified trees).map Prod.fst = g.emitUnified trees := by
  unfold tracedUnified emitUnified
  cases trees.mapM StreamTree.last with
  | none => rfl
  | some elems =>
    dsimp only
    cases elems.foldlM sinkElem g <;> rfl

theorem tracedData_fst : (tracedData stddev data event g done trees).map Prod.fst =
    emitData stddev data event g done trees := by
  induction trees generalizing g done with
  | nil => rfl
  | cons tree trees ih =>
    rw [tracedData, emitData]
    split_ifs
    · cases tree.feature.emit stddev g.queue tree.state (.named data event) with
      | error e => rfl
      | ok r =>
        obtain ⟨queue, state, _ | elem⟩ := r
        · exact ih
        · have hunified := tracedUnified_fst { g with queue := queue }
            (done ++ ⟨tree.feature, state, some elem⟩ :: trees)
          dsimp only
          rw [← hunified]
          cases tracedUnified { g with queue := queue }
            (done ++ ⟨tree.feature, state, some elem⟩ :: trees) with
          | error e => rfl
          | ok r =>
            show Except.map _ (Except.map _ _) = _
            rw [map_map]
            exact ih
    · exact ih

theorem tracedGroup_fst : (tracedGroup stddev g group).map Prod.fst = emitGroup stddev g group := by
  unfold tracedGroup emitGroup
  generalize ([] : List (List Elem)) = tuples
  induction group generalizing g tuples with
  | nil => rfl
  | cons p group ih =>
    rw [List.foldlM_cons, List.foldlM_cons, ← tracedData_fst]
    cases tracedData stddev p.1 p.2 g [] g.dataStreams with
    | error e => rfl
    | ok r => exact ih _

/-- **The tuples change nothing.** -/
theorem tracedNext_fst : (g.tracedNext stddev).map Prod.fst = g.next stddev := by
  unfold tracedNext next
  cases g.popInputEvents with
  | error e => rfl
  | ok r =>
    obtain ⟨group, g⟩ := r
    dsimp only
    rw [← tracedGroup_fst]
    cases g.tracedGroup stddev group with
    | error e => rfl
    | ok r =>
      show (Except.map _ r.1.finish).map Prod.fst = r.1.finish
      rw [map_map]
      cases r.1.finish <;> rfl

end Generator

/-! ### Features that are data sources -/

/-- The stream trees of data sources, with what they have emitted last. -/
def treesOf (sources : List Source) (l : Source → Option DataEvent) : List StreamTree :=
  sources.map fun s => ⟨.source s, (), (l s).map (.named s)⟩

/-- The values of an event that reports the data sources. -/
def outValues (sources : List Source) (v : Source → DataEvent) : List (Feature × DataEvent) :=
  sources.map fun s => (.source s, v s)

section Sources

open Generator

variable {stddev : List ℚ → ℚ} {g : Generator} {data : Source} {event : DataEvent}
  {sources : List Source} {l : Source → Option DataEvent} {v v' : Source → DataEvent}
  {done : List StreamTree}

theorem keys_outValues : (outValues sources v).map Prod.fst = sources.map Feature.source := by
  rw [outValues, List.map_map]
  rfl

theorem nodup_keys_outValues (h : sources.Nodup) : ((outValues sources v).map Prod.fst).Nodup := by
  rw [keys_outValues]
  exact h.map fun s s' hs => Feature.source.inj hs

theorem dictGet_outValues (h : sources.Nodup) {s : Source} (hs : s ∈ sources) :
    dictGet (outValues sources v) (.source s) = some (v s) :=
  (dictGet_eq_some_iff (nodup_keys_outValues h)).2 (List.mem_map_of_mem (f := fun s =>
    ((.source s, v s) : Feature × DataEvent)) hs)

/-- New values for the same sources. -/
theorem dictUpdate_outValues (h : sources.Nodup) :
    dictUpdate (outValues sources v) (outValues sources v') = outValues sources v' := by
  suffices ∀ before after : List Source, (before ++ after).Nodup →
      dictUpdate (outValues before v' ++ outValues after v) (outValues after v') =
        outValues (before ++ after) v' from this [] sources h
  intro before after hnodup
  induction after generalizing before with
  | nil => simp [outValues, dictUpdate]
  | cons s after ih =>
    have hs : Feature.source s ∉ (outValues before v').map Prod.fst := by
      rw [keys_outValues]
      intro hmem
      obtain ⟨s', hs', heq⟩ := List.mem_map.1 hmem
      rw [List.nodup_append] at hnodup
      exact hnodup.2.2 s' hs' s List.mem_cons_self (Feature.source.inj heq)
    have hnext := ih (before ++ [s]) (by simpa using hnodup)
    rw [show before ++ s :: after = before ++ [s] ++ after by simp, ← hnext]
    show dictUpdate (dictSet (outValues before v' ++ (Feature.source s, v s) :: outValues after v)
      (.source s) (v' s)) (outValues after v') = _
    rw [dictSet_append_cons hs]
    congr 1
    simp [outValues]

/-- The streams of other sources have emitted what they had. -/
theorem treesOf_update_of_not_mem (h : data ∉ sources) :
    treesOf sources (Function.update l data (some event)) = treesOf sources l := by
  refine List.map_congr_left fun s hs => ?_
  have hne : s ≠ data := fun heq => h (heq ▸ hs)
  rw [Function.update_of_ne hne]

theorem mapM_last_treesOf (h : ∀ s ∈ sources, l s = some (v s)) :
    (treesOf sources l).mapM StreamTree.last = some (sources.map fun s => .named s (v s)) := by
  induction sources with
  | nil => rfl
  | cons s sources ih =>
    rw [List.forall_mem_cons] at h
    have hrest := ih h.2
    rw [treesOf] at hrest
    simp only [treesOf, List.map_cons, List.mapM_cons, h.1, hrest]
    rfl

theorem mapM_last_treesOf_of_none {s : Source} (hs : s ∈ sources) (h : l s = none) :
    (treesOf sources l).mapM StreamTree.last = none := by
  induction sources with
  | nil => cases hs
  | cons s' sources ih =>
    simp only [treesOf, List.map_cons, List.mapM_cons]
    rcases List.mem_cons.1 hs with rfl | hs
    · rw [h]
      rfl
    · have hrest := ih hs
      rw [treesOf] at hrest
      rw [hrest]
      cases l s' <;> rfl

/-- The sink goes on with the event of this call. -/
theorem foldlM_sinkElem {out : DataStreamEvent} (hconstruct : g.shouldConstructNewOutEvent = false)
    (hout : g.curOutEvent = some out) :
    (sources.map fun s => Elem.named s (v s)).foldlM sinkElem g = .ok { g with
      curOutEvent := some { out with
        featureValues := dictUpdate out.featureValues (outValues sources v) } } := by
  obtain ⟨streams, queue, cur, construct, input, sampled, last⟩ := g
  obtain rfl : construct = false := hconstruct
  obtain rfl : cur = some out := hout
  induction sources generalizing out with
  | nil => rfl
  | cons s sources ih => exact ih

/-- The sink makes the event of this call. -/
theorem foldlM_sinkElem_construct {s₀ : Source} (hnodup : (s₀ :: sources).Nodup)
    (hconstruct : g.shouldConstructNewOutEvent = true) :
    ((s₀ :: sources).map fun s => Elem.named s (v s)).foldlM sinkElem g = .ok { g with
      shouldConstructNewOutEvent := false
      curOutEvent := some ⟨(v s₀).timestamp, (v s₀).receiptTimestamp,
        outValues (s₀ :: sources) v⟩ } := by
  obtain ⟨streams, queue, cur, construct, input, sampled, last⟩ := g
  obtain rfl : construct = true := hconstruct
  have hvalues := dictOf_of_nodup (nodup_keys_outValues (v := v) hnodup)
  refine (foldlM_sinkElem (g := ⟨streams, queue, some ⟨(v s₀).timestamp, (v s₀).receiptTimestamp,
    [(.source s₀, v s₀)]⟩, false, input, sampled, last⟩) rfl rfl).trans ?_
  rw [← hvalues]
  rfl

theorem tracedData_source {last : Option Elem} {trees : List StreamTree} :
    tracedData stddev data event g done (⟨.source data, (), last⟩ :: trees) =
      g.tracedUnified (done ++ ⟨.source data, (), some (.named data event)⟩ :: trees) >>= fun r =>
        (tracedData stddev data event r.1
          (done ++ [⟨.source data, (), some (.named data event)⟩]) trees).map
            fun r' => (r'.1, r.2 ++ r'.2) := by
  obtain ⟨streams, queue, cur, construct, input, sampled, lastTs⟩ := g
  rw [tracedData]
  refine (if_pos (show data = (Feature.source data).dataSource from rfl)).trans ?_
  simp only [Feature.emit]
  cases Generator.tracedUnified ⟨streams, queue, cur, construct, input, sampled, lastTs⟩
    (done ++ ⟨.source data, (), some (.named data event)⟩ :: trees) <;> rfl

/-- **An event of a data source** goes into the stream tree of the source. -/
theorem tracedData_treesOf (hnodup : sources.Nodup) :
    tracedData stddev data event g done (treesOf sources l) =
      if data ∈ sources then
        (g.tracedUnified (done ++ treesOf sources (Function.update l data (some event)))).map
          fun r => ({ r.1 with
            dataStreams := done ++ treesOf sources (Function.update l data (some event)) }, r.2)
      else .ok ({ g with dataStreams := done ++ treesOf sources l }, []) := by
  induction sources generalizing g done with
  | nil => simp [treesOf, tracedData]
  | cons s sources ih =>
    obtain ⟨hs, hrest⟩ := List.nodup_cons.1 hnodup
    show tracedData stddev data event g done
      (⟨.source s, (), (l s).map (.named s)⟩ :: treesOf sources l) = _
    by_cases hdata : data = s
    · subst hdata
      have htrees : treesOf (data :: sources) (Function.update l data (some event)) =
          ⟨.source data, (), some (.named data event)⟩ :: treesOf sources l := by
        have hothers : treesOf sources (Function.update l data (some event)) = treesOf sources l :=
          treesOf_update_of_not_mem hs
        rw [← hothers]
        simp [treesOf]
      rw [tracedData_source, if_pos List.mem_cons_self, htrees]
      cases g.tracedUnified (done ++ ⟨.source data, (), some (.named data event)⟩ ::
          treesOf sources l) with
      | error e => rfl
      | ok r =>
        show Except.map _ (tracedData stddev data event r.1 _ (treesOf sources l)) = _
        rw [ih hrest, if_neg hs]
        simp [Except.map]
    · rw [tracedData]
      refine (if_neg (show ¬ data = (Feature.source s).dataSource from hdata)).trans ?_
      rw [ih hrest]
      have hmem : data ∈ s :: sources ↔ data ∈ sources := by simp [hdata]
      have htrees : ∀ l', l' s = l s → done ++ treesOf (s :: sources) l' =
          done ++ [⟨.source s, (), (l s).map (.named s)⟩] ++ treesOf sources l' := by
        intro l' hl'
        simp [treesOf, hl']
      simp only [hmem]
      rw [htrees l rfl, htrees _ (Function.update_of_ne (Ne.symm hdata) _ _)]

/-- An event that the joined stream does not emit with. -/
theorem tracedData_of_not_emitsAt {events : List (Source × DataEvent)} {p : Source × DataEvent}
    (hnodup : sources.Nodup) (hstreams : g.dataStreams = treesOf sources (latest events))
    (h : ¬ EmitsAt sources events p) :
    tracedData stddev p.1 p.2 g [] g.dataStreams =
      .ok ({ g with dataStreams := treesOf sources (latest (events ++ [p])) }, []) := by
  rw [hstreams, tracedData_treesOf hnodup, latest_append_singleton_eq_update, List.nil_append]
  by_cases hp : p.1 ∈ sources
  · have hunseen : ∃ s ∈ sources, latest (events ++ [p]) s = none := by
      by_contra hall
      push Not at hall
      exact h ⟨hp, allSeen_iff.2 hall⟩
    obtain ⟨s, hs, hnone⟩ := hunseen
    rw [latest_append_singleton_eq_update] at hnone
    rw [if_pos hp, tracedUnified, mapM_last_treesOf_of_none hs hnone]
    rfl
  · rw [if_neg hp, List.nil_append, treesOf_update_of_not_mem hp]

/-- An event that the joined stream emits the latest values with. -/
theorem tracedData_of_emitsAt {events : List (Source × DataEvent)} {p : Source × DataEvent}
    (hnodup : sources.Nodup) (hstreams : g.dataStreams = treesOf sources (latest events))
    (hp : p.1 ∈ sources) (hv : ∀ s ∈ sources, latest (events ++ [p]) s = some (v s)) :
    tracedData stddev p.1 p.2 g [] g.dataStreams =
      ((sources.map fun s => Elem.named s (v s)).foldlM sinkElem g).map fun g' =>
        ({ g' with dataStreams := treesOf sources (latest (events ++ [p])) },
          [sources.map fun s => .named s (v s)]) := by
  rw [hstreams, tracedData_treesOf hnodup, if_pos hp, ← latest_append_singleton_eq_update,
    List.nil_append, tracedUnified, mapM_last_treesOf hv]
  exact Generator.map_map _ _ _

end Sources

end Svoe
