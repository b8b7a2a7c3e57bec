import Svoe.Blocks.GroupOverlaps
import Svoe.TaskGraph.BuilderInv

/-!
# The ranges of a feature

`featureTable` says which ranges a feature has, and which blocks in each of them, from the ranges of
its data sources and the groupings alone.

* `rangesToIntervalDict_spec` : ranges can be filed if their hulls are disjoint.
* `rangeOverlaps_spec` : an overlap lies in one range of every dependency, with blocks of it.
* `groupOverlaps_spec` : an overlap of groups has some of these blocks of every dependency.
-/

namespace Svoe

open Portion

variable {κ ρ : Type}

/-! ### Blocks of a range -/

/-- Blocks in the order of their starts. -/
structure StartsSorted (range : List BlockMeta) : Prop where
  le : ∀ m ∈ range, m.interval.lower ≤ m.interval.upper
  sorted : range.Pairwise fun m m' => m.interval.lower ≤ m'.interval.lower

theorem metaToInterval_of_interval_le {m : BlockMeta} (h : m.interval.lower ≤ m.interval.upper) :
    metaToInterval m = .ok m.interval :=
  if_neg (not_lt.2 h)

/-- The hull of a range has the start of every block. -/
theorem StartsSorted.lower_mem_rangeHull {range : List BlockMeta} (h : StartsSorted range)
    {m : BlockMeta} (hm : m ∈ range) : m.interval.lower ∈ rangeHull range := by
  constructor
  · obtain ⟨first, rest, rfl⟩ := List.exists_cons_of_ne_nil (List.ne_nil_of_mem hm)
    rcases List.mem_cons.1 hm with rfl | hm
    · exact le_rfl
    · exact (List.pairwise_cons.1 h.sorted).1 m hm
  · rcases range.eq_nil_or_concat with rfl | ⟨front, last, rfl⟩
    · cases hm
    · rw [List.concat_eq_append] at h hm ⊢
      have hlast : m.interval.lower ≤ last.interval.lower := by
        rcases List.mem_append.1 hm with hm | hm
        · exact (List.pairwise_append.1 h.sorted).2.2 m hm last (by simp)
        · rw [List.mem_singleton.1 hm]
      simp only [rangeHull, List.getLast?_append, List.getLast?_singleton, Option.some_or,
        Option.map_some, Option.getD_some]
      exact hlast.trans (h.le last (by simp))

/-! ### Overlaps of the ranges -/

variable [DecidableEq κ]

/-- Pruning keeps some of the elements. -/
theorem pruneRange_sublist {E : Type} {interval : E → Except PyError (ClosedInterval ℚ)}
    {J : ClosedInterval ℚ} {es pruned : List E} (h : pruneRange interval J es = .ok pruned) :
    pruned.Sublist es := by
  induction es generalizing pruned with
  | nil => rw [← Except.ok.inj h]
  | cons e es ih =>
    rw [pruneRange] at h
    split at h
    · cases h
    · obtain ⟨rest, hrest, rfl⟩ := map_eq_ok_iff.1 h
      split_ifs
      · exact (ih hrest).cons_cons e
      · exact (ih hrest).cons e

omit [DecidableEq κ] in
theorem pruneKey_spec {E : Type} {interval : E → Except PyError (ClosedInterval ℚ)}
    {J : ClosedInterval ℚ} {kv kv' : κ × List E} (h : pruneKey interval J kv = .ok kv') :
    kv'.1 = kv.1 ∧ kv'.2 ≠ [] ∧ kv'.2.Sublist kv.2 := by
  unfold pruneKey at h
  split at h
  · cases h
  · cases h
  · next e es hes =>
    rw [← Except.ok.inj h]
    exact ⟨rfl, List.cons_ne_nil e es, pruneRange_sublist hes⟩

/-- The items of a dict that was assigned key by key, when equal keys have equal values. -/
theorem mem_dictOf_iff {υ : Type} {l : List (κ × υ)}
    (h : ∀ p ∈ l, ∀ q ∈ l, p.1 = q.1 → p = q) {p : κ × υ} : p ∈ dictOf l ↔ p ∈ l := by
  have hmem : ∀ {p}, p ∈ dictOf l → p ∈ l := fun hp =>
    (mem_or_mem_of_mem_dictUpdate (d := []) hp).resolve_left List.not_mem_nil
  refine ⟨hmem, fun hp => ?_⟩
  obtain ⟨q, hq, hkey⟩ := List.mem_map.1 (mem_keys_dictOf (List.mem_map_of_mem (f := Prod.fst) hp))
  rwa [h p hp q (hmem hq) hkey.symm]

/-- Dependencies with the same key are the same. -/
def KeysAgree {υ : Type} (deps : List (FeatureNode κ × υ)) : Prop :=
  ∀ p ∈ deps, ∀ q ∈ deps, p.1.key = q.1.key → p = q

/-- An overlap of ranges, with the blocks of every dependency on it. -/
structure RangeOverlap (deps : List (FeatureNode κ × Except PyError (List (List BlockMeta))))
    (p : ClosedInterval ℚ × List (κ × List BlockMeta)) : Prop where
  le : p.1.lower ≤ p.1.upper
  blocks : ∀ dep ∈ deps, ∃ ranges d r bs, dep.2 = .ok ranges ∧ rangesToIntervalDict ranges = .ok d ∧
    r ∈ ranges ∧ (∀ t ∈ p.1, t ∈ rangeHull r) ∧ dictGet p.2 dep.1.key = some bs ∧ bs ⊆ r

omit [DecidableEq κ] in
/-- The dict of one dependency's ranges, under the key of the dependency. -/
theorem exists_ranges_of_round {dep : FeatureNode κ × Except PyError (List (List BlockMeta))}
    {kd : κ × IntervalDict (Cut ℚ) (List BlockMeta)}
    (h : (dep.2 >>= rangesToIntervalDict).map (fun d => (dep.1.key, d)) = .ok kd) :
    kd.1 = dep.1.key ∧ ∃ ranges, dep.2 = .ok ranges ∧ rangesToIntervalDict ranges = .ok kd.2 := by
  obtain ⟨d, hd, rfl⟩ := map_eq_ok_iff.1 h
  obtain ⟨ranges, hranges, hd⟩ := bind_eq_ok_iff.1 hd
  exact ⟨rfl, ranges, hranges, hd⟩

omit [DecidableEq κ] in
/-- Pruning keeps the keys of the blocks of an overlap. -/
theorem keys_mapM_pruneKey {E : Type} {interval : E → Except PyError (ClosedInterval ℚ)}
    {J : ClosedInterval ℚ} {m m' : List (κ × List E)}
    (h : m.mapM (pruneKey interval J) = .ok m') : m.map Prod.fst = m'.map Prod.fst :=
  map_eq_map_of_forall₂ ((mapM_eq_ok_iff.1 h).imp fun {_ _} h => (pruneKey_spec h).1.symm)

/-- **An overlap of ranges** lies in one range of every dependency. -/
theorem rangeOverlaps_spec
    {deps : List (FeatureNode κ × Except PyError (List (List BlockMeta)))}
    {overlaps : List (ClosedInterval ℚ × List (κ × List BlockMeta))} (hdeps : KeysAgree deps)
    (h : rangeOverlaps deps = .ok overlaps) :
    (overlaps.map Prod.fst).Nodup ∧ ∀ p ∈ overlaps, RangeOverlap deps p := by
  simp only [rangeOverlaps, bind_eq_ok_iff] at h
  obtain ⟨dicts, hdicts, res, hres, hprune⟩ := h
  have hagree : ∀ p ∈ dicts, ∀ q ∈ dicts, p.1 = q.1 → p = q := by
    intro p hp q hq hpq
    obtain ⟨dep, hdep, hp⟩ := exists_of_mem_mapM hdicts hp
    obtain ⟨dep', hdep', hq⟩ := exists_of_mem_mapM hdicts hq
    have hkey := ((exists_ranges_of_round hp).1.symm.trans hpq).trans (exists_ranges_of_round hq).1
    rw [hdeps dep hdep dep' hdep' hkey] at hp
    exact Except.ok.inj (hp.symm.trans hq)
  have hcl : ∀ kd ∈ dictOf dicts, ClosedKeys kd.2 := by
    intro kd hkd p hp
    obtain ⟨dep, -, hd⟩ := exists_of_mem_mapM hdicts ((mem_dictOf_iff hagree).1 hkd)
    obtain ⟨-, ranges, -, hd⟩ := exists_ranges_of_round hd
    exact ⟨_, (((rangesToIntervalDict_spec hd).items p.1 p.2).1 hp).2⟩
  have hne : dictOf dicts ≠ [] := by
    intro hnil
    rw [hnil] at hres
    cases hres
  rw [pruneOverlaps, mapM_eq_ok_iff] at hprune
  have hkeys : res.map Prod.fst = overlaps.map Prod.fst := by
    refine map_eq_map_of_forall₂ (hprune.imp fun {p₀ p} hp => ?_)
    obtain ⟨m, -, rfl⟩ := map_eq_ok_iff.1 hp
    rfl
  refine ⟨hkeys ▸ nodup_keys_getOverlaps hres, fun p hp => ?_⟩
  obtain ⟨⟨J, m₀⟩, hp₀, hpruned⟩ := exists_of_mem_mapM (mapM_eq_ok_iff.2 hprune) hp
  obtain ⟨m, hm, rfl⟩ := map_eq_ok_iff.1 hpruned
  obtain ⟨hle, cs, hcs, rfl, hJ⟩ := (mem_getOverlaps_iff hne hcl hres).1 hp₀
  -- the dict of an overlap has the keys of the dependencies, once each
  have hcskeys : (dictOf dicts).map Prod.fst = (choiceValues cs).map Prod.fst := by
    rw [choiceValues, List.map_map]
    exact map_eq_map_of_forall₂ (hcs.imp fun {kd c} hc => hc.1)
  have hnodup : (m.map Prod.fst).Nodup := by
    rw [← keys_mapM_pruneKey hm, ← hcskeys]
    exact nodup_keys_dictUpdate (d := []) List.nodup_nil dicts
  refine ⟨hle, fun dep hdep => ?_⟩
  obtain ⟨kd, hkd, hd⟩ := exists_mem_of_mapM hdicts hdep
  obtain ⟨hkey, ranges, hranges, hd⟩ := exists_ranges_of_round hd
  obtain ⟨c, hc, hck, hitem⟩ := exists_mem_of_forall₂ hcs ((mem_dictOf_iff hagree).2 hkd)
  obtain ⟨hr, hhull⟩ := ((rangesToIntervalDict_spec hd).items _ _).1 hitem
  obtain ⟨kv, hkv, hpk⟩ := exists_mem_of_mapM hm (List.mem_map_of_mem hc)
  obtain ⟨hkvkey, -, hsub⟩ := pruneKey_spec hpk
  refine ⟨ranges, kd.2, c.2.2, kv.2, hranges, hd, hr, fun t ht => ?_, ?_, hsub.subset⟩
  · rw [← ClosedInterval.before_mem_toInterval, ← hhull, ClosedInterval.before_mem_toInterval]
    exact (hJ t).1 ht c hc
  · rw [dictGet_eq_some_iff hnodup, ← hkey, hck, ← show kv.1 = c.1 from hkvkey]
    exact hkv

/-! ### Overlaps of the groups -/

/-- An overlap of groups: it has some of the blocks of every dependency. -/
structure GroupOverlap (deps : List (FeatureNode κ)) (blocks : List (κ × List BlockMeta))
    (q : ClosedInterval ℚ × List (κ × List BlockMeta)) : Prop where
  le : q.1.lower ≤ q.1.upper
  ms : IsMs q.1.lower ∧ IsMs q.1.upper
  dep : ∀ kv ∈ q.2, ∃ dep ∈ deps, kv.1 = dep.key
  blocks : ∀ kv ∈ q.2, kv.2 ≠ [] ∧ ∃ bs, dictGet blocks kv.1 = some bs ∧ kv.2 ⊆ bs
  all : ∀ dep ∈ deps, ∃ bs, (dep.key, bs) ∈ q.2

theorem groupDep_spec {input : BuilderInput κ} {grouping : Grouping}
    {blocks : List (κ × List BlockMeta)} {dep : FeatureNode κ}
    {kd : κ × IntervalDict (Cut ℚ) (List BlockMeta)}
    (h : groupDep input grouping blocks dep = .ok kd) :
    kd.1 = dep.key ∧ ∃ bs, dictGet blocks dep.key = some bs ∧ GroupsOf bs kd.2 := by
  unfold groupDep at h
  split at h
  · cases h
  · next bs hbs =>
    obtain ⟨d, hd, rfl⟩ := map_eq_ok_iff.1 h
    exact ⟨rfl, bs, hbs, Grouping.group_spec hd⟩

/-- **The overlaps of the groups** are in the order of their starts. -/
theorem groupOverlaps_spec {input : BuilderInput κ} {grouping : Grouping}
    {deps : List (FeatureNode κ)} {blocks : List (κ × List BlockMeta)}
    {g : List (ClosedInterval ℚ × List (κ × List BlockMeta))}
    (h : groupOverlaps input grouping deps blocks = .ok g) :
    (g.map Prod.fst).Pairwise (fun I I' => I.lower ≤ I'.lower) ∧
      ∀ q ∈ g, GroupOverlap deps blocks q := by
  simp only [groupOverlaps, bind_eq_ok_iff] at h
  obtain ⟨groups, hgroups, hg⟩ := h
  have hgroup : ∀ kd ∈ dictOf groups, ∃ dep ∈ deps, kd.1 = dep.key ∧
      ∃ bs, dictGet blocks dep.key = some bs ∧ GroupsOf bs kd.2 := by
    intro kd hkd
    obtain ⟨dep, hdep, hd⟩ := exists_of_mem_mapM hgroups
      ((mem_or_mem_of_mem_dictUpdate (d := []) hkd).resolve_left List.not_mem_nil)
    exact ⟨dep, hdep, groupDep_spec hd⟩
  refine ⟨pairwise_lower_getOverlaps hg, fun q hq => ?_⟩
  have hvalues := values_of_mem_getOverlaps hg hq
  have hkv : ∀ kv ∈ q.2, ∃ kd ∈ dictOf groups, kv.1 = kd.1 ∧ kv.2 ∈ kd.2.values := fun kv hkv =>
    exists_mem_of_forall₂ hvalues.flip hkv
  refine ⟨lower_le_upper_of_mem_getOverlaps hg hq, ?_, fun kv hmem => ?_, fun kv hmem => ?_,
    fun dep hdep => ?_⟩
  · refine bounds_of_mem_getOverlaps (fun kd hkd => ?_) hg hq
    obtain ⟨dep, -, -, bs, -, hgroup⟩ := hgroup kd hkd
    exact hgroup.bounds
  · obtain ⟨kd, hkd, hk, -⟩ := hkv kv hmem
    obtain ⟨dep, hdep, hkey, -⟩ := hgroup kd hkd
    exact ⟨dep, hdep, hk.trans hkey⟩
  · obtain ⟨kd, hkd, hk, hv⟩ := hkv kv hmem
    obtain ⟨dep, -, hkey, bs, hbs, hgroup⟩ := hgroup kd hkd
    obtain ⟨hne, hsub⟩ := hgroup.values kv.2 hv
    exact ⟨hne, bs, by rw [hk, hkey, hbs], hsub⟩
  · obtain ⟨kd, hkd, hd⟩ := exists_mem_of_mapM hgroups hdep
    have hmem := mem_keys_dictOf (List.mem_map_of_mem (f := Prod.fst) hkd)
    obtain ⟨kd', hkd', hk⟩ := List.mem_map.1 hmem
    obtain ⟨kv, hkv, hkey, -⟩ := exists_mem_of_forall₂ hvalues hkd'
    exact ⟨kv.2, by rw [← (groupDep_spec hd).1, ← hk, ← hkey]; exact hkv⟩

/-! ### The ranges of a feature -/

/-- The overlaps of the ranges of the dependencies, each with the overlaps of the groups on it. -/
abbrev RangePlan (κ : Type) :=
  List (ClosedInterval ℚ × List (ClosedInterval ℚ × List (κ × List BlockMeta)))

/-- What a derived feature gets nodes for, given the ranges of its dependencies. -/
def rangePlan (input : BuilderInput κ) (grouping : Grouping)
    (deps : List (FeatureNode κ × Except PyError (List (List BlockMeta)))) :
    Except PyError (RangePlan κ) := do
  let overlaps ← rangeOverlaps deps
  overlaps.mapM fun p =>
    (groupOverlaps input grouping (deps.map Prod.fst) p.2).map fun g => (p.1, g)

/-- The ranges of a feature: what their nodes are filed under, and their blocks. -/
abbrev RangeTable := List (ClosedInterval ℚ × List BlockMeta)

/-- The ranges that are planned. -/
def planTable (plan : RangePlan κ) : RangeTable :=
  plan.map fun p => (p.1, p.2.map fun q => intervalToMeta q.1)

/-- The ranges of a data source. -/
def sourceTable (input : BuilderInput κ) (key : κ) : Except PyError RangeTable :=
  match input.dataRangesMeta key with
  | none => .error (.key "feature")
  | some ranges => ranges.mapM fun r => (rangeMetaToInterval r).map fun J => (J, r)

/-- The ranges of a dependency: a derived feature without ranges is not known. -/
def tableRanges (dep : FeatureNode κ) (table : Except PyError RangeTable) :
    Except PyError (List (List BlockMeta)) :=
  match table with
  | .error e => .error e
  | .ok rows =>
    if rows.isEmpty && !dep.isDataSource then .error (.key "dep_feature")
    else .ok (rows.map Prod.snd)

mutual

/-- The ranges of a feature. -/
def featureTable (input : BuilderInput κ) : FeatureTree κ → Except PyError RangeTable
  | .node n children =>
    match n.definition with
    | .dataSource _ => sourceTable input n.key
    | .derived grouping => (rangePlan input grouping (depTables input children)).map planTable

/-- The ranges of dependencies. -/
def depTables (input : BuilderInput κ) :
    List (FeatureTree κ) → List (FeatureNode κ × Except PyError (List (List BlockMeta)))
  | [] => []
  | c :: cs => (c.value, tableRanges c.value (featureTable input c)) :: depTables input cs

end

theorem depTables_eq (input : BuilderInput κ) (cs : List (FeatureTree κ)) :
    depTables input cs = cs.map fun c => (c.value, tableRanges c.value (featureTable input c)) := by
  induction cs with
  | nil => rw [depTables, List.map_nil]
  | cons c cs ih => rw [depTables, ih, List.map_cons]

theorem map_fst_depTables (input : BuilderInput κ) (cs : List (FeatureTree κ)) :
    (depTables input cs).map Prod.fst = cs.map RoseTree.value := by
  rw [depTables_eq, List.map_map]
  rfl

theorem featureTable_of_dataSource {input : BuilderInput κ} {n : FeatureTree κ} {isSynthetic : Bool}
    (h : n.value.definition = .dataSource isSynthetic) :
    featureTable input n = sourceTable input n.value.key := by
  obtain ⟨⟨key, definition⟩, children⟩ := n
  obtain rfl : definition = .dataSource isSynthetic := h
  rw [featureTable]
  rfl

theorem featureTable_of_derived {input : BuilderInput κ} {n : FeatureTree κ} {grouping : Grouping}
    (h : n.value.definition = .derived grouping) : featureTable input n =
      (rangePlan input grouping (depTables input n.children)).map planTable := by
  obtain ⟨⟨key, definition⟩, children⟩ := n
  obtain rfl : definition = .derived grouping := h
  rw [featureTable]
  rfl

/-- The ranges of a feature: their keys differ, and their blocks are in order. -/
structure TableOk (rows : RangeTable) : Prop where
  keys : (rows.map Prod.fst).Nodup
  sorted : ∀ row ∈ rows, StartsSorted row.2

theorem SortedBlocks.startsSorted {range : List BlockMeta} (h : SortedBlocks range) :
    StartsSorted range where
  le _ hm := h.interval_le hm
  sorted := h.apart.imp_of_mem fun {m _} hm _ hlt => roundFloat_mono ((h.le m hm).trans hlt.le)

omit [DecidableEq κ] in
/-- The ranges of a data source are filed under their hulls. -/
theorem sourceTable_eq {input : BuilderInput κ} {key : κ} {ranges : List (List BlockMeta)}
    (hranges : input.dataRangesMeta key = some ranges) (h : RangeSeq ranges) :
    sourceTable input key = .ok (ranges.map fun r => (rangeHull r, r)) := by
  rw [sourceTable, hranges]
  refine mapM_eq_ok fun r hr => ?_
  rw [(h.sorted r hr).rangeMetaToInterval_eq (h.nonempty r hr)]
  rfl

theorem RangeSeq.tableOk {ranges : List (List BlockMeta)} (h : RangeSeq ranges) :
    TableOk (ranges.map fun r => (rangeHull r, r)) where
  keys := by
    rw [List.map_map, List.Nodup, List.pairwise_map]
    refine h.apart.imp_of_mem fun {r r'} hr _ hlt heq => ?_
    have heq : rangeHull r = rangeHull r' := heq
    exact (h.hull_le hr).not_gt (heq ▸ hlt)
  sorted row hrow := by
    obtain ⟨r, hr, rfl⟩ := List.mem_map.1 hrow
    exact (h.sorted r hr).startsSorted

section Plan

variable {input : BuilderInput κ} {grouping : Grouping} {plan : RangePlan κ}
  {deps : List (FeatureNode κ × Except PyError (List (List BlockMeta)))}

/-- A plan needs ranges of every dependency that can be filed. -/
theorem exists_rangesToIntervalDict_of_rangePlan (h : rangePlan input grouping deps = .ok plan)
    {dep : FeatureNode κ × Except PyError (List (List BlockMeta))} (hdep : dep ∈ deps) :
    ∃ ranges d, dep.2 = .ok ranges ∧ rangesToIntervalDict ranges = .ok d := by
  simp only [rangePlan, rangeOverlaps, bind_eq_ok_iff] at h
  obtain ⟨-, ⟨dicts, hdicts, -⟩, -⟩ := h
  obtain ⟨kd, -, hkd⟩ := exists_mem_of_mapM hdicts hdep
  obtain ⟨d, hd, -⟩ := map_eq_ok_iff.1 hkd
  obtain ⟨ranges, hranges, hd⟩ := bind_eq_ok_iff.1 hd
  exact ⟨ranges, d, hranges, hd⟩

/-- **The plan of a feature**: every range lies in one range of every dependency, and its blocks
have some of the dependency's blocks there. -/
theorem rangePlan_spec (hdeps : KeysAgree deps) (h : rangePlan input grouping deps = .ok plan) :
    (plan.map Prod.fst).Nodup ∧ ∀ p ∈ plan, ∃ blocks, RangeOverlap deps (p.1, blocks) ∧
      (p.2.map Prod.fst).Pairwise (fun I I' => I.lower ≤ I'.lower) ∧
        ∀ q ∈ p.2, GroupOverlap (deps.map Prod.fst) blocks q := by
  rw [rangePlan, bind_eq_ok_iff] at h
  obtain ⟨overlaps, hoverlaps, hplan⟩ := h
  obtain ⟨hnodup, hspec⟩ := rangeOverlaps_spec hdeps hoverlaps
  have hkeys : overlaps.map Prod.fst = plan.map Prod.fst := by
    refine map_eq_map_of_forall₂ ((mapM_eq_ok_iff.1 hplan).imp fun {p₀ p} hp => ?_)
    obtain ⟨g, -, rfl⟩ := map_eq_ok_iff.1 hp
    rfl
  refine ⟨hkeys ▸ hnodup, fun p hp => ?_⟩
  obtain ⟨⟨J, blocks⟩, hp₀, hpg⟩ := exists_of_mem_mapM hplan hp
  obtain ⟨g, hg, rfl⟩ := map_eq_ok_iff.1 hpg
  exact ⟨blocks, hspec _ hp₀, groupOverlaps_spec hg⟩

theorem interval_intervalToMeta {I : ClosedInterval ℚ} (hlow : IsMs I.lower) (hup : IsMs I.upper) :
    (intervalToMeta I).interval = I := by
  rw [BlockMeta.interval, intervalToMeta, hlow.roundFloat_eq, hup.roundFloat_eq]

theorem tableOk_planTable (hdeps : KeysAgree deps) (h : rangePlan input grouping deps = .ok plan) :
    TableOk (planTable plan) := by
  obtain ⟨hkeys, hspec⟩ := rangePlan_spec hdeps h
  refine ⟨by rwa [planTable, List.map_map], fun row hrow => ?_⟩
  obtain ⟨p, hp, rfl⟩ := List.mem_map.1 hrow
  obtain ⟨blocks, -, hsorted, hgroups⟩ := hspec p hp
  have hinterval : ∀ q ∈ p.2, (intervalToMeta q.1).interval = q.1 := fun q hq =>
    interval_intervalToMeta (hgroups q hq).ms.1 (hgroups q hq).ms.2
  refine ⟨List.forall_mem_map.2 fun q hq => ?_, List.pairwise_map.2 ?_⟩
  · rw [hinterval q hq]
    exact (hgroups q hq).le
  · refine (List.pairwise_map.1 hsorted).imp_of_mem fun {q q'} hq hq' hle => ?_
    rwa [hinterval q hq, hinterval q' hq']

end Plan

end Svoe
