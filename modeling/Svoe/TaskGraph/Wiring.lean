import Svoe.TaskGraph.FiledTable

/-!
# When the task graph of a feature can be built

The nodes of a feature are filed under the intervals of its own ranges, but looked up under the
overlaps of the ranges of all dependencies.  So every overlap that gets nodes has to be the interval
of a range of every dependency (`Wired`).  A derived feature that occurs twice in a tree records its
ranges twice, which overlap then, so it may occur once only.

* `Visited` : what holds of the graph when some features of a tree have been visited.
* `Visited.run_iff` : when the rest of the features can be visited.
* `completes_iff_treeWired` : when the graph of a tree can be built.
-/

namespace Svoe

open Portion

variable {κ ρ : Type}

/-! ### The condition -/

/-- What the features of a tree are like: there is one feature for each key, data sources are leaves,
and their ranges are known, and in the order of their disjoint hulls. -/
structure FeaturesOk (input : BuilderInput κ) (features : List (FeatureTree κ)) : Prop where
  keys : ∀ n ∈ features, ∀ n' ∈ features, n.value.key = n'.value.key → n = n'
  children : ∀ n ∈ features, ∀ c ∈ n.children, c ∈ features
  leaves : ∀ n ∈ features, n.value.isDataSource = true → n.children = []
  sources : ∀ n ∈ features, ∀ isSynthetic, n.value.definition = .dataSource isSynthetic →
    ∃ ranges, input.dataRangesMeta n.value.key = some ranges ∧ RangeSeq ranges

/-- The range around an overlap was filed under the overlap. -/
def FiledUnder (rows : RangeTable) (J : ClosedInterval ℚ) : Prop :=
  ∃ r, (J, r) ∈ rows ∧ ∀ t ∈ J, t ∈ rangeHull r

variable [DecidableEq κ]

/-- What the nodes of a range need: if there are any, the range is one of every dependency, and no
two stored blocks are almost the same as one of its blocks. -/
structure RangeWired (input : BuilderInput κ) (n : FeatureTree κ)
    (p : ClosedInterval ℚ × List (ClosedInterval ℚ × List (κ × List BlockMeta))) : Prop where
  filed : p.2 ≠ [] → ∀ c ∈ n.children, ∃ rows, featureTable input c = .ok rows ∧ FiledUnder rows p.1
  stored : ∀ q ∈ p.2, ∀ stored, input.storedFeatureBlocksMeta n.value.key = some stored →
    ∃ path, storedPath stored q.1 = .ok path

/-- A derived feature has ranges, the first of them has blocks, and all of them what they need. -/
def Wired (input : BuilderInput κ) (n : FeatureTree κ) (grouping : Grouping) : Prop :=
  ∃ plan, rangePlan input grouping (depTables input n.children) = .ok plan ∧
    (∀ p ∈ plan.head?, p.2 ≠ []) ∧ ∀ p ∈ plan, RangeWired input n p

/-- How often a feature occurs. -/
def visits (l : List (FeatureTree κ)) (k : κ) : ℕ := (l.map fun n => n.value.key).count k

/-- Every derived feature of a tree occurs once, and has the ranges it needs. -/
def TreeWired (input : BuilderInput κ) (t : FeatureTree κ) : Prop :=
  ∀ n ∈ t.postorder, ∀ grouping, n.value.definition = .derived grouping →
    visits t.postorder n.value.key = 1 ∧ Wired input n grouping

/-! ### Tables of the features -/

section Tables

variable {input : BuilderInput κ} {features : List (FeatureTree κ)} {n : FeatureTree κ}
  {rows : RangeTable}

theorem FeaturesOk.keysAgree (h : FeaturesOk input features) (hn : n ∈ features) :
    KeysAgree (depTables input n.children) := by
  rw [depTables_eq]
  intro p hp q hq hkey
  obtain ⟨c, hc, rfl⟩ := List.mem_map.1 hp
  obtain ⟨c', hc', rfl⟩ := List.mem_map.1 hq
  rw [h.keys c (h.children n hn c hc) c' (h.children n hn c' hc') hkey]

theorem FeaturesOk.tableOk (h : FeaturesOk input features) (hn : n ∈ features)
    (hrows : featureTable input n = .ok rows) : TableOk rows := by
  cases hdef : n.value.definition with
  | dataSource isSynthetic =>
    obtain ⟨ranges, hranges, hseq⟩ := h.sources n hn isSynthetic hdef
    rw [featureTable_of_dataSource hdef, sourceTable_eq hranges hseq] at hrows
    exact Except.ok.inj hrows ▸ hseq.tableOk
  | derived grouping =>
    rw [featureTable_of_derived hdef] at hrows
    obtain ⟨plan, hplan, rfl⟩ := map_eq_ok_iff.1 hrows
    exact tableOk_planTable (h.keysAgree hn) hplan

omit [DecidableEq κ] in
/-- A child of a feature has another key. -/
theorem FeaturesOk.key_ne (h : FeaturesOk input features) (hn : n ∈ features) {c : FeatureTree κ}
    (hc : c ∈ n.children) : c.value.key ≠ n.value.key := by
  intro hkey
  rw [h.keys c (h.children n hn c hc) n hn hkey] at hc
  exact n.not_mem_children_self hc

end Tables

/-! ### What has been visited -/

/-- What is recorded for a derived feature that has been visited `count` times. -/
def recorded (rows : RangeTable) (count : ℕ) : List (List BlockMeta) :=
  (List.replicate count (rows.map Prod.snd)).flatten

/-- The graph when the features `old`, of other trees, and `l` have been visited. -/
structure Visited (input : BuilderInput κ) (features old l : List (FeatureTree κ))
    (s : GraphState κ ρ) : Prop where
  inv : s.Inv
  table : ∀ n ∈ old ++ l, ∃ rows, featureTable input n = .ok rows ∧
    ∀ J I, s.dag.lookup n.value.key J I ≠ none ↔ ∃ r, (J, r) ∈ rows ∧ ∃ m ∈ r, m.interval = I
  wired : ∀ n ∈ old ++ l, ∀ grouping, n.value.definition = .derived grouping →
    Wired input n grouping
  absent : ∀ k, (∀ n ∈ old ++ l, n.value.key ≠ k) → dictGet s.dag k = none
  ranges : ∀ n ∈ features, ∀ grouping, n.value.definition = .derived grouping →
    ∀ rows, featureTable input n = .ok rows → dictGet s.rangesMeta n.value.key =
      if recorded rows (visits l n.value.key) = [] then none
      else some (recorded rows (visits l n.value.key))

/-- What a visit needs: the ranges of the feature are as they should be, and every derived
dependency has been visited once. -/
def Visitable (input : BuilderInput κ) (l : List (FeatureTree κ)) (n : FeatureTree κ) : Prop :=
  ∀ grouping, n.value.definition = .derived grouping → Wired input n grouping ∧
    ∀ c ∈ n.children, ∀ g, c.value.definition = .derived g → visits l c.value.key = 1

omit [DecidableEq κ] in
@[simp] theorem recorded_one (rows : RangeTable) : recorded rows 1 = rows.map Prod.snd := by
  simp [recorded]

omit [DecidableEq κ] in
theorem recorded_succ (rows : RangeTable) (count : ℕ) :
    recorded rows (count + 1) = recorded rows count ++ rows.map Prod.snd := by
  simp [recorded, List.replicate_succ']

omit [DecidableEq κ] in
/-- One more visit records the ranges once more, unless there are none. -/
theorem recorded_visit {rows : RangeTable} {count : ℕ} {ranges : Option (List (List BlockMeta))}
    (h : ranges = if recorded rows count = [] then none else some (recorded rows count)) :
    (if rows ≠ [] then some (ranges.getD [] ++ rows.map Prod.snd) else ranges) =
      if recorded rows (count + 1) = [] then none else some (recorded rows (count + 1)) := by
  have hbefore : ranges.getD [] = recorded rows count := by
    rw [h]
    split_ifs with hnil
    · exact hnil.symm
    · rfl
  rw [hbefore, recorded_succ]
  by_cases hnil : rows = []
  · subst hnil
    rw [if_neg (not_not.2 rfl), h, List.map_nil, List.append_nil]
  · rw [if_pos hnil, if_neg fun happend => hnil ?_]
    exact List.map_eq_nil_iff.1 (List.append_eq_nil_iff.1 happend).2

/-- Ranges that are recorded twice overlap. -/
theorem count_eq_one_of_recorded {rows : RangeTable} {count : ℕ}
    {d : IntervalDict (Cut ℚ) (List BlockMeta)} (hne : recorded rows count ≠ [])
    (h : rangesToIntervalDict (recorded rows count) = .ok d) : count = 1 := by
  have hfiled := rangesToIntervalDict_spec h
  match count with
  | 0 => exact absurd rfl hne
  | 1 => rfl
  | count + 2 =>
    exfalso
    have hrows : rows.map Prod.snd ≠ [] := fun hnil => hne (by simp [recorded, hnil])
    obtain ⟨r, hr⟩ := List.exists_mem_of_ne_nil _ hrows
    have hsplit : recorded rows (count + 2) = rows.map Prod.snd ++ recorded rows (count + 1) := rfl
    have hr' : r ∈ recorded rows (count + 1) :=
      List.mem_append_left (recorded rows count) hr
    have hle := (hfiled.nonempty r (hsplit ▸ List.mem_append_left _ hr)).2
    have hapart := hsplit ▸ hfiled.apart
    exact (List.pairwise_append.1 hapart).2.2 r hr r hr' _ ⟨le_rfl, hle⟩ ⟨le_rfl, hle⟩

theorem visits_append (l l' : List (FeatureTree κ)) (k : κ) :
    visits (l ++ l') k = visits l k + visits l' k := by
  rw [visits, List.map_append, List.count_append, visits, visits]

theorem visits_singleton (n : FeatureTree κ) (k : κ) :
    visits [n] k = if n.value.key = k then 1 else 0 := by
  simp [visits, List.count_singleton]

theorem visits_cons_self (n : FeatureTree κ) (l : List (FeatureTree κ)) :
    visits (n :: l) n.value.key = visits l n.value.key + 1 := by
  rw [visits, List.map_cons, List.count_cons_self, visits]

theorem visits_pos_iff {l : List (FeatureTree κ)} {k : κ} :
    0 < visits l k ↔ ∃ n ∈ l, n.value.key = k := by
  rw [visits, List.count_pos_iff, List.mem_map]

theorem visits_eq_zero {l : List (FeatureTree κ)} {k : κ} (h : ∀ n ∈ l, n.value.key ≠ k) :
    visits l k = 0 := by
  refine Nat.eq_zero_of_not_pos fun hpos => ?_
  obtain ⟨n, hn, hkey⟩ := visits_pos_iff.1 hpos
  exact h n hn hkey

namespace Visited

variable {input : BuilderInput κ} {features old l : List (FeatureTree κ)} {n : FeatureTree κ}
  {s s' : GraphState κ ρ} {grouping : Grouping}

/-! ### The ranges of the dependencies -/

/-- The ranges of a dependency that has been visited once are those of its table. -/
theorem depRanges_eq (hv : Visited input features old l s) (h : FeaturesOk input features)
    {c : FeatureTree κ} (hc : c ∈ l) (hcf : c ∈ features)
    (honce : ∀ g, c.value.definition = .derived g → visits l c.value.key = 1) :
    depRanges input s.rangesMeta c.value = tableRanges c.value (featureTable input c) := by
  cases hdef : c.value.definition with
  | dataSource isSynthetic =>
    obtain ⟨ranges, hranges, hseq⟩ := h.sources c hcf isSynthetic hdef
    have hsource : c.value.isDataSource = true := by rw [FeatureNode.isDataSource, hdef]
    rw [featureTable_of_dataSource hdef, sourceTable_eq hranges hseq, depRanges, hsource,
      if_pos rfl, hranges]
    simp [tableRanges, hsource, Function.comp_def]
  | derived g =>
    obtain ⟨rows, hrows, -⟩ := hv.table c (List.mem_append_right old hc)
    have hderived : c.value.isDataSource = false := by rw [FeatureNode.isDataSource, hdef]
    rw [depRanges, hderived, if_neg Bool.false_ne_true, hv.ranges c hcf g hdef rows hrows,
      honce g hdef, recorded_one, hrows]
    cases rows <;> simp [tableRanges, hderived]

/-- Ranges of a derived dependency that can be filed have been recorded once. -/
theorem visits_eq_one (hv : Visited input features old l s) {c : FeatureTree κ} (hc : c ∈ l)
    (hcf : c ∈ features) (hdef : c.value.definition = .derived grouping)
    {ranges : List (List BlockMeta)} {d : IntervalDict (Cut ℚ) (List BlockMeta)}
    (hranges : depRanges input s.rangesMeta c.value = .ok ranges)
    (hd : rangesToIntervalDict ranges = .ok d) : visits l c.value.key = 1 := by
  obtain ⟨rows, hrows, -⟩ := hv.table c (List.mem_append_right old hc)
  have hderived : c.value.isDataSource = false := by rw [FeatureNode.isDataSource, hdef]
  rw [depRanges, hderived, if_neg Bool.false_ne_true, hv.ranges c hcf grouping hdef rows hrows]
    at hranges
  split_ifs at hranges with hne
  obtain rfl := Except.ok.inj hranges
  exact count_eq_one_of_recorded hne hd

/-- **A visit of a derived feature**: its dependencies have been visited once, and the plan for its
ranges can be filed. -/
theorem derived_iff (hv : Visited input features old l s) (h : FeaturesOk input features)
    (hn : n ∈ features) (hchildren : ∀ c ∈ n.children, c ∈ l)
    (hdef : n.value.definition = .derived grouping) :
    treeTraversalCallback input s n = .ok s' ↔
      (∀ c ∈ n.children, ∀ g, c.value.definition = .derived g → visits l c.value.key = 1) ∧
        ∃ plan, rangePlan input grouping (depTables input n.children) = .ok plan ∧
          plan.foldlM (fileBlocks input n.value.key) s = .ok s' := by
  have hdeps : (∀ c ∈ n.children, ∀ g, c.value.definition = .derived g →
      visits l c.value.key = 1) → ((n.children.map RoseTree.value).map fun dep =>
        (dep, depRanges input s.rangesMeta dep)) = depTables input n.children := by
    intro honce
    rw [depTables_eq, List.map_map]
    refine List.map_congr_left fun c hc => ?_
    rw [Function.comp_apply,
      hv.depRanges_eq h (hchildren c hc) (h.children n hn c hc) (honce c hc)]
  have hplan : treeTraversalCallback input s n = .ok s' ↔
      ∃ plan, rangePlan input grouping ((n.children.map RoseTree.value).map fun dep =>
        (dep, depRanges input s.rangesMeta dep)) = .ok plan ∧
          plan.foldlM (fileBlocks input n.value.key) s = .ok s' := by
    have hfst : ((n.children.map RoseTree.value).map fun dep =>
        (dep, depRanges input s.rangesMeta dep)).map Prod.fst = n.children.map RoseTree.value := by
      rw [List.map_map]
      exact List.map_id _
    rw [treeTraversalCallback, hdef]
    simp only [rangePlan, bind_eq_ok_iff, hfst]
    constructor
    · rintro ⟨overlaps, hoverlaps, hs'⟩
      obtain ⟨plan, hplan, hs'⟩ := foldlM_bind_eq_ok_iff.1 hs'
      exact ⟨plan, ⟨overlaps, hoverlaps, hplan⟩, hs'⟩
    · rintro ⟨plan, ⟨overlaps, hoverlaps, hplan⟩, hs'⟩
      exact ⟨overlaps, hoverlaps, foldlM_bind_eq_ok_iff.2 ⟨plan, hplan, hs'⟩⟩
  rw [hplan]
  constructor
  · rintro ⟨plan, hplan, hs'⟩
    have honce : ∀ c ∈ n.children, ∀ g, c.value.definition = .derived g →
        visits l c.value.key = 1 := by
      intro c hc g hg
      obtain ⟨ranges, d, hranges, hd⟩ := exists_rangesToIntervalDict_of_rangePlan hplan
        (List.mem_map_of_mem (List.mem_map_of_mem hc))
      exact hv.visits_eq_one (hchildren c hc) (h.children n hn c hc) hg hranges hd
    exact ⟨honce, plan, hdeps honce ▸ hplan, hs'⟩
  · rintro ⟨honce, plan, hplan, hs'⟩
    exact ⟨plan, hdeps honce ▸ hplan, hs'⟩

/-! ### The blocks of the dependencies -/

/-- **The blocks of a dependency** on an overlap are found under it if the range around it was
filed under it. -/
theorem lookup_iff (hv : Visited input features old l s) (h : FeaturesOk input features)
    (hn : n ∈ features) {J : ClosedInterval ℚ} {blocks : List (κ × List BlockMeta)}
    (hJ : RangeOverlap (depTables input n.children) (J, blocks)) {c : FeatureTree κ}
    (hc : c ∈ n.children) (hcl : c ∈ l) :
    ∃ rows bs, featureTable input c = .ok rows ∧ dictGet blocks c.value.key = some bs ∧
      ∀ m ∈ bs, metaToInterval m = .ok m.interval ∧
        (s.dag.lookup c.value.key J m.interval ≠ none ↔ FiledUnder rows J) := by
  obtain ⟨rows, hrows, htable⟩ := hv.table c (List.mem_append_right old hcl)
  have hdep : (c.value, tableRanges c.value (featureTable input c)) ∈
      depTables input n.children := by
    rw [depTables_eq]
    exact List.mem_map_of_mem hc
  obtain ⟨ranges, d, r, bs, hranges, hd, hr, hsub, hbs, hbsr⟩ := hJ.blocks _ hdep
  have hok := h.tableOk (h.children n hn c hc) hrows
  obtain rfl : rows.map Prod.snd = ranges := by
    rw [hrows, tableRanges] at hranges
    split_ifs at hranges
    exact Except.ok.inj hranges
  have hfiled := rangesToIntervalDict_spec hd
  have hsorted : ∀ r ∈ rows.map Prod.snd, StartsSorted r := List.forall_mem_map.2 hok.sorted
  refine ⟨rows, bs, hrows, hbs, fun m hm => ⟨?_, ?_⟩⟩
  · exact metaToInterval_of_interval_le ((hsorted r hr).le m (hbsr hm))
  rw [htable]
  constructor
  · -- a block with the same start lies in the same range
    rintro ⟨r', hr', m', hm', heq⟩
    have hr'' : r' ∈ rows.map Prod.snd := List.mem_map_of_mem hr'
    have hmem := (hsorted r' hr'').lower_mem_rangeHull hm'
    rw [heq] at hmem
    obtain rfl := hfiled.eq_of_mem hr'' hr hmem ((hsorted r hr).lower_mem_rangeHull (hbsr hm))
    exact ⟨r', hr', hsub⟩
  · rintro ⟨r', hr', hsub'⟩
    have hlow : J.lower ∈ J := ⟨le_rfl, hJ.le⟩
    obtain rfl := hfiled.eq_of_mem hr (List.mem_map_of_mem hr') (hsub _ hlow) (hsub' _ hlow)
    exact ⟨r, hr', m, hbsr hm, rfl⟩

/-- **The blocks of a planned range** have what they need if the range is one of every
dependency. -/
theorem blockOk_iff (hv : Visited input features old l s) (h : FeaturesOk input features)
    (hn : n ∈ features) (hchildren : ∀ c ∈ n.children, c ∈ l) {plan : RangePlan κ}
    (hplan : rangePlan input grouping (depTables input n.children) = .ok plan)
    {p : ClosedInterval ℚ × List (ClosedInterval ℚ × List (κ × List BlockMeta))} (hp : p ∈ plan) :
    (∀ q ∈ p.2, BlockOk input n.value.key s.dag p.1 q) ↔ RangeWired input n p := by
  obtain ⟨blocks, hJ, -, hgroups⟩ := (rangePlan_spec (h.keysAgree hn) hplan).2 p hp
  rw [map_fst_depTables] at hgroups
  have hchild := fun c (hc : c ∈ n.children) =>
    hv.lookup_iff h hn hJ hc (hchildren c hc)
  constructor
  · refine fun hblocks => ⟨fun hne c hc => ?_, fun q hq => (hblocks q hq).2⟩
    obtain ⟨rows, bs, hrows, hbs, hlookup⟩ := hchild c hc
    obtain ⟨q, hq⟩ := List.exists_mem_of_ne_nil p.2 hne
    obtain ⟨kv, hkv⟩ := (hgroups q hq).all c.value (List.mem_map_of_mem hc)
    obtain ⟨hkvne, bs', hbs', hsub⟩ := (hgroups q hq).blocks _ hkv
    obtain rfl : bs = bs' := Option.some.inj (hbs.symm.trans hbs')
    obtain ⟨m, hm⟩ := List.exists_mem_of_ne_nil kv hkvne
    obtain ⟨hinterval, hiff⟩ := hlookup m (hsub hm)
    obtain ⟨I, hI, hnode⟩ := (hblocks q hq).1 _ hkv m hm
    obtain rfl := Except.ok.inj (hinterval.symm.trans hI)
    exact ⟨rows, hrows, hiff.1 hnode⟩
  · refine fun hwired q hq => ⟨fun kv hkv m hm => ?_, hwired.stored q hq⟩
    obtain ⟨dep, hdep, hkey⟩ := (hgroups q hq).dep kv hkv
    obtain ⟨c, hc, rfl⟩ := List.mem_map.1 hdep
    obtain ⟨rows, bs, hrows, hbs, hlookup⟩ := hchild c hc
    obtain ⟨-, bs', hbs', hsub⟩ := (hgroups q hq).blocks kv hkv
    rw [hkey] at hbs' ⊢
    obtain rfl : bs = bs' := Option.some.inj (hbs.symm.trans hbs')
    obtain ⟨hinterval, hiff⟩ := hlookup m (hsub hm)
    obtain ⟨rows', hrows', hfiled⟩ := hwired.filed (List.ne_nil_of_mem hq) c hc
    obtain rfl := Except.ok.inj (hrows.symm.trans hrows')
    exact ⟨m.interval, hinterval, hiff.2 hfiled⟩

/-- The blocks of a plan are blocks of other features. -/
theorem key_ne_of_plan (h : FeaturesOk input features) (hn : n ∈ features) {plan : RangePlan κ}
    (hplan : rangePlan input grouping (depTables input n.children) = .ok plan) :
    ∀ p ∈ plan, ∀ q ∈ p.2, ∀ kv ∈ q.2, kv.1 ≠ n.value.key := by
  intro p hp q hq kv hkv
  obtain ⟨blocks, -, -, hgroups⟩ := (rangePlan_spec (h.keysAgree hn) hplan).2 p hp
  obtain ⟨dep, hdep, hkey⟩ := (hgroups q hq).dep kv hkv
  rw [map_fst_depTables] at hdep
  obtain ⟨c, hc, rfl⟩ := List.mem_map.1 hdep
  exact hkey ▸ h.key_ne hn hc

/-- **When a feature can be visited.** -/
theorem exists_visit_iff (hv : Visited input features old l s) (h : FeaturesOk input features)
    (hold : ∀ n ∈ old ++ l, n ∈ features) (hn : n ∈ features)
    (hchildren : ∀ c ∈ n.children, c ∈ l) :
    (∃ s', treeTraversalCallback input s n = .ok s') ↔ Visitable input l n := by
  cases hdef : n.value.definition with
  | dataSource isSynthetic =>
    obtain ⟨ranges, hranges, hseq⟩ := h.sources n hn isSynthetic hdef
    obtain ⟨s', hs', -⟩ := sourceRanges_spec n.value.key isSynthetic hseq hv.inv
    refine iff_of_true ⟨s', ?_⟩ fun g hg => by rw [hdef] at hg; cases hg
    rw [treeTraversalCallback, hdef]
    simp only [hranges]
    exact hs'
  | derived grouping =>
    have hfile : ∀ {plan}, rangePlan input grouping (depTables input n.children) = .ok plan →
        ((∃ s', plan.foldlM (fileBlocks input n.value.key) s = .ok s') ↔
          (∀ p ∈ plan.head?, p.2 ≠ []) ∧ ∀ p ∈ plan, RangeWired input n p) := by
      intro plan hplan
      rw [exists_filePlan_iff hv.inv (key_ne_of_plan h hn hplan), and_comm]
      refine and_congr ⟨fun hhead => ?_, fun hhead _ => hhead⟩
        (forall₂_congr fun p hp => hv.blockOk_iff h hn hchildren hplan hp)
      -- a feature that is in the graph has been visited, and was wired then
      by_cases hvisited : ∃ n' ∈ old ++ l, n'.value.key = n.value.key
      · obtain ⟨n', hn', hkey⟩ := hvisited
        obtain rfl := h.keys n' (hold n' hn') n hn hkey
        obtain ⟨plan', hplan', hhead', -⟩ := hv.wired n' hn' grouping hdef
        obtain rfl := Except.ok.inj (hplan.symm.trans hplan')
        exact hhead'
      · exact hhead (hv.absent _ fun n' hn' hkey => hvisited ⟨n', hn', hkey⟩)
    simp only [hv.derived_iff h hn hchildren hdef]
    constructor
    · rintro ⟨s', honce, plan, hplan, hs'⟩ g hg
      obtain rfl : grouping = g := DataDefinition.derived.inj (hdef.symm.trans hg)
      exact ⟨⟨plan, hplan, (hfile hplan).1 ⟨s', hs'⟩⟩, honce⟩
    · intro hvisit
      obtain ⟨⟨plan, hplan, hwired⟩, honce⟩ := hvisit grouping hdef
      obtain ⟨s', hs'⟩ := (hfile hplan).2 hwired
      exact ⟨s', honce, plan, hplan, hs'⟩

/-! ### One visit -/

/-- What the nodes of the feature's table do to the invariant, the recorded ranges apart. -/
theorem table_visit (hv : Visited input features old l s) (h : FeaturesOk input features)
    (hold : ∀ n ∈ old ++ l, n ∈ features) (hn : n ∈ features) {rows : RangeTable}
    (hrows : featureTable input n = .ok rows)
    (hfiled : TableFiled n.value.key rows.intervals s s') {n' : FeatureTree κ}
    (hn' : n' ∈ old ++ (l ++ [n])) : ∃ rows, featureTable input n' = .ok rows ∧
      ∀ J I, s'.dag.lookup n'.value.key J I ≠ none ↔
        ∃ r, (J, r) ∈ rows ∧ ∃ m ∈ r, m.interval = I := by
  rw [← List.append_assoc, List.mem_append, List.mem_singleton] at hn'
  by_cases hkey : n.value.key = n'.value.key
  · obtain rfl : n = n' := h.keys n hn n' (hn'.elim (hold n') fun heq => heq ▸ hn) hkey
    refine ⟨rows, hrows, fun J I => ?_⟩
    rw [hfiled.lookup, RangeTable.keys_intervals, RangeTable.mem_intervals_iff]
    split_ifs with hJ
    · rfl
    -- nothing has been filed under another interval
    have hnot : ∀ r, (J, r) ∉ rows := fun r hr => hJ ⟨rfl, List.mem_map_of_mem hr⟩
    have hnorow : ¬ ∃ r, (J, r) ∈ rows ∧ ∃ m ∈ r, m.interval = I := by
      rintro ⟨r, hr, -⟩
      exact hnot r hr
    refine iff_of_false (fun hnode => ?_) hnorow
    by_cases hvisited : n ∈ old ++ l
    · obtain ⟨rows', hrows', htable⟩ := hv.table n hvisited
      obtain rfl := Except.ok.inj (hrows.symm.trans hrows')
      obtain ⟨r, hr, -⟩ := (htable J I).1 hnode
      exact hnot r hr
    · have habsent := hv.absent n.value.key fun n₁ hn₁ hk =>
        hvisited (h.keys n₁ (hold n₁ hn₁) n hn hk ▸ hn₁)
      rw [FeatureDag.lookup, habsent] at hnode
      exact hnode rfl
  · obtain ⟨rows', hrows', htable⟩ := hv.table n' (hn'.resolve_right fun heq => hkey (heq ▸ rfl))
    refine ⟨rows', hrows', fun J I => ?_⟩
    rw [← htable, hfiled.lookup, if_neg fun hk => hkey hk.1]

theorem absent_visit (hv : Visited input features old l s) {rows : TableKeys}
    (hfiled : TableFiled n.value.key rows s s') {k : κ}
    (hk : ∀ n' ∈ old ++ (l ++ [n]), n'.value.key ≠ k) : dictGet s'.dag k = none := by
  rw [← List.append_assoc] at hk
  have hne : k ≠ n.value.key := (hk n (by simp)).symm
  refine not_not.1 fun hnode => (hfiled.keys k hne).1 hnode ?_
  exact hv.absent k fun n' hn' => hk n' (List.mem_append_left _ hn')

/-- Another feature's visit does not change how often a feature has been visited. -/
theorem visits_visit {n' : FeatureTree κ} (hkey : n.value.key ≠ n'.value.key) :
    visits (l ++ [n]) n'.value.key = visits l n'.value.key := by
  rw [visits_append, visits_singleton, if_neg hkey, Nat.add_zero]

/-- **A visit keeps the invariant.** -/
theorem visit (hv : Visited input features old l s) (h : FeaturesOk input features)
    (hold : ∀ n ∈ old ++ l, n ∈ features) (hn : n ∈ features)
    (hchildren : ∀ c ∈ n.children, c ∈ l) (hs' : treeTraversalCallback input s n = .ok s') :
    Visited input features old (l ++ [n]) s' := by
  have hvisit := (hv.exists_visit_iff h hold hn hchildren).1 ⟨s', hs'⟩
  have hwired : ∀ n' ∈ old ++ (l ++ [n]), ∀ g, n'.value.definition = .derived g →
      Wired input n' g := by
    intro n' hn' g hg
    rw [← List.append_assoc, List.mem_append, List.mem_singleton] at hn'
    rcases hn' with hn' | rfl
    · exact hv.wired n' hn' g hg
    · exact (hvisit g hg).1
  cases hdef : n.value.definition with
  | dataSource isSynthetic =>
    obtain ⟨ranges, hranges, hseq⟩ := h.sources n hn isSynthetic hdef
    obtain ⟨s₁, hs₁, hfiled, hmeta⟩ :=
      sourceRanges_spec n.value.key isSynthetic hseq hv.inv
    rw [treeTraversalCallback, hdef] at hs'
    simp only [hranges] at hs'
    obtain rfl := Except.ok.inj (hs₁.symm.trans hs')
    have hrows : featureTable input n = .ok (ranges.map fun r => (rangeHull r, r)) :=
      (featureTable_of_dataSource hdef).trans (sourceTable_eq hranges hseq)
    refine ⟨hfiled.inv, fun n' hn' => hv.table_visit h hold hn hrows hfiled hn', hwired,
      fun k hk => hv.absent_visit hfiled hk, fun n' hn' g hg rows hrows' => ?_⟩
    have hkey : n.value.key ≠ n'.value.key := by
      intro hk
      rw [h.keys n hn n' hn' hk, hg] at hdef
      cases hdef
    rw [hmeta, visits_visit hkey]
    exact hv.ranges n' hn' g hg rows hrows'
  | derived grouping =>
    obtain ⟨-, plan, hplan, hs'⟩ := (hv.derived_iff h hn hchildren hdef).1 hs'
    have hspec := rangePlan_spec (h.keysAgree hn) hplan
    have hfiled := filePlan_spec hspec.1 hv.inv hs'
    rw [← intervals_planTable fun p hp q hq => by
      obtain ⟨blocks, -, -, hgroups⟩ := hspec.2 p hp
      exact (hgroups q hq).ms] at hfiled
    have hrows : featureTable input n = .ok (planTable plan) := by
      rw [featureTable_of_derived hdef, hplan]
      rfl
    refine ⟨hfiled.inv, fun n' hn' => hv.table_visit h hold hn hrows hfiled hn', hwired,
      fun k hk => hv.absent_visit hfiled hk, fun n' hn' g hg rows hrows' => ?_⟩
    rw [rangesMeta_filePlan hv.inv hs']
    by_cases hkey : n.value.key = n'.value.key
    · obtain rfl := h.keys n hn n' hn' hkey
      obtain rfl := Except.ok.inj (hrows.symm.trans hrows')
      have hcount : visits (l ++ [n]) n.value.key = visits l n.value.key + 1 := by
        rw [visits_append, visits_singleton, if_pos rfl]
      have hne : n.value.key = n.value.key ∧ plan ≠ [] ↔ planTable plan ≠ [] := by
        simp [planTable]
      rw [hcount, ← recorded_visit (hv.ranges n hn g hg _ hrows)]
      exact if_congr hne rfl rfl
    · rw [if_neg fun hk => hkey hk.1, visits_visit hkey]
      exact hv.ranges n' hn' g hg rows hrows'

/-! ### All visits -/

theorem empty (input : BuilderInput κ) (features : List (FeatureTree κ)) :
    Visited input features [] [] ({} : GraphState κ ρ) where
  inv := sound_empty.toInv
  table n hn := by cases hn
  wired n hn := by cases hn
  absent _ _ := rfl
  ranges _ _ _ _ _ _ := rfl

/-- **The features of a postorder can be visited** if every visit has what it needs. -/
theorem run_iff (h : FeaturesOk input features) {t : FeatureTree κ}
    (ht : ∀ n ∈ t.postorder, n ∈ features) (hold : ∀ n ∈ old, n ∈ features)
    {l l' : List (FeatureTree κ)} (hl : t.postorder = l ++ l')
    (hv : Visited input features old l s) :
    (∃ s', l'.foldlM (treeTraversalCallback input) s = .ok s') ↔
      ∀ l₁ n l₂, l' = l₁ ++ n :: l₂ → Visitable input (l ++ l₁) n := by
  induction l' generalizing l s with
  | nil => exact iff_of_true ⟨s, rfl⟩ fun l₁ n l₂ hnil => by simp at hnil
  | cons n l' ih =>
    have hmem : ∀ n' ∈ old ++ l, n' ∈ features := fun n' hn' =>
      (List.mem_append.1 hn').elim (hold n') fun hn' => ht n' (by simp [hl, hn'])
    have hn : n ∈ features := ht n (by simp [hl])
    have hchildren : ∀ c ∈ n.children, c ∈ l := fun c hc =>
      RoseTree.children_mem_of_postorder_eq hl hc
    have hvisit := hv.exists_visit_iff h hmem hn hchildren
    have hl' : t.postorder = (l ++ [n]) ++ l' := by
      rw [hl, List.append_assoc, List.singleton_append]
    rw [List.foldlM_cons]
    simp only [bind_eq_ok_iff]
    constructor
    · rintro ⟨s', s₁, hs₁, hs'⟩ l₁ n₁ l₂ hsplit
      rcases List.cons_eq_append_iff.1 hsplit with ⟨rfl, hcons⟩ | ⟨l₁, rfl, hcons⟩
      · obtain ⟨rfl, rfl⟩ := List.cons.inj hcons
        rw [List.append_nil]
        exact hvisit.1 ⟨s₁, hs₁⟩
      · have hrest := (ih hl' (hv.visit h hmem hn hchildren hs₁)).1 ⟨s', hs'⟩ l₁ n₁ l₂ hcons
        rwa [List.append_assoc] at hrest
    · intro hall
      have hfirst := hall [] n l' rfl
      rw [List.append_nil] at hfirst
      obtain ⟨s₁, hs₁⟩ := hvisit.2 hfirst
      obtain ⟨s', hs'⟩ := (ih hl' (hv.visit h hmem hn hchildren hs₁)).2 fun l₁ n₁ l₂ hsplit => by
        rw [List.append_assoc]
        exact hall (n :: l₁) n₁ l₂ (by rw [hsplit, List.cons_append])
      exact ⟨s', s₁, hs₁, hs'⟩

end Visited

/-! ### The graph of a tree -/

/-- **Every visit has what it needs** if every derived feature occurs once and is wired. -/
theorem treeWired_iff {input : BuilderInput κ} {features : List (FeatureTree κ)}
    (h : FeaturesOk input features) {t : FeatureTree κ} (ht : ∀ n ∈ t.postorder, n ∈ features) :
    TreeWired input t ↔
      ∀ l n l', t.postorder = l ++ n :: l' → Visitable input l n := by
  constructor
  · intro hwired l n l' hl grouping hdef
    refine ⟨(hwired n (by simp [hl]) grouping hdef).2, fun c hc g hg => ?_⟩
    have hcl := RoseTree.children_mem_of_postorder_eq hl hc
    have hone := (hwired c (by simp [hl, hcl]) g hg).1
    have hpos : 0 < visits l c.value.key := visits_pos_iff.2 ⟨c, hcl, rfl⟩
    rw [hl, visits_append] at hone
    omega
  · intro hall n hn grouping hdef
    obtain ⟨l₀, l₀', hl₀⟩ := List.append_of_mem hn
    refine ⟨?_, (hall l₀ n l₀' hl₀ grouping hdef).1⟩
    -- the last occurrence of the feature: a later feature depends on it, or it is the last one
    obtain ⟨l, l', hl, hlast⟩ : ∃ l l', t.postorder = l ++ n :: l' ∧ n ∉ l' := by
      obtain ⟨r, r', hr, hnot⟩ := List.eq_append_cons_of_mem (List.mem_reverse.2 hn)
      exact ⟨r'.reverse, r.reverse, by simpa using congrArg List.reverse hr, by simpa using hnot⟩
    have hkeys : ∀ n' ∈ t.postorder, n'.value.key = n.value.key → n' = n := fun n' hn' =>
      h.keys n' (ht n' hn') n (ht n hn)
    have hbehind : visits l' n.value.key = 0 := visits_eq_zero fun n' hn' hkey =>
      hlast (hkeys n' (by simp [hl, hn']) hkey ▸ hn')
    by_cases hnil : l' = []
    · subst hnil
      rw [RoseTree.postorder_eq] at hl
      obtain ⟨hbelow, hnt⟩ := List.append_inj' hl rfl
      obtain rfl := (List.cons.inj hnt).1
      have hbefore : visits l t.value.key = 0 := visits_eq_zero fun n' hn' hkey => by
        rw [← hbelow] at hn'
        have hmem : n' ∈ t.postorder := by
          rw [RoseTree.postorder_eq]
          exact List.mem_append_left _ hn'
        have hlt := RoseTree.sizeOf_lt_of_mem_postorderAll hn'
        rw [hkeys n' hmem hkey] at hlt
        exact Nat.lt_irrefl _ hlt
      rw [RoseTree.postorder_eq, hbelow, visits_append, hbefore, visits_singleton, if_pos rfl]
    · obtain ⟨p, hp, hpn⟩ := RoseTree.exists_parent_of_postorder_eq hl hnil
      obtain ⟨a, b, rfl⟩ := List.append_of_mem hp
      have hsplit : t.postorder = (l ++ n :: a) ++ p :: b := by rw [hl]; simp
      have hparent : ∃ g, p.value.definition = .derived g := by
        cases hg : p.value.definition with
        | derived g => exact ⟨g, rfl⟩
        | dataSource isSynthetic =>
          have hleaf := h.leaves p (ht p (by simp [hsplit])) (by rw [FeatureNode.isDataSource, hg])
          rw [hleaf] at hpn
          cases hpn
      obtain ⟨g, hg⟩ := hparent
      have hone := (hall _ p b hsplit g hg).2 n hpn grouping hdef
      rw [visits_append] at hone hbehind
      rw [visits_cons_self] at hone
      rw [hl, visits_append, visits_cons_self, visits_append]
      omega

/-- **The graph of a tree** can be built, and every lookup of a dependency's node hits a node that
has been bound for the block before, if and only if the tree is wired. -/
theorem completes_iff_treeWired {input : BuilderInput κ} {t : FeatureTree κ}
    (h : FeaturesOk input t.postorder) :
    (∃ s : GraphState κ ρ, buildFeatureTaskGraph input {} t = .ok s ∧
        ∀ l ∈ s.lookups, l.Hit s.contexts) ↔ TreeWired input t := by
  rw [treeWired_iff h fun _ hn => hn]
  have hrun := Visited.run_iff (s := ({} : GraphState κ ρ)) h (fun _ hn => hn)
    (fun _ hn => by cases hn) (List.nil_append t.postorder).symm (Visited.empty input t.postorder)
  simp only [List.nil_append] at hrun
  rw [← hrun]
  constructor
  · rintro ⟨s, hs, -⟩
    exact ⟨s, hs⟩
  · rintro ⟨s, hs⟩
    exact ⟨s, hs, (sound_buildFeatureTaskGraph sound_empty hs).hit⟩

/-! ### Two inputs -/

/-- A data source. -/
def sourceTree (key : String) : FeatureTree String := .node ⟨key, .dataSource false⟩ []

/-- A feature that has the same blocks as its dependencies. -/
def identityTree (deps : List String) : FeatureTree String :=
  .node ⟨"f", .derived .identity⟩ (deps.map sourceTree)

theorem postorder_identityTree (deps : List String) :
    (identityTree deps).postorder = deps.map sourceTree ++ [identityTree deps] := by
  rw [RoseTree.postorder_eq, RoseTree.postorderAll_eq]
  congr 1
  rw [show (identityTree deps).children = deps.map sourceTree from rfl, List.flatMap_map]
  exact (List.map_eq_flatMap ..).symm

theorem featuresOk_identityTree {input : BuilderInput String} {deps : List String}
    (hdeps : "f" ∉ deps)
    (hinput : ∀ k, ∃ ranges, input.dataRangesMeta k = some ranges ∧ RangeSeq ranges) :
    FeaturesOk input (identityTree deps).postorder := by
  have hmem : ∀ {n}, n ∈ (identityTree deps).postorder ↔
      (∃ k ∈ deps, n = sourceTree k) ∨ n = identityTree deps := fun {n} => by
    simp only [postorder_identityTree, List.mem_append, List.mem_map, List.mem_singleton,
      eq_comm (b := n)]
  refine ⟨fun n hn n' hn' hkey => ?_, fun n hn c hc => ?_, fun n hn hsource => ?_,
    fun n hn _ _ => hinput n.value.key⟩
  · rcases hmem.1 hn with ⟨k, hk, rfl⟩ | rfl <;> rcases hmem.1 hn' with ⟨k', hk', rfl⟩ | rfl
    · exact congrArg sourceTree hkey
    · exact absurd ((show k = "f" from hkey) ▸ hk) hdeps
    · exact absurd ((show "f" = k' from hkey) ▸ hk') hdeps
    · rfl
  · rcases hmem.1 hn with ⟨k, hk, rfl⟩ | rfl
    · cases hc
    · obtain ⟨k, hk, rfl⟩ := List.mem_map.1 hc
      exact hmem.2 (.inl ⟨k, hk, rfl⟩)
  · rcases hmem.1 hn with ⟨k, hk, rfl⟩ | rfl
    · rfl
    · cases hsource

/-- Every data source has a range of two blocks, and one of one block. -/
def twoRanges : BuilderInput String where
  dataRangesMeta key := some [[⟨0, 5, key⟩, ⟨6, 10, key⟩], [⟨20, 30, key⟩]]
  metaOf _ := .missing

theorem rangeHull_twoRanges (key : String) :
    rangeHull [⟨0, 5, key⟩, ⟨6, 10, key⟩] = ⟨0, 10⟩ ∧ rangeHull [⟨20, 30, key⟩] = ⟨20, 30⟩ := by
  change rangeHull [⟨0, 5, ""⟩, ⟨6, 10, ""⟩] = ⟨0, 10⟩ ∧ rangeHull [⟨20, 30, ""⟩] = ⟨20, 30⟩
  decide +kernel

theorem rangeSeq_twoRanges (key : String) :
    RangeSeq [[⟨0, 5, key⟩, ⟨6, 10, key⟩], [⟨20, 30, key⟩]] where
  nonempty := by simp
  sorted := by
    intro r hr
    rcases List.mem_pair.1 hr with rfl | rfl
    · exact ⟨by simp; norm_num, List.pairwise_pair.2 (by norm_num)⟩
    · exact ⟨by simp; norm_num, List.pairwise_singleton _ _⟩
  apart := by
    rw [List.pairwise_pair, (rangeHull_twoRanges key).1, (rangeHull_twoRanges key).2]
    norm_num

instance : DecidableEq (RangePlan String) :=
  have : DecidableEq (List (String × List BlockMeta)) := inferInstance
  have : DecidableEq (List (ClosedInterval ℚ × List (String × List BlockMeta))) := inferInstance
  inferInstanceAs (DecidableEq (List (ClosedInterval ℚ × _)))

/-- The overlaps of the ranges of `"x"` and `"y"`, with the groups of their blocks. -/
theorem rangePlan_twoRanges :
    rangePlan twoRanges .identity (depTables twoRanges (identityTree ["x", "y"]).children) =
      .ok [(⟨0, 10⟩, [(⟨0, 5⟩, [("x", [⟨0, 5, "x"⟩]), ("y", [⟨0, 5, "y"⟩])]),
          (⟨6, 10⟩, [("x", [⟨6, 10, "x"⟩]), ("y", [⟨6, 10, "y"⟩])])]),
        (⟨20, 30⟩, [(⟨20, 30⟩, [("x", [⟨20, 30, "x"⟩]), ("y", [⟨20, 30, "y"⟩])])])] := by
  decide +kernel

/-- The feature of two sources with the same ranges is wired. -/
theorem completes_identityTree_twoRanges : ∃ s : GraphState String Unit,
    buildFeatureTaskGraph twoRanges {} (identityTree ["x", "y"]) = .ok s ∧
      ∀ l ∈ s.lookups, l.Hit s.contexts := by
  refine (completes_iff_treeWired (featuresOk_identityTree (by decide) fun k =>
    ⟨_, rfl, rangeSeq_twoRanges k⟩)).2 ?_
  intro n hn grouping hdef
  have hn : n = sourceTree "x" ∨ n = sourceTree "y" ∨ n = identityTree ["x", "y"] := by
    simpa [postorder_identityTree] using hn
  rcases hn with rfl | rfl | rfl
  · cases hdef
  · cases hdef
  obtain rfl := DataDefinition.derived.inj hdef
  refine ⟨by decide +kernel, _, rangePlan_twoRanges, by simp, ?_⟩
  intro p hp
  refine ⟨fun _ c hc => ?_, fun q _ stored hstored => by cases hstored⟩
  obtain ⟨k, -, rfl⟩ := List.mem_map.1 hc
  obtain ⟨hfirst, hsecond⟩ := rangeHull_twoRanges k
  have htable : featureTable twoRanges (sourceTree k) =
      .ok [(⟨0, 10⟩, [⟨0, 5, k⟩, ⟨6, 10, k⟩]), (⟨20, 30⟩, [⟨20, 30, k⟩])] := by
    rw [featureTable_of_dataSource rfl, sourceTable_eq rfl (rangeSeq_twoRanges k), List.map_cons,
      List.map_singleton, hfirst, hsecond]
  -- the overlaps are the hulls of the source's ranges
  refine ⟨_, htable, ?_⟩
  rcases List.mem_pair.1 hp with rfl | rfl
  · exact ⟨_, List.mem_cons_self, fun t ht => hfirst ▸ ht⟩
  · exact ⟨_, List.mem_cons_of_mem _ List.mem_cons_self, fun t ht => hsecond ▸ ht⟩

/-- Every data source has one block from 0 on, that of `"y"` is the longer one. -/
def twoSources : BuilderInput String where
  dataRangesMeta key := some [[⟨0, if key = "y" then 20 else 10, key⟩]]
  metaOf _ := .missing

theorem rangeSeq_twoSources (key : String) :
    RangeSeq [[⟨0, if key = "y" then 20 else 10, key⟩]] where
  nonempty := by simp
  sorted := by
    simp only [List.mem_singleton, forall_eq]
    refine ⟨?_, List.pairwise_singleton _ _⟩
    simp only [List.mem_singleton, forall_eq]
    split_ifs <;> norm_num
  apart := List.pairwise_singleton _ _

/-- The range of `"x"` is an overlap of the two ranges, but the nodes of `"y"` are filed under its
own range. -/
theorem not_completes_identityTree_two :
    FeaturesOk twoSources (identityTree ["x", "y"]).postorder ∧
      ¬ ∃ s : GraphState String Unit,
        buildFeatureTaskGraph twoSources {} (identityTree ["x", "y"]) = .ok s ∧
          ∀ l ∈ s.lookups, l.Hit s.contexts := by
  refine ⟨featuresOk_identityTree (by decide) fun k => ⟨_, rfl, rangeSeq_twoSources k⟩, ?_⟩
  rintro ⟨s, hs, -⟩
  have herror : (buildFeatureTaskGraph twoSources {} (identityTree ["x", "y"]) :
      Except PyError (GraphState String Unit)).map (fun _ => ()) =
        .error (.key "range_interval") := by
    decide +kernel
  rw [hs] at herror
  cases herror

end Svoe
