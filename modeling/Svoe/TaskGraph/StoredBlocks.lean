import Mathlib.Data.List.Dedup
import Svoe.TaskGraph.Replay
import Svoe.TaskGraph.Wiring

/-!
# Stored blocks are found again

The builder asks for every interval of a feature which stored intervals are *almost* equal to it,
with a tolerance of 0.15 s at either end: it raises on more than one, and loads the block of the
only one.  So blocks that are shorter than the tolerance and next to each other are mistaken for
each other.

* `finds_row_iff` : when a row is found by its own interval.
* `foundAgain_iff` : all blocks are found again if and only if no row is almost another's interval.
-/

namespace Svoe

open Portion

variable {κ ρ : Type} [DecidableEq κ]

/-! ### Finding the blocks again -/

section Found

variable {features : List κ} {startDate endDate : Option ℚ}
  {table : List (FeatureBlockMetadata κ)} {r r' : FeatureBlockMetadata κ} {k : κ}

/-- The blocks the graph calculates of the features, each once. -/
def GraphState.calculated (features : List κ) (s : GraphState κ ρ) :
    List (Context κ (ClosedInterval ℚ)) :=
  ((s.bound.filter fun task => task.call.isCalculation ∧ task.context.featureKey ∈ features).map
    Task.context).dedup

/-- Each of the blocks is stored, with its own start and end; a path is stored once. -/
structure Stores (features : List κ) (table : List (FeatureBlockMetadata κ))
    (blocks : List (Context κ (ClosedInterval ℚ))) : Prop where
  perm : ((table.filter (·.key ∈ features)).map FeatureBlockMetadata.context).Perm blocks
  paths : (table.map FeatureBlockMetadata.path).Nodup

/-- The graph `s` is built again with the rows of the features, and every block that it calculated
of them is loaded from its own row. -/
def FoundAgain (input : BuilderInput κ) (trees : List (FeatureTree κ))
    (cache : CacheTable κ (ClosedInterval ℚ) ρ) (features : List κ) (startDate endDate : Option ℚ)
    (table : List (FeatureBlockMetadata κ)) (s : GraphState κ ρ) : Prop :=
  ∃ groups, getFeaturesMeta table features startDate endDate = .ok groups ∧
    ∃ s' : GraphState κ ρ,
      buildFeatureSetTaskGraph (input.withStored groups.blocksMeta) trees cache = .ok s' ∧
        s'.bound = s.bound.map (Task.loadOwn features table)

/-- Every row of the features is read, and almost has the interval of no other row of the
feature. -/
def StoredApart (features : List κ) (startDate endDate : Option ℚ)
    (table : List (FeatureBlockMetadata κ)) : Prop :=
  ∀ r ∈ table, r.key ∈ features → r.IsRead features startDate endDate ∧
    ∀ r' ∈ table, r'.key = r.key → r' ≠ r → ¬ intervalsAlmostEqual r'.rounded r.interval

omit [DecidableEq κ] in
/-- The rounding is well within the tolerance. -/
theorem intervalsAlmostEqual_rounded (r : FeatureBlockMetadata κ) :
    intervalsAlmostEqual r.rounded r.interval = true := by
  have hlow := abs_roundFloat_sub_le r.startTs
  have hup := abs_roundFloat_sub_le r.endTs
  unfold intervalsAlmostEqual
  rw [Bool.and_eq_true]
  exact ⟨decide_eq_true (hup.trans (by norm_num)), decide_eq_true (hlow.trans (by norm_num))⟩

theorem storedPath_eq_some_iff {l : List (ClosedInterval ℚ × String)} {I : ClosedInterval ℚ}
    {path : String} : storedPath l I = .ok (some path) ↔
      ∃ J, (l.filter fun p => intervalsAlmostEqual p.1 I) = [(J, path)] := by
  unfold storedPath
  generalize (l.filter fun p => intervalsAlmostEqual p.1 I) = found
  rcases found with _ | ⟨p, _ | ⟨q, ps⟩⟩
  · simp
  · constructor
    · intro h
      exact ⟨p.1, by rw [← Option.some.inj (Except.ok.inj h)]⟩
    · rintro ⟨J, h⟩
      obtain rfl := List.head_eq_of_cons_eq h
      rfl
  · simp

/-- What the builder asks of the stored blocks of a feature. -/
theorem Grouped.blocksMeta {rows : List (FeatureBlockMetadata κ)} {groups : StoredGroups κ}
    (h : Grouped rows groups) : groups.blocksMeta k =
      if (rows.filter fun r => r.key = k) = [] then none
      else some ((rows.filter fun r => r.key = k).map fun r => (r.rounded, r.path)) := by
  rw [StoredGroups.blocksMeta, h.entries, entriesOf]
  split_ifs with hnil hnil' hnil'
  · rfl
  · exact absurd (List.map_eq_nil_iff.1 hnil) hnil'
  · exact absurd (by rw [hnil']; rfl) hnil
  · rw [Option.map_some, List.map_map]
    rfl

variable {blocks : List (Context κ (ClosedInterval ℚ))}

theorem Stores.eq_of_path (h : Stores features table blocks) (hr : r ∈ table) (hr' : r' ∈ table)
    (hpath : r'.path = r.path) : r' = r :=
  List.inj_on_of_nodup_map h.paths hr' hr hpath

/-- The row that a block's row is. -/
theorem Stores.ownRow (h : Stores features table blocks) (hblocks : blocks.Nodup) (hr : r ∈ table)
    (hkey : r.key ∈ features) : ownRow features table r.context = some r := by
  have hcontexts := h.perm.nodup_iff.2 hblocks
  have hfind : (Svoe.ownRow features table r.context).isSome :=
    List.find?_isSome.2 ⟨r, hr, by simp [hkey]⟩
  obtain ⟨r', hr'⟩ := Option.isSome_iff_exists.1 hfind
  have hmem := List.mem_of_find?_eq_some hr'
  have hown := List.find?_some hr'
  simp only [decide_eq_true_eq] at hown
  rw [hr', List.inj_on_of_nodup_map hcontexts (by simp [hmem, hown.1]) (by simp [hr, hkey]) hown.2]

theorem Stores.exists_row (h : Stores features table blocks) {c : Context κ (ClosedInterval ℚ)}
    (hc : c ∈ blocks) : ∃ r ∈ table, r.key ∈ features ∧ r.context = c := by
  obtain ⟨r, hr, hrc⟩ := List.mem_map.1 (h.perm.mem_iff.2 hc)
  simp only [List.mem_filter, decide_eq_true_eq] at hr
  exact ⟨r, hr.1, hr.2, hrc⟩

/-- The only element that a filter leaves. -/
theorem filter_eq_singleton_iff {α : Type} {l : List α} (h : l.Nodup) {p : α → Bool} {a : α} :
    l.filter p = [a] ↔ a ∈ l ∧ p a ∧ ∀ b ∈ l, p b → b = a := by
  constructor
  · intro hone
    have hmem : ∀ b, b ∈ l ∧ p b ↔ b = a := fun b => by
      rw [← List.mem_filter, hone, List.mem_singleton]
    exact ⟨((hmem a).2 rfl).1, ((hmem a).2 rfl).2, fun b hb hpb => (hmem b).1 ⟨hb, hpb⟩⟩
  · rintro ⟨ha, hpa, hall⟩
    refine List.perm_singleton.1
      ((List.perm_ext_iff_of_nodup (h.filter _) (List.nodup_singleton a)).2 fun b => ?_)
    rw [List.mem_filter, List.mem_singleton]
    constructor
    · exact fun hb => hall b hb.1 hb.2
    · rintro rfl
      exact ⟨ha, hpa⟩

/-- The rows of a feature that the query returns. -/
theorem mem_rows_iff : r' ∈ (table.filter
      (FeatureBlockMetadata.IsRead features startDate endDate)).filter (fun r' => r'.key = k) ↔
    (r' ∈ table ∧ r'.IsRead features startDate endDate) ∧ r'.key = k := by
  rw [List.mem_filter, List.mem_filter, decide_eq_true_iff, decide_eq_true_iff]

/-- **A row is found** by its own interval if and only if it is read and no other row that is read
almost has the interval. -/
theorem finds_row_iff (h : Stores features table blocks) {groups : StoredGroups κ}
    (hgroups : Grouped (table.filter (FeatureBlockMetadata.IsRead features startDate endDate))
      groups) (hr : r ∈ table) :
    (∃ l, groups.blocksMeta r.key = some l ∧ storedPath l r.interval = .ok (some r.path)) ↔
      r.IsRead features startDate endDate ∧
        ∀ r' ∈ table, r'.IsRead features startDate endDate → r'.key = r.key → r' ≠ r →
          ¬ intervalsAlmostEqual r'.rounded r.interval := by
  set rows := (table.filter (FeatureBlockMetadata.IsRead features startDate endDate)).filter
    (fun r' => r'.key = r.key) with hrows
  have hnodup : rows.Nodup := ((h.paths.of_map _).filter _).filter _
  have hfinds : (∃ l, groups.blocksMeta r.key = some l ∧
      storedPath l r.interval = .ok (some r.path)) ↔
        (rows.filter fun r' => intervalsAlmostEqual r'.rounded r.interval) = [r] := by
    rw [hgroups.blocksMeta, ← hrows]
    constructor
    · rintro ⟨l, hl, hpath⟩
      split_ifs at hl
      obtain rfl := Option.some.inj hl
      obtain ⟨J, hJ⟩ := storedPath_eq_some_iff.1 hpath
      rw [List.filter_map] at hJ
      obtain ⟨r', hr', heq⟩ := List.map_eq_singleton_iff.1 hJ
      have hin : r' ∈ rows := List.mem_of_mem_filter (hr' ▸ List.mem_singleton_self r')
      obtain rfl := h.eq_of_path hr (mem_rows_iff.1 hin).1.1 (Prod.ext_iff.1 heq).2
      exact hr'
    · intro hone
      have hin : r ∈ rows := List.mem_of_mem_filter (hone ▸ List.mem_singleton_self r)
      refine ⟨_, if_neg (List.ne_nil_of_mem hin), storedPath_eq_some_iff.2 ⟨r.rounded, ?_⟩⟩
      rw [List.filter_map]
      exact congrArg (List.map fun r' => (r'.rounded, r'.path)) hone
  rw [hfinds, filter_eq_singleton_iff hnodup, mem_rows_iff]
  constructor
  · rintro ⟨⟨⟨-, hread⟩, -⟩, -, hall⟩
    refine ⟨hread, fun r' hr' hread' hkey hne halmost => hne (hall r' ?_ halmost)⟩
    exact mem_rows_iff.2 ⟨⟨hr', hread'⟩, hkey⟩
  · rintro ⟨hread, hapart⟩
    refine ⟨⟨⟨hr, hread⟩, rfl⟩, intervalsAlmostEqual_rounded r, fun r' hr' halmost => ?_⟩
    obtain ⟨⟨htable, hread'⟩, hkey⟩ := mem_rows_iff.1 hr'
    exact by_contra fun hne => hapart r' htable hread' hkey hne halmost

variable {input : BuilderInput κ} {trees : List (FeatureTree κ)}
  {cache : CacheTable κ (ClosedInterval ℚ) ρ} {s : GraphState κ ρ}

theorem mem_calculated_iff {c : Context κ (ClosedInterval ℚ)} : c ∈ s.calculated features ↔
    ∃ task ∈ s.bound, task.call.isCalculation ∧ c.featureKey ∈ features ∧ task.context = c := by
  simp only [GraphState.calculated, List.mem_dedup, List.mem_map, List.mem_filter,
    decide_eq_true_eq]
  constructor
  · rintro ⟨task, ⟨htask, hcalc, hkey⟩, rfl⟩
    exact ⟨task, htask, hcalc, hkey, rfl⟩
  · rintro ⟨task, htask, hcalc, hkey, rfl⟩
    exact ⟨task, ⟨htask, hcalc, hkey⟩, rfl⟩

theorem nodup_calculated : (s.calculated features).Nodup := List.nodup_dedup _

/-- A rebuild that loads every block from its own row finds every row. -/
theorem FoundAgain.finds
    (hstored : Stores features table (s.calculated features)) {groups : StoredGroups κ}
    {s' : GraphState κ ρ}
    (hs' : buildFeatureSetTaskGraph (input.withStored groups.blocksMeta) trees cache = .ok s')
    (hbound : s'.bound = s.bound.map (Task.loadOwn features table)) (hr : r ∈ table)
    (hkey : r.key ∈ features) : ∃ l, groups.blocksMeta r.key = some l ∧
      storedPath l r.interval = .ok (some r.path) := by
  have hc : r.context ∈ s.calculated features :=
    hstored.perm.mem_iff.1 (List.mem_map_of_mem (by simp [hr, hkey]))
  obtain ⟨task, htask, hcalc, -, hcontext⟩ := mem_calculated_iff.1 hc
  have hload : task.loadOwn features table = ⟨.loadIfNeeded r.path, r.context⟩ := by
    unfold Task.loadOwn
    rw [hcontext, hstored.ownRow nodup_calculated hr hkey]
    exact if_pos hcalc
  have hmem : (⟨.loadIfNeeded r.path, r.context⟩ : Task κ) ∈ s'.bound :=
    hbound ▸ hload ▸ List.mem_map_of_mem htask
  exact loadsStored_buildFeatureSetTaskGraph hs' _ hmem r.path rfl

theorem FoundAgain.storedApart (hstored : Stores features table (s.calculated features))
    (h : FoundAgain input trees cache features startDate endDate table s) :
    StoredApart features startDate endDate table := by
  obtain ⟨groups, hgroups, s', hs', hbound⟩ := h
  have hgrouped := getFeaturesMeta_spec.2 groups hgroups
  intro r hr hkey
  obtain ⟨hread, hapart⟩ :=
    (finds_row_iff hstored hgrouped hr).1 (FoundAgain.finds hstored hs' hbound hr hkey)
  refine ⟨hread, fun r' hr' hsame hne => hapart r' hr' ?_ hsame hne⟩
  have hfinds := FoundAgain.finds hstored hs' hbound hr' (hsame ▸ hkey)
  exact ((finds_row_iff hstored hgrouped hr').1 hfinds).1

/-- Rows that are apart have different rounded intervals. -/
theorem StoredApart.nodup_entries (h : StoredApart features startDate endDate table)
    (hpaths : (table.map FeatureBlockMetadata.path).Nodup) (k : κ) :
    ((entriesOf (table.filter (FeatureBlockMetadata.IsRead features startDate endDate)) k).map
      Prod.fst).Nodup := by
  rw [entriesOf, List.map_map]
  refine List.Nodup.map_on ?_ (((hpaths.of_map _).filter _).filter _)
  intro r hr r' hr' heq
  rw [List.mem_filter, List.mem_filter, decide_eq_true_iff, decide_eq_true_iff] at hr hr'
  obtain ⟨⟨htable, hread⟩, hk⟩ := hr
  obtain ⟨⟨htable', -⟩, hk'⟩ := hr'
  by_contra hne
  refine (h r htable hread.1).2 r' htable' (hk'.trans hk.symm) (Ne.symm hne) ?_
  rw [show r'.rounded = r.rounded from heq.symm]
  exact intervalsAlmostEqual_rounded r

/-- Every block finds its own row if the rows are apart. -/
theorem StoredApart.findsOwn (h : StoredApart features startDate endDate table)
    (hstored : Stores features table (s.calculated features)) {groups : StoredGroups κ}
    (hgrouped : Grouped (table.filter (FeatureBlockMetadata.IsRead features startDate endDate))
      groups) : s.FindsOwn groups.blocksMeta features table := by
  intro task htask hcalc
  unfold FindsOwn
  cases hown : ownRow features table task.context with
  | some r =>
    have htable := List.mem_of_find?_eq_some hown
    have hr := List.find?_some hown
    simp only [decide_eq_true_eq] at hr
    rw [← hr.2]
    refine (finds_row_iff hstored hgrouped htable).2 ⟨(h r htable hr.1).1, ?_⟩
    exact fun r' hr' _ => (h r htable hr.1).2 r' hr'
  | none =>
    have hkey : task.context.featureKey ∉ features := by
      intro hkey
      obtain ⟨r, hr, hrkey, hrc⟩ :=
        hstored.exists_row (mem_calculated_iff.2 ⟨task, htask, hcalc, hkey, rfl⟩)
      rw [← hrc, hstored.ownRow nodup_calculated hr hrkey] at hown
      cases hown
    show groups.blocksMeta task.context.featureKey = none
    rw [hgrouped.blocksMeta, if_pos]
    refine List.filter_eq_nil_iff.2 fun r hr hk => hkey ?_
    rw [List.mem_filter, decide_eq_true_iff] at hr
    exact of_decide_eq_true hk ▸ hr.2.1

/-- **Stored blocks are found again** if and only if every row is read and almost has the interval
of no other row of its feature. -/
theorem foundAgain_iff
    (hbuild : buildFeatureSetTaskGraph (input.withStored fun _ => none) trees cache = .ok s)
    (hstored : Stores features table (s.calculated features)) :
    FoundAgain input trees cache features startDate endDate table s ↔
      StoredApart features startDate endDate table := by
  constructor
  · exact FoundAgain.storedApart hstored
  · intro hapart
    obtain ⟨groups, hgroups⟩ := getFeaturesMeta_spec.1.2 (hapart.nodup_entries hstored.paths)
    have hgrouped := getFeaturesMeta_spec.2 groups hgroups
    have hown := hapart.findsOwn hstored hgrouped
    exact ⟨groups, hgroups, _, replay_buildFeatureSetTaskGraph hbuild hown, rfl⟩

end Found

/-! ### Two blocks -/

/-- A data source of two touching blocks of the given length. -/
def touchingBlocks (length : ℚ) : BuilderInput String where
  dataRangesMeta _ := some [[⟨0, length, "a"⟩, ⟨length, 2 * length, "b"⟩]]
  metaOf _ := .missing

/-- The stored blocks of the feature that has the blocks of the source. -/
def touchingRows (length : ℚ) : List (FeatureBlockMetadata String) :=
  [⟨"f", 0, length, 0, "f/0"⟩, ⟨"f", length, 2 * length, 0, "f/1"⟩]

/-- What is calculated of the feature. -/
def touchingCalculated (length : ℚ) : List (Context String (ClosedInterval ℚ)) :=
  [⟨"f", ⟨0, length⟩⟩, ⟨"f", ⟨length, 2 * length⟩⟩]

/-- Blocks of ten seconds are found again. -/
theorem foundAgain_tenSeconds : ∃ s : GraphState String Unit,
    s.calculated ["f"] = touchingCalculated 10 ∧
      FoundAgain (touchingBlocks 10) [identityTree ["x"]] [] ["f"] none none (touchingRows 10)
        s := by
  have hbuild : (buildFeatureSetTaskGraph ((touchingBlocks 10).withStored fun _ => none)
      [identityTree ["x"]] [] : Except PyError (GraphState String Unit)).map
        (GraphState.calculated ["f"]) = .ok (touchingCalculated 10) := by
    decide +kernel
  obtain ⟨s, hs, hcalculated⟩ := map_eq_ok_iff.1 hbuild
  have hstored : Stores ["f"] (touchingRows 10) (s.calculated ["f"]) := by
    rw [hcalculated]
    exact ⟨.of_eq (by decide +kernel), by decide +kernel⟩
  refine ⟨s, hcalculated, (foundAgain_iff hs hstored).2 ?_⟩
  unfold StoredApart
  decide +kernel

/-- Blocks of a tenth of a second are almost each other's. -/
theorem not_foundAgain_tenthOfSecond : ∃ s : GraphState String Unit,
    buildFeatureSetTaskGraph ((touchingBlocks (1 / 10)).withStored fun _ => none)
      [identityTree ["x"]] [] = .ok s ∧
    s.calculated ["f"] = touchingCalculated (1 / 10) ∧
    Stores ["f"] (touchingRows (1 / 10)) (s.calculated ["f"]) ∧
    ¬ FoundAgain (touchingBlocks (1 / 10)) [identityTree ["x"]] [] ["f"] none none
      (touchingRows (1 / 10)) s := by
  have hbuild : (buildFeatureSetTaskGraph ((touchingBlocks (1 / 10)).withStored fun _ => none)
      [identityTree ["x"]] [] : Except PyError (GraphState String Unit)).map
        (GraphState.calculated ["f"]) = .ok (touchingCalculated (1 / 10)) := by
    decide +kernel
  obtain ⟨s, hs, hcalculated⟩ := map_eq_ok_iff.1 hbuild
  have hstored : Stores ["f"] (touchingRows (1 / 10)) (s.calculated ["f"]) := by
    rw [hcalculated]
    exact ⟨.of_eq (by decide +kernel), by decide +kernel⟩
  refine ⟨s, hs, hcalculated, hstored, ?_⟩
  rintro ⟨groups, hgroups, s', hs', -⟩
  have hraises : (getFeaturesMeta (touchingRows (1 / 10)) ["f"] none none >>= fun groups =>
      (buildFeatureSetTaskGraph ((touchingBlocks (1 / 10)).withStored groups.blocksMeta)
        [identityTree ["x"]] [] : Except PyError (GraphState String Unit)).map fun _ => ()) =
          .error (.value "More than one almost equal interval") := by
    decide +kernel
  rw [hgroups] at hraises
  replace hraises : Except.map _ (buildFeatureSetTaskGraph _ _ _) = _ := hraises
  rw [hs'] at hraises
  cases hraises

end Svoe
