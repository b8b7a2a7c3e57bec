import Svoe.TaskGraph.RangeTable

/-!
# Filing all ranges of a feature

A visit of a feature files its ranges one after the other.  What it changes is its table
(`TableFiled`), and for a derived feature the ranges that are recorded.

* `sourceRanges_spec` : the ranges of a data source can be filed.
* `exists_filePlan_iff` : the plan of a derived feature can be filed if every block has what it
  needs, and the first range has blocks or the feature has been visited before.
* `filePlan_spec`, `rangesMeta_filePlan` : what filing the plan changes.
-/

namespace Svoe

open Portion

variable {κ ρ : Type} [DecidableEq κ]

/-- The ranges of a feature with the blocks of each. -/
abbrev TableKeys := List (ClosedInterval ℚ × List (ClosedInterval ℚ))

/-- What filing the ranges of a feature changes: the nodes of the blocks are what is filed under a
range of them. -/
structure TableFiled (key : κ) (rows : TableKeys) (s s' : GraphState κ ρ) : Prop where
  lookup : ∀ k J I, s'.dag.lookup k J I ≠ none ↔
    if key = k ∧ J ∈ rows.map Prod.fst then ∃ Is, (J, Is) ∈ rows ∧ I ∈ Is
    else s.dag.lookup k J I ≠ none
  keys : ∀ k, k ≠ key → (dictGet s'.dag k ≠ none ↔ dictGet s.dag k ≠ none)
  inv : s'.Inv

theorem TableFiled.nil {s : GraphState κ ρ} (key : κ) (hs : s.Inv) : TableFiled key [] s s where
  lookup k J I := by simp
  keys _ _ := Iff.rfl
  inv := hs

/-- Another range behind its first one. -/
theorem TableFiled.cons {key : κ} {J : ClosedInterval ℚ} {Is : List (ClosedInterval ℚ)}
    {rows : TableKeys} {s s₁ s' : GraphState κ ρ} (h : RangeFiled key J Is s s₁)
    (hrest : TableFiled key rows s₁ s') (hJ : J ∉ rows.map Prod.fst) :
    TableFiled key ((J, Is) :: rows) s s' where
  lookup k J' I := by
    rw [hrest.lookup, h.lookup]
    by_cases hk : key = k
    swap
    · simp [hk]
    subst hk
    by_cases hJ' : J = J'
    · subst hJ'
      have hrows : ∀ Is, (J, Is) ∉ rows := fun Is hmem => hJ (List.mem_map_of_mem hmem)
      simp [hJ, hrows]
    · have hmem : J' ∈ ((J, Is) :: rows).map Prod.fst ↔ J' ∈ rows.map Prod.fst := by
        rw [List.map_cons, List.mem_cons, or_iff_right (Ne.symm hJ')]
      simp only [hmem, List.mem_cons, Prod.mk.injEq, Ne.symm hJ', false_and, false_or, hJ',
        and_false, if_false]
  keys k hk := by
    rw [hrest.keys k hk, h.keys k, or_iff_right hk]
  inv := hrest.inv

/-- A loop that files one range in every round. -/
theorem TableFiled.foldlM {α : Type*} {f : GraphState κ ρ → α → Except PyError (GraphState κ ρ)}
    {key : κ} {row : α → ClosedInterval ℚ × List (ClosedInterval ℚ)} {l : List α}
    {s s' : GraphState κ ρ}
    (hstep : ∀ s a s', s.Inv → f s a = .ok s' → RangeFiled key (row a).1 (row a).2 s s')
    (hkeys : ((l.map row).map Prod.fst).Nodup) (hs : s.Inv) (h : l.foldlM f s = .ok s') :
    TableFiled key (l.map row) s s' := by
  induction l generalizing s with
  | nil => exact Except.ok.inj h ▸ .nil key hs
  | cons a l ih =>
    rw [List.foldlM_cons, bind_eq_ok_iff] at h
    obtain ⟨s₁, hs₁, h⟩ := h
    obtain ⟨ha, hkeys⟩ := List.nodup_cons.1 hkeys
    have hfiled := hstep s a s₁ hs hs₁
    exact .cons hfiled (ih hkeys hfiled.inv h) ha

/-- The ranges of a table with the intervals of their blocks. -/
def RangeTable.intervals (rows : RangeTable) : TableKeys :=
  rows.map fun row => (row.1, row.2.map BlockMeta.interval)

theorem RangeTable.keys_intervals (rows : RangeTable) :
    rows.intervals.map Prod.fst = rows.map Prod.fst := by
  rw [intervals, List.map_map]
  rfl

theorem RangeTable.mem_intervals_iff {rows : RangeTable} {J I : ClosedInterval ℚ} :
    (∃ Is, (J, Is) ∈ rows.intervals ∧ I ∈ Is) ↔
      ∃ r, (J, r) ∈ rows ∧ ∃ m ∈ r, m.interval = I := by
  simp only [intervals, List.mem_map, Prod.exists, Prod.mk.injEq]
  constructor
  · rintro ⟨_, ⟨J, r, hr, rfl, rfl⟩, hI⟩
    exact ⟨r, hr, List.mem_map.1 hI⟩
  · rintro ⟨r, hr, hI⟩
    exact ⟨_, ⟨J, r, hr, rfl, rfl⟩, List.mem_map.2 hI⟩

/-! ### Data sources -/

section Source

variable {ranges : List (List BlockMeta)} {s : GraphState κ ρ}

/-- **The ranges of a data source can be filed**, and nothing is recorded. -/
theorem sourceRanges_spec (key : κ) (isSynthetic : Bool) (hranges : RangeSeq ranges) (hs : s.Inv) :
    ∃ s', ranges.foldlM (sourceRange key isSynthetic) s = .ok s' ∧
      TableFiled key (RangeTable.intervals (ranges.map fun r => (rangeHull r, r))) s s' ∧
        s'.rangesMeta = s.rangesMeta := by
  obtain ⟨s', hs'⟩ : ∃ s', ranges.foldlM (sourceRange key isSynthetic) s = .ok s' := by
    refine exists_foldlM (fun s r hr => exists_sourceRange s (fun m hm => ?_) ?_) s
    · exact ⟨_, metaToInterval_of_interval_le ((hranges.sorted r hr).interval_le hm)⟩
    · exact ⟨_, (hranges.sorted r hr).rangeMetaToInterval_eq (hranges.nonempty r hr)⟩
  have hkeys : ((ranges.map fun r => (rangeHull r, r.map BlockMeta.interval)).map
      Prod.fst).Nodup := by
    have hnodup := hranges.tableOk.keys
    rw [List.map_map] at hnodup ⊢
    exact hnodup
  refine ⟨s', hs', ?_, ?_⟩
  · rw [RangeTable.intervals, List.map_map]
    exact TableFiled.foldlM (fun s r s' hs h => (sourceRange_spec hs h).2.1) hkeys hs hs'
  · refine (foldlM_invariant (P := fun s₁ : GraphState κ ρ =>
      s₁.Inv ∧ s₁.rangesMeta = s.rangesMeta) (fun s₁ r s₂ _ hs₁ h => ?_) ⟨hs, rfl⟩ hs').2
    obtain ⟨-, hfiled, hmeta⟩ := sourceRange_spec hs₁.1 h
    exact ⟨hfiled.inv, hmeta.trans hs₁.2⟩

end Source

/-! ### Derived features -/

section Plan

variable {input : BuilderInput κ} {key : κ} {plan : RangePlan κ} {s s' : GraphState κ ρ}

/-- **Filing a plan** files the intervals of its blocks. -/
theorem filePlan_spec (hkeys : (plan.map Prod.fst).Nodup) (hs : s.Inv)
    (h : plan.foldlM (fileBlocks input key) s = .ok s') :
    TableFiled key (plan.map fun p => (p.1, p.2.map Prod.fst)) s s' := by
  refine TableFiled.foldlM (fun s p s' hs h => (fileBlocks_spec hs h).1) ?_ hs h
  rwa [List.map_map]

omit [DecidableEq κ] in
theorem intervals_planTable (hms : ∀ p ∈ plan, ∀ q ∈ p.2, IsMs q.1.lower ∧ IsMs q.1.upper) :
    RangeTable.intervals (planTable plan) = plan.map fun p => (p.1, p.2.map Prod.fst) := by
  rw [RangeTable.intervals, planTable, List.map_map]
  refine List.map_congr_left fun p hp => ?_
  simp only [Function.comp_apply, List.map_map]
  refine Prod.mk.injEq .. ▸ ⟨rfl, List.map_congr_left fun q hq => ?_⟩
  exact interval_intervalToMeta (hms p hp q hq).1 (hms p hp q hq).2

/-- The blocks of a plan are recorded behind what has been recorded for the feature. -/
theorem rangesMeta_filePlan (hs : s.Inv) (h : plan.foldlM (fileBlocks input key) s = .ok s')
    (k : κ) : dictGet s'.rangesMeta k =
      if key = k ∧ plan ≠ [] then
        some ((dictGet s.rangesMeta key).getD [] ++ (planTable plan).map Prod.snd)
      else dictGet s.rangesMeta k := by
  induction plan generalizing s with
  | nil => simp [← Except.ok.inj h]
  | cons p plan ih =>
    rw [List.foldlM_cons, bind_eq_ok_iff] at h
    obtain ⟨s₁, hs₁, h⟩ := h
    obtain ⟨hfiled, hmeta⟩ := fileBlocks_spec hs hs₁
    rw [ih hfiled.inv h, hmeta]
    simp only [dictGet_dictSet, if_true, Option.getD_some]
    by_cases hk : key = k
    · cases plan <;> simp [hk, planTable]
    · simp [hk]

/-- What a block needs does not change when another feature is filed. -/
theorem RangeFiled.blockOk_iff {J : ClosedInterval ℚ} {Is : List (ClosedInterval ℚ)}
    (h : RangeFiled key J Is s s') {J' : ClosedInterval ℚ}
    {q : ClosedInterval ℚ × List (κ × List BlockMeta)} (hq : ∀ kv ∈ q.2, kv.1 ≠ key) :
    BlockOk input key s'.dag J' q ↔ BlockOk input key s.dag J' q := by
  refine and_congr_left' (forall₂_congr fun kv hkv => ?_)
  simp only [h.lookup, (hq kv hkv).symm, false_and, if_false]

/-- **When a plan can be filed**: every block has what it needs, and the feature is in the graph
already or the first range has a block. -/
theorem exists_filePlan_iff (hs : s.Inv)
    (hdeps : ∀ p ∈ plan, ∀ q ∈ p.2, ∀ kv ∈ q.2, kv.1 ≠ key) :
    (∃ s', plan.foldlM (fileBlocks input key) s = .ok s') ↔
      (∀ p ∈ plan, ∀ q ∈ p.2, BlockOk input key s.dag p.1 q) ∧
        (dictGet s.dag key = none → ∀ p ∈ plan.head?, p.2 ≠ []) := by
  induction plan generalizing s with
  | nil => exact iff_of_true ⟨s, rfl⟩ (by simp)
  | cons p plan ih =>
    obtain ⟨hp, hplan⟩ := List.forall_mem_cons.1 hdeps
    have hfirst : (∃ s₁, fileBlocks input key s p = .ok s₁) ↔
        (∀ q ∈ p.2, BlockOk input key s.dag p.1 q) ∧ (p.2 ≠ [] ∨ dictGet s.dag key ≠ none) :=
      exists_fileBlocks_iff hs
    have hhead : (dictGet s.dag key = none → ∀ p' ∈ (p :: plan).head?, p'.2 ≠ []) ↔
        (p.2 ≠ [] ∨ dictGet s.dag key ≠ none) := by
      simp only [List.head?_cons, Option.mem_some_iff, forall_eq', or_comm (a := p.2 ≠ []),
        ← imp_iff_not_or]
    have hnext : ∀ {s₁}, fileBlocks input key s p = .ok s₁ →
        ((∃ s', plan.foldlM (fileBlocks input key) s₁ = .ok s') ↔
          ∀ p ∈ plan, ∀ q ∈ p.2, BlockOk input key s.dag p.1 q) := by
      intro s₁ hs₁
      have hfiled := (fileBlocks_spec hs hs₁).1
      have hkey : dictGet s₁.dag key ≠ none := (hfiled.keys key).2 (.inl rfl)
      rw [ih hfiled.inv hplan, and_iff_left fun hnone => absurd hnone hkey]
      exact forall₂_congr fun p' hp' => forall₂_congr fun q hq =>
        hfiled.blockOk_iff (hplan p' hp' q hq)
    rw [List.forall_mem_cons, hhead, List.foldlM_cons]
    simp only [bind_eq_ok_iff]
    constructor
    · rintro ⟨s', s₁, hs₁, hs'⟩
      obtain ⟨hblocks, hkey⟩ := hfirst.1 ⟨s₁, hs₁⟩
      exact ⟨⟨hblocks, (hnext hs₁).1 ⟨s', hs'⟩⟩, hkey⟩
    · rintro ⟨⟨hblocks, hrest⟩, hkey⟩
      obtain ⟨s₁, hs₁⟩ := hfirst.2 ⟨hblocks, hkey⟩
      obtain ⟨s', hs'⟩ := (hnext hs₁).2 hrest
      exact ⟨s', s₁, hs₁, hs'⟩

end Plan

end Svoe
