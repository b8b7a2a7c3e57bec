import Svoe.TaskGraph.Builder

/-!
# What the builder keeps

A node that is filed in the graph was bound for the feature and the interval it is filed under, and
`obj_ref_cache` counts what has been bound (`GraphState.Inv`).  One range of a feature adds nodes
for its blocks and files them (`RangeFiled`), nothing else.

* `sourceRange_spec`, `fileBlocks_spec` : one range of a data source, or of a derived feature.
* `exists_fileBlocks_iff` : when the blocks of a range can be filed.
-/

namespace Svoe

open Portion

variable {κ ρ : Type}

/-- What the nodes were bound for, in the order of their numbers. -/
def GraphState.contexts (s : GraphState κ ρ) : List (Context κ (ClosedInterval ℚ)) :=
  s.bound.map Task.context

/-- The lookup hit a node that had been bound for the block. -/
def DepLookup.Hit (contexts : List (Context κ (ClosedInterval ℚ))) (l : DepLookup κ) : Prop :=
  l.node < l.time ∧ contexts[l.node]? = some ⟨l.dep, l.block⟩

variable [DecidableEq κ]

/-- The counter of a cache table, `0` if there is none. -/
def counter (cache : CacheTable κ (ClosedInterval ℚ) ρ) (c : Context κ (ClosedInterval ℚ)) : ℕ :=
  ((cache.lookup c).map Prod.fst).getD 0

/-- What holds of the graph under construction. -/
structure GraphState.Inv (s : GraphState κ ρ) : Prop where
  counted : ∀ c, counter s.cache c = s.contexts.count c
  filed : ∀ k J I node, s.dag.lookup k J I = some node → s.contexts[node]? = some ⟨k, I⟩
  hit : ∀ l ∈ s.lookups, l.Hit s.contexts

/-! ### Dictionaries of nodes -/

theorem FeatureDag.dictGet_ensure (dag : FeatureDag κ) (k k' : κ) :
    dictGet (dag.ensure k) k' =
      if k = k' ∧ dictGet dag k' = none then some [] else dictGet dag k' := by
  unfold ensure
  rcases Option.eq_none_or_eq_some (dictGet dag k) with h | ⟨ranges, h⟩
  · rw [h, Option.isNone_none, if_pos rfl, dictGet_dictSet]
    by_cases hk : k = k'
    · subst hk
      simp [h]
    · simp [hk]
  · rw [h, Option.isNone_some, if_neg Bool.false_ne_true, if_neg]
    rintro ⟨rfl, hnone⟩
    simp [h] at hnone

/-- A feature without ranges changes no lookup. -/
@[simp] theorem FeatureDag.lookup_ensure (dag : FeatureDag κ) (k k' : κ) (J I : ClosedInterval ℚ) :
    (dag.ensure k).lookup k' J I = dag.lookup k' J I := by
  rw [lookup, lookup, dictGet_ensure]
  split_ifs with h
  · rw [h.2]
    rfl
  · rfl

theorem FeatureDag.file_eq_ok_iff {dag dag' : FeatureDag κ} {k : κ} {J : ClosedInterval ℚ}
    {nodes : RangeNodes} : dag.file k J nodes = .ok dag' ↔
      ∃ ranges, dictGet dag k = some ranges ∧ dag' = dictSet dag k (dictSet ranges J nodes) := by
  unfold file
  cases dictGet dag k <;> simp [eq_comm]

theorem FeatureDag.lookup_file {dag dag' : FeatureDag κ} {k : κ} {J : ClosedInterval ℚ}
    {nodes : RangeNodes} (h : dag.file k J nodes = .ok dag') (k' : κ) (J' I : ClosedInterval ℚ) :
    dag'.lookup k' J' I = if k = k' ∧ J = J' then dictGet nodes I else dag.lookup k' J' I := by
  obtain ⟨ranges, hk, rfl⟩ := file_eq_ok_iff.1 h
  rw [lookup, lookup, dictGet_dictSet]
  by_cases hkk : k = k'
  · subst hkk
    by_cases hJ : J = J' <;> simp [hk, dictGet_dictSet, hJ]
  · simp [hkk]

theorem FeatureDag.dictGet_file {dag dag' : FeatureDag κ} {k : κ} {J : ClosedInterval ℚ}
    {nodes : RangeNodes} (h : dag.file k J nodes = .ok dag') (k' : κ) :
    dictGet dag' k' ≠ none ↔ dictGet dag k' ≠ none := by
  obtain ⟨ranges, hk, rfl⟩ := file_eq_ok_iff.1 h
  rw [dictGet_dictSet]
  split_ifs with hkk
  · subst hkk
    simp [hk]
  · rfl

/-! ### One node -/

theorem counter_countNode (cache : CacheTable κ (ClosedInterval ℚ) ρ)
    (c c' : Context κ (ClosedInterval ℚ)) :
    counter (countNode cache c) c' = counter cache c' + if c = c' then 1 else 0 := by
  unfold counter countNode
  cases h : cache.lookup c with
  | none =>
    by_cases hc : c = c'
    · subst hc
      simp [lookup_assign, h]
    · simp [lookup_assign, hc]
  | some v =>
    by_cases hc : c = c'
    · subst hc
      simp [lookup_assign, h]
    · simp [lookup_assign, hc]

theorem contexts_bindAndCache (s : GraphState κ ρ) (task : Task κ) :
    (bindAndCache s task).2.contexts = s.contexts ++ [task.context] := by
  simp [bindAndCache, GraphState.contexts]

omit [DecidableEq κ] in
theorem DepLookup.Hit.append {contexts : List (Context κ (ClosedInterval ℚ))} {l : DepLookup κ}
    (h : l.Hit contexts) (l' : List (Context κ (ClosedInterval ℚ))) : l.Hit (contexts ++ l') := by
  refine ⟨h.1, ?_⟩
  rw [List.getElem?_append_left (List.getElem?_eq_some_iff.1 h.2).1]
  exact h.2

theorem GraphState.Inv.bindAndCache {s : GraphState κ ρ} (h : s.Inv) (task : Task κ) :
    (bindAndCache s task).2.Inv where
  counted c := by
    rw [contexts_bindAndCache, List.count_append, List.count_singleton, ← h.counted c]
    refine (counter_countNode s.cache task.context c).trans ?_
    simp only [beq_iff_eq]
  filed k J I node hnode := by
    have hold := h.filed k J I node hnode
    rw [contexts_bindAndCache, List.getElem?_append_left (List.getElem?_eq_some_iff.1 hold).1]
    exact hold
  hit l hl := by
    rw [contexts_bindAndCache]
    exact (h.hit l hl).append _

/-- What new nodes for the blocks `Is` of a feature are: entries of `nodes`, behind the nodes there
were. -/
structure BlocksBound (key : κ) (Is : List (ClosedInterval ℚ))
    (p p' : RangeNodes × GraphState κ ρ) : Prop where
  lookup : ∀ k J I, p'.2.dag.lookup k J I = p.2.dag.lookup k J I
  keys : ∀ k, k ≠ key → (dictGet p'.2.dag k ≠ none ↔ dictGet p.2.dag k ≠ none)
  rangesMeta : p'.2.rangesMeta = p.2.rangesMeta
  contexts : p'.2.contexts = p.2.contexts ++ Is.map fun I => ⟨key, I⟩
  nodes : ∀ I, dictGet p'.1 I ≠ none ↔ I ∈ Is ∨ dictGet p.1 I ≠ none

/-- The nodes of a range, and the state, are as they should be. -/
structure NodesInv (key : κ) (p : RangeNodes × GraphState κ ρ) : Prop where
  inv : p.2.Inv
  nodes : ∀ I node, dictGet p.1 I = some node → p.2.contexts[node]? = some ⟨key, I⟩

namespace BlocksBound

variable {key : κ} {Is Is' : List (ClosedInterval ℚ)} {p p' p'' : RangeNodes × GraphState κ ρ}

theorem refl (key : κ) (p : RangeNodes × GraphState κ ρ) : BlocksBound key [] p p where
  lookup _ _ _ := rfl
  keys _ _ := Iff.rfl
  rangesMeta := rfl
  contexts := by simp
  nodes I := by simp

theorem trans (h : BlocksBound key Is p p') (h' : BlocksBound key Is' p' p'') :
    BlocksBound key (Is ++ Is') p p'' where
  lookup k J I := (h'.lookup k J I).trans (h.lookup k J I)
  keys k hk := (h'.keys k hk).trans (h.keys k hk)
  rangesMeta := h'.rangesMeta.trans h.rangesMeta
  contexts := by rw [h'.contexts, h.contexts, List.map_append, List.append_assoc]
  nodes I := by
    rw [h'.nodes, h.nodes, List.mem_append, ← or_assoc, or_comm (a := I ∈ Is')]

/-- A loop over blocks binds what its rounds bind. -/
theorem foldlM {α : Type*} {f : RangeNodes × GraphState κ ρ → α →
      Except PyError (RangeNodes × GraphState κ ρ)} (interval : α → ClosedInterval ℚ) {l : List α}
    (hstep : ∀ p a p', NodesInv key p → f p a = .ok p' →
      BlocksBound key [interval a] p p' ∧ NodesInv key p')
    (hinv : NodesInv key p) (h : l.foldlM f p = .ok p') :
    BlocksBound key (l.map interval) p p' ∧ NodesInv key p' := by
  induction l generalizing p with
  | nil => exact Except.ok.inj h ▸ ⟨refl key p, hinv⟩
  | cons a l ih =>
    rw [List.foldlM_cons, bind_eq_ok_iff] at h
    obtain ⟨p₁, hp₁, h⟩ := h
    obtain ⟨hb, hinv₁⟩ := hstep p a p₁ hinv hp₁
    obtain ⟨hb', hinv'⟩ := ih hinv₁ h
    exact ⟨hb.trans hb', hinv'⟩

end BlocksBound

/-- Binding a node and filing it under its interval. -/
theorem blocksBound_bindAndCache {key : κ} {nodes : RangeNodes} {s s' : GraphState κ ρ}
    (hinv : NodesInv key (nodes, s)) (call : TaskCall κ) (I : ClosedInterval ℚ)
    (hs' : s'.Inv) (hcontexts : s'.contexts = s.contexts)
    (hlookup : ∀ k J I, s'.dag.lookup k J I = s.dag.lookup k J I)
    (hkeys : ∀ k, k ≠ key → (dictGet s'.dag k ≠ none ↔ dictGet s.dag k ≠ none))
    (hmeta : s'.rangesMeta = s.rangesMeta) :
    let b := bindAndCache s' ⟨call, ⟨key, I⟩⟩
    BlocksBound key [I] (nodes, s) (dictSet nodes I b.1, b.2) ∧
      NodesInv key (dictSet nodes I b.1, b.2) := by
  have hbound : s'.bound.length = s.contexts.length := by
    rw [← hcontexts, GraphState.contexts, List.length_map]
  refine ⟨⟨hlookup, hkeys, hmeta, ?_, fun I' => ?_⟩, hs'.bindAndCache _, fun I' node hnode => ?_⟩
  · rw [contexts_bindAndCache, hcontexts]
    rfl
  · rw [dictGet_dictSet, List.mem_singleton]
    by_cases hI : I = I'
    · simp [hI]
    · simp [hI, Ne.symm hI]
  · rw [dictGet_dictSet] at hnode
    rw [contexts_bindAndCache, hcontexts]
    split_ifs at hnode with hI
    · obtain rfl := Option.some.inj hnode
      rw [← hI, bindAndCache, hbound, List.getElem?_concat_length]
    · have hold := hinv.nodes I' node hnode
      rw [List.getElem?_append_left (List.getElem?_eq_some_iff.1 hold).1]
      exact hold

/-! ### One range -/

/-- What filing a range of a feature changes: there are nodes for its blocks, and they are what is
filed under the range. -/
structure RangeFiled (key : κ) (J : ClosedInterval ℚ) (Is : List (ClosedInterval ℚ))
    (s s' : GraphState κ ρ) : Prop where
  lookup : ∀ k J' I, s'.dag.lookup k J' I ≠ none ↔
    if key = k ∧ J = J' then I ∈ Is else s.dag.lookup k J' I ≠ none
  keys : ∀ k, dictGet s'.dag k ≠ none ↔ k = key ∨ dictGet s.dag k ≠ none
  contexts : s'.contexts = s.contexts ++ Is.map fun I => ⟨key, I⟩
  inv : s'.Inv

/-- Filing the nodes that were bound for the blocks of a range. -/
theorem rangeFiled_of_blocksBound {key : κ} {J : ClosedInterval ℚ} {Is : List (ClosedInterval ℚ)}
    {s s₀ : GraphState κ ρ} {p : RangeNodes × GraphState κ ρ} {dag : FeatureDag κ}
    {rangesMeta : List (κ × List (List BlockMeta))} (hb : BlocksBound key Is ([], s₀) p)
    (hp : NodesInv key p) (hfile : p.2.dag.file key J p.1 = .ok dag)
    (hlookup : ∀ k J I, s₀.dag.lookup k J I = s.dag.lookup k J I)
    (hkeys : ∀ k, k ≠ key → (dictGet s₀.dag k ≠ none ↔ dictGet s.dag k ≠ none))
    (hcontexts : s₀.contexts = s.contexts) :
    RangeFiled key J Is s { p.2 with dag := dag, rangesMeta := rangesMeta } where
  lookup k J' I := by
    rw [FeatureDag.lookup_file hfile, hb.lookup, hlookup]
    split_ifs
    · rw [hb.nodes]
      simp [dictGet]
    · rfl
  keys k := by
    rw [FeatureDag.dictGet_file hfile]
    by_cases hk : k = key
    · obtain ⟨ranges, hr, -⟩ := FeatureDag.file_eq_ok_iff.1 hfile
      simp [hk, hr]
    · rw [hb.keys k hk, hkeys k hk]
      simp [hk]
  contexts := hb.contexts.trans (by rw [hcontexts])
  inv := by
    refine ⟨hp.inv.counted, fun k J' I node hnode => ?_, hp.inv.hit⟩
    rw [FeatureDag.lookup_file hfile] at hnode
    split_ifs at hnode with hk
    · exact hk.1 ▸ hp.nodes I node hnode
    · exact hp.inv.filed k J' I node hnode

theorem sourceBlock_spec {key : κ} {isSynthetic : Bool} {p p' : RangeNodes × GraphState κ ρ}
    {m : BlockMeta} (hp : NodesInv key p) (h : sourceBlock key isSynthetic p m = .ok p') :
    BlocksBound key [m.interval] p p' ∧ NodesInv key p' := by
  rw [sourceBlock, bind_eq_ok_iff] at h
  obtain ⟨I, hI, h⟩ := h
  rw [← Except.ok.inj h, metaToInterval_eq_ok hI]
  exact blocksBound_bindAndCache hp _ _ hp.inv rfl (fun _ _ _ => rfl) (fun _ _ => Iff.rfl) rfl

/-- **One range of a data source**: its blocks are filed under its hull. -/
theorem sourceRange_spec {key : κ} {isSynthetic : Bool} {s s' : GraphState κ ρ}
    {range : List BlockMeta} (hs : s.Inv) (h : sourceRange key isSynthetic s range = .ok s') :
    range ≠ [] ∧ RangeFiled key (rangeHull range) (range.map BlockMeta.interval) s s' ∧
      s'.rangesMeta = s.rangesMeta := by
  rw [sourceRange] at h
  simp only [bind_eq_ok_iff] at h
  obtain ⟨J, hJ, p, hp, dag, hdag, h⟩ := h
  obtain ⟨hne, rfl, -⟩ := rangeMetaToInterval_eq_ok hJ
  have hinit : NodesInv key (([] : RangeNodes), { s with dag := s.dag.ensure key }) :=
    ⟨⟨hs.counted, fun k J I node hnode => hs.filed k J I node (by simpa using hnode), hs.hit⟩,
      fun I node hnode => by cases hnode⟩
  obtain ⟨hb, hinv⟩ := BlocksBound.foldlM BlockMeta.interval
    (fun p m p' hp h => sourceBlock_spec hp h) hinit hp
  have hs' : s' = { p.2 with dag := dag } := (Except.ok.inj h).symm
  subst hs'
  have hkeys : ∀ k, k ≠ key → (dictGet (s.dag.ensure key) k ≠ none ↔ dictGet s.dag k ≠ none) := by
    intro k hk
    rw [FeatureDag.dictGet_ensure, if_neg fun hkk => hk hkk.1.symm]
  exact ⟨hne, rangeFiled_of_blocksBound hb hinv hdag
    (fun k J I => s.dag.lookup_ensure key k J I) hkeys rfl, hb.rangesMeta⟩

/-- Ranges whose blocks have intervals can be filed. -/
theorem exists_sourceRange {key : κ} {isSynthetic : Bool} (s : GraphState κ ρ)
    {range : List BlockMeta} (hblocks : ∀ m ∈ range, ∃ I, metaToInterval m = .ok I)
    (hrange : ∃ J, rangeMetaToInterval range = .ok J) :
    ∃ s', sourceRange key isSynthetic s range = .ok s' := by
  obtain ⟨J, hJ⟩ := hrange
  obtain ⟨p, hp⟩ : ∃ p, range.foldlM (sourceBlock key isSynthetic)
      (([] : RangeNodes), { s with dag := s.dag.ensure key }) = .ok p := by
    refine exists_foldlM (fun p m hm => ?_) _
    obtain ⟨I, hI⟩ := hblocks m hm
    exact ⟨_, by rw [sourceBlock, hI]; rfl⟩
  have hdag : p.2.dag = s.dag.ensure key := by
    refine foldlM_invariant (P := fun p : RangeNodes × GraphState κ ρ =>
      p.2.dag = s.dag.ensure key) (fun p m p' _ hdag hstep => ?_) rfl hp
    rw [sourceBlock, bind_eq_ok_iff] at hstep
    obtain ⟨I, -, hstep⟩ := hstep
    rw [← Except.ok.inj hstep]
    exact hdag
  obtain ⟨ranges, hranges⟩ : ∃ ranges, dictGet p.2.dag key = some ranges := by
    rw [hdag, FeatureDag.dictGet_ensure, ← Option.ne_none_iff_exists']
    split_ifs with hk
    · exact Option.some_ne_none _
    · exact fun hnone => hk ⟨rfl, hnone⟩
  refine ⟨{ p.2 with dag := dictSet p.2.dag key (dictSet ranges J p.1) }, ?_⟩
  rw [sourceRange]
  simp only [bind_eq_ok_iff]
  exact ⟨J, hJ, p, hp, _, FeatureDag.file_eq_ok_iff.2 ⟨ranges, hranges, rfl⟩, rfl⟩

/-! ### One range of a derived feature -/

/-- What the node of a block needs: the nodes of the blocks it depends on are filed under the range,
and no two stored blocks are almost its own. -/
def BlockOk (input : BuilderInput κ) (key : κ) (dag : FeatureDag κ) (J : ClosedInterval ℚ)
    (q : ClosedInterval ℚ × List (κ × List BlockMeta)) : Prop :=
  (∀ p ∈ q.2, ∀ m ∈ p.2, ∃ I, metaToInterval m = .ok I ∧ dag.lookup p.1 J I ≠ none) ∧
    ∀ stored, input.storedFeatureBlocksMeta key = some stored →
      ∃ path, storedPath stored q.1 = .ok path

section FeatureBlock

variable {input : BuilderInput κ} {key : κ} {J : ClosedInterval ℚ} {s s' : GraphState κ ρ}
  {p p' : RangeNodes × GraphState κ ρ} {q : ClosedInterval ℚ × List (κ × List BlockMeta)}
  {g : List (ClosedInterval ℚ × List (κ × List BlockMeta))}

theorem depLookup_eq_ok_iff {dep : κ} {m : BlockMeta} {l : DepLookup κ} :
    depLookup s J dep m = .ok l ↔ ∃ I node, metaToInterval m = .ok I ∧
      s.dag.lookup dep J I = some node ∧ l = ⟨dep, J, I, node, s.bound.length⟩ := by
  unfold depLookup
  cases hI : metaToInterval m with
  | error e => simp
  | ok I =>
    dsimp only
    cases hnode : s.dag.lookup dep J I with
    | none => simp [hnode]
    | some node => simp [hnode, eq_comm]

theorem exists_depLookups_iff (overlap : List (κ × List BlockMeta)) :
    (∃ ls, depLookups s J overlap = .ok ls) ↔ ∀ p ∈ overlap, ∀ m ∈ p.2,
      ∃ I, metaToInterval m = .ok I ∧ s.dag.lookup p.1 J I ≠ none := by
  rw [depLookups, exists_mapM_iff]
  refine forall₂_congr fun p _ => ?_
  simp only [map_eq_ok_iff]
  rw [← (exists_mapM_iff (f := depLookup s J p.1)).trans (forall₂_congr fun m _ => ?_)]
  · exact ⟨fun ⟨_, ls, hls, _⟩ => ⟨ls, hls⟩, fun ⟨ls, hls⟩ => ⟨_, ls, hls, rfl⟩⟩
  · simp only [depLookup_eq_ok_iff, Option.ne_none_iff_exists']
    exact ⟨fun ⟨_, I, node, hI, hnode, _⟩ => ⟨I, hI, node, hnode⟩,
      fun ⟨I, hI, node, hnode⟩ => ⟨_, I, node, hI, hnode, rfl⟩⟩

/-- Every lookup hits a node that was bound for the block. -/
theorem hit_of_mem_depLookups (hs : s.Inv) {overlap : List (κ × List BlockMeta)}
    {ls : List (κ × List (DepLookup κ))} (h : depLookups s J overlap = .ok ls) {l : DepLookup κ}
    (hl : l ∈ ls.flatMap Prod.snd) : l.Hit s.contexts := by
  obtain ⟨p, hp, hlp⟩ := List.mem_flatMap.1 hl
  obtain ⟨q, -, hq⟩ := exists_of_mem_mapM h hp
  obtain ⟨ls', hls', rfl⟩ := map_eq_ok_iff.1 hq
  obtain ⟨m, -, hm⟩ := exists_of_mem_mapM hls' hlp
  obtain ⟨I, node, -, hnode, rfl⟩ := depLookup_eq_ok_iff.1 hm
  have hfiled := hs.filed _ _ _ _ hnode
  refine ⟨?_, hfiled⟩
  have hlt := (List.getElem?_eq_some_iff.1 hfiled).1
  rwa [GraphState.contexts, List.length_map] at hlt

theorem exists_featureCall_iff {depNodes : List (κ × List ℕ)} {I : ClosedInterval ℚ} :
    (∃ call, featureCall input key I depNodes = .ok call) ↔
      ∀ stored, input.storedFeatureBlocksMeta key = some stored →
        ∃ path, storedPath stored I = .ok path := by
  unfold featureCall
  cases input.storedFeatureBlocksMeta key with
  | none => simp
  | some stored =>
    simp only [map_eq_ok_iff, Option.some.injEq, forall_eq']
    exact ⟨fun ⟨_, path, hpath, _⟩ => ⟨path, hpath⟩, fun ⟨path, hpath⟩ => ⟨_, path, hpath, rfl⟩⟩

theorem exists_featureBlock_iff :
    (∃ p', featureBlock input key J p q = .ok p') ↔ BlockOk input key p.2.dag J q := by
  have hlookups := exists_depLookups_iff (J := J) (s := { p.2 with dag := p.2.dag.ensure key }) q.2
  simp only [FeatureDag.lookup_ensure] at hlookups
  rw [BlockOk, ← hlookups]
  simp only [featureBlock, bind_eq_ok_iff]
  constructor
  · rintro ⟨p', ls, hls, call, hcall, -⟩
    exact ⟨⟨ls, hls⟩, exists_featureCall_iff.1 ⟨call, hcall⟩⟩
  · rintro ⟨⟨ls, hls⟩, hstored⟩
    obtain ⟨call, hcall⟩ := exists_featureCall_iff.2 hstored
    exact ⟨_, ls, hls, call, hcall, rfl⟩

theorem featureBlock_spec (hp : NodesInv key p) (h : featureBlock input key J p q = .ok p') :
    BlocksBound key [q.1] p p' ∧ NodesInv key p' := by
  simp only [featureBlock, bind_eq_ok_iff] at h
  obtain ⟨ls, hls, call, -, h⟩ := h
  rw [← Except.ok.inj h]
  have hensured : ({ p.2 with dag := p.2.dag.ensure key } : GraphState κ ρ).Inv :=
    ⟨hp.inv.counted, fun k J I node hnode => hp.inv.filed k J I node (by simpa using hnode),
      hp.inv.hit⟩
  have hkeys : ∀ k, k ≠ key → (dictGet (p.2.dag.ensure key) k ≠ none ↔ dictGet p.2.dag k ≠ none) :=
    fun k hk => by rw [FeatureDag.dictGet_ensure, if_neg fun hkk => hk hkk.1.symm]
  refine blocksBound_bindAndCache hp call q.1 ⟨hensured.counted, hensured.filed, fun l hl => ?_⟩
    rfl (fun k J I => p.2.dag.lookup_ensure key k J I) hkeys rfl
  rcases List.mem_append.1 hl with hl | hl
  · exact hp.inv.hit l hl
  · exact hit_of_mem_depLookups hensured hls hl

/-- The nodes of the blocks before do not change what a block's node needs. -/
theorem exists_foldlM_featureBlock_iff (hp : NodesInv key p) :
    (∃ p', g.foldlM (featureBlock input key J) p = .ok p') ↔
      ∀ q ∈ g, BlockOk input key p.2.dag J q := by
  induction g generalizing p with
  | nil => exact iff_of_true ⟨p, rfl⟩ (by simp)
  | cons q g ih =>
    have hsame : ∀ {p₁}, featureBlock input key J p q = .ok p₁ → ∀ q',
        BlockOk input key p₁.2.dag J q' ↔ BlockOk input key p.2.dag J q' := fun hp₁ q' => by
      simp only [BlockOk, (featureBlock_spec hp hp₁).1.lookup]
    rw [List.forall_mem_cons, ← exists_featureBlock_iff, List.foldlM_cons]
    simp only [bind_eq_ok_iff]
    constructor
    · rintro ⟨p', p₁, hp₁, h⟩
      have hg := (ih (featureBlock_spec hp hp₁).2).1 ⟨p', h⟩
      exact ⟨⟨p₁, hp₁⟩, fun q' hq' => (hsame hp₁ q').1 (hg q' hq')⟩
    · rintro ⟨⟨p₁, hp₁⟩, hg⟩
      obtain ⟨p', hp'⟩ := (ih (featureBlock_spec hp hp₁).2).2
        fun q' hq' => (hsame hp₁ q').2 (hg q' hq')
      exact ⟨p', p₁, hp₁, hp'⟩

/-- The feature is in the graph if a block of it has been bound, or if it has been before. -/
theorem dictGet_foldlM_featureBlock (h : g.foldlM (featureBlock input key J) p = .ok p') :
    dictGet p'.2.dag key ≠ none ↔ g ≠ [] ∨ dictGet p.2.dag key ≠ none := by
  induction g generalizing p with
  | nil => simp [← Except.ok.inj h]
  | cons q g ih =>
    rw [List.foldlM_cons, bind_eq_ok_iff] at h
    obtain ⟨p₁, hp₁, h⟩ := h
    simp only [featureBlock, bind_eq_ok_iff] at hp₁
    obtain ⟨ls, -, call, -, hp₁⟩ := hp₁
    have hdag : p₁.2.dag = p.2.dag.ensure key := by rw [← Except.ok.inj hp₁]; rfl
    refine iff_of_true ((ih h).2 (.inr ?_)) (.inl (List.cons_ne_nil q g))
    rw [hdag, FeatureDag.dictGet_ensure]
    split_ifs with hk
    · exact Option.some_ne_none _
    · exact fun hnone => hk ⟨rfl, hnone⟩

theorem NodesInv.init (hs : s.Inv) : NodesInv key (([] : RangeNodes), s) :=
  ⟨hs, fun I node hnode => by cases hnode⟩

/-- **When the blocks of a range can be filed**: every block has what it needs, and the feature is
in the graph. -/
theorem exists_fileBlocks_iff (hs : s.Inv) :
    (∃ s', fileBlocks input key s (J, g) = .ok s') ↔
      (∀ q ∈ g, BlockOk input key s.dag J q) ∧ (g ≠ [] ∨ dictGet s.dag key ≠ none) := by
  rw [← exists_foldlM_featureBlock_iff (p := (([] : RangeNodes), s)) (.init hs)]
  simp only [fileBlocks, bind_eq_ok_iff]
  constructor
  · rintro ⟨s', p, hp, dag, hdag, -⟩
    refine ⟨⟨p, hp⟩, (dictGet_foldlM_featureBlock hp).1 ?_⟩
    obtain ⟨ranges, hranges, -⟩ := FeatureDag.file_eq_ok_iff.1 hdag
    exact hranges ▸ Option.some_ne_none ranges
  · rintro ⟨⟨p, hp⟩, hkey⟩
    obtain ⟨ranges, hranges⟩ :=
      Option.ne_none_iff_exists'.1 ((dictGet_foldlM_featureBlock hp).2 hkey)
    exact ⟨_, p, hp, _, FeatureDag.file_eq_ok_iff.2 ⟨ranges, hranges, rfl⟩, rfl⟩

/-- **One range of a derived feature**: its blocks are filed under the overlap of the ranges, and
recorded. -/
theorem fileBlocks_spec (hs : s.Inv) (h : fileBlocks input key s (J, g) = .ok s') :
    RangeFiled key J (g.map Prod.fst) s s' ∧ s'.rangesMeta = dictSet s.rangesMeta key
      ((dictGet s.rangesMeta key).getD [] ++ [g.map fun q => intervalToMeta q.1]) := by
  simp only [fileBlocks, bind_eq_ok_iff] at h
  obtain ⟨p, hp, dag, hdag, h⟩ := h
  obtain ⟨hb, hinv⟩ := BlocksBound.foldlM Prod.fst (fun p q p' hp h => featureBlock_spec hp h)
    (.init hs) hp
  have hmeta : p.2.rangesMeta = s.rangesMeta := hb.rangesMeta
  rw [← Except.ok.inj h, ← hmeta]
  exact ⟨rangeFiled_of_blocksBound hb hinv hdag (fun _ _ _ => rfl) (fun _ _ => Iff.rfl) rfl, rfl⟩

end FeatureBlock

/-! ### The traversal -/

/-- The state of the graph between two ranges: a feature is in the graph only with a node. -/
structure GraphState.Sound (s : GraphState κ ρ) : Prop extends s.Inv where
  bound : ∀ k, dictGet s.dag k ≠ none → ∃ c ∈ s.contexts, c.featureKey = k

section Traversal

variable {input : BuilderInput κ} {s s' : GraphState κ ρ} {key : κ} {J : ClosedInterval ℚ}
  {Is : List (ClosedInterval ℚ)} {t : FeatureTree κ}

theorem RangeFiled.sound (h : RangeFiled key J Is s s') (hs : s.Sound)
    (hne : Is ≠ [] ∨ dictGet s.dag key ≠ none) : s'.Sound where
  toInv := h.inv
  bound k hk := by
    have hold : dictGet s.dag k ≠ none → ∃ c ∈ s'.contexts, c.featureKey = k := fun hk => by
      obtain ⟨c, hc, hck⟩ := hs.bound k hk
      exact ⟨c, h.contexts ▸ List.mem_append_left _ hc, hck⟩
    rcases (h.keys k).1 hk with rfl | hk
    · rcases hne with hne | hkey
      · obtain ⟨I, hI⟩ := List.exists_mem_of_ne_nil Is hne
        exact ⟨⟨k, I⟩, h.contexts ▸ List.mem_append_right _ (List.mem_map_of_mem hI), rfl⟩
      · exact hold hkey
    · exact hold hk

theorem sound_sourceRange {isSynthetic : Bool} {range : List BlockMeta} (hs : s.Sound)
    (h : sourceRange key isSynthetic s range = .ok s') : s'.Sound := by
  obtain ⟨hne, hfiled, -⟩ := sourceRange_spec hs.toInv h
  exact hfiled.sound hs (.inl (by simpa using hne))

theorem sound_fileBlocks {g : List (ClosedInterval ℚ × List (κ × List BlockMeta))} (hs : s.Sound)
    (h : fileBlocks input key s (J, g) = .ok s') : s'.Sound := by
  have hne := ((exists_fileBlocks_iff hs.toInv).1 ⟨s', h⟩).2
  exact (fileBlocks_spec hs.toInv h).1.sound hs (by simpa using hne)

/-- A visit of a feature keeps the graph sound. -/
theorem sound_treeTraversalCallback (hs : s.Sound)
    (h : treeTraversalCallback input s t = .ok s') : s'.Sound := by
  unfold treeTraversalCallback at h
  split at h
  · split at h
    · cases h
    · exact foldlM_invariant (fun _ _ _ _ hs h => sound_sourceRange hs h) hs h
  · simp only [bind_eq_ok_iff] at h
    obtain ⟨overlaps, -, h⟩ := h
    refine foldlM_invariant (fun s p s' _ hs h => ?_) hs h
    obtain ⟨g, -, h⟩ := bind_eq_ok_iff.1 h
    exact sound_fileBlocks hs h

theorem sound_buildFeatureTaskGraph (hs : s.Sound) (h : buildFeatureTaskGraph input s t = .ok s') :
    s'.Sound := by
  rw [buildFeatureTaskGraph] at h
  have hinit : ({ s with rangesMeta := [] } : GraphState κ ρ).Sound :=
    ⟨⟨hs.counted, hs.filed, hs.hit⟩, hs.bound⟩
  exact foldlM_invariant (fun _ _ _ _ hs h => sound_treeTraversalCallback hs h) hinit h

theorem sound_empty : ({} : GraphState κ ρ).Sound where
  counted _ := rfl
  filed _ _ _ _ h := by cases h
  hit _ h := by cases h
  bound _ h := absurd rfl h

/-- **The graph of a feature set** is sound. -/
theorem sound_buildFeatureSetTaskGraph {features : List (FeatureTree κ)}
    (h : buildFeatureSetTaskGraph input features [] = .ok s) : s.Sound :=
  foldlM_invariant (fun _ _ _ _ hs h => sound_buildFeatureTaskGraph hs h) sound_empty h

end Traversal

end Svoe
